import AsioQuickjs.Tally
import AsioQuickjs.Trace
import Mathlib.Logic.Function.Basic

/-! `qjs::Value` of `src/qjs.hpp`, which holds a reference of the engine. The engine counts the
references to each object; a reference is with a `Value`, is a bare `JSValue` that somebody owes a
`JS_FreeValue`, or is the engine's own. -/
namespace AsioQuickjs
namespace Values

/-- A `JSValue`: an object by its number, or a value that nobody counts. -/
abbrev JsRef := Option ℕ

/-- A null context, or what `v_` is. -/
abbrev Value := Option JsRef

/-- The `Value`s that are alive, and the references to each object: all that the engine has
counted, those that are bare, and those of properties. -/
structure Sys where
  values : ℕ → Option Value := fun _ => none
  count : ℕ → ℤ := fun _ => 0
  loose : ℕ → ℤ := fun _ => 0
  inner : ℕ → ℤ := fun _ => 0
  made : ℕ := 0

def one (v : JsRef) (o : ℕ) : ℤ := if v = some o then 1 else 0

namespace Sys

def put (s : Sys) (k : ℕ) (w : Option Value) : Sys :=
  { s with values := Function.update s.values k w }

/-- `v_` of a variable that has a context. -/
def held (s : Sys) (k : ℕ) : JsRef := (s.values k).join.join

/-- `JS_DupValue` and `JS_FreeValue`, apart from whose the reference is. -/
def dupValue (s : Sys) (v : JsRef) : Sys := { s with count := fun o => s.count o+one v o }

def freeValue (s : Sys) (v : JsRef) : Sys := { s with count := fun o => s.count o-one v o }

def loosen (s : Sys) (v : JsRef) : Sys := { s with loose := fun o => s.loose o+one v o }

def bind (s : Sys) (v : JsRef) : Sys := { s with loose := fun o => s.loose o-one v o }

def keep (s : Sys) (v : JsRef) : Sys := { s with inner := fun o => s.inner o+one v o }

def drop (s : Sys) (v : JsRef) : Sys := { s with inner := fun o => s.inner o-one v o }

/-- `Value(ctx,v)` and `take` of a bare reference. -/
def take (s : Sys) (k : ℕ) (v : JsRef) : Sys := (s.bind v).put k (some (some v))

def dup (s : Sys) (k : ℕ) (v : JsRef) : Sys := (s.dupValue v).put k (some (some v))

/-- `Value(const Value& o)` -/
def copyFrom (s : Sys) (k j : ℕ) : Sys := (s.dupValue (s.held j)).put k (s.values j)

/-- `Value(Value&& o)` -/
def moveFrom (s : Sys) (k j : ℕ) : Sys := (s.put k (s.values j)).put j (some none)

def swap (s : Sys) (k j : ℕ) : Sys := (s.put k (s.values j)).put j (s.values k)

def reset (s : Sys) (k : ℕ) : Sys := (s.freeValue (s.held k)).put k (some none)

/-- The reference that `release` returns is bare. -/
def release (s : Sys) (k : ℕ) : Sys := (s.loosen (s.held k)).put k (some none)

def destroy (s : Sys) (k : ℕ) : Sys := (s.reset k).put k none

/-- `operator=(Value o)`, where the argument is the variable `t`. -/
def copyAssign (s : Sys) (k j t : ℕ) : Sys := ((s.copyFrom t j).swap k t).destroy t

def moveAssign (s : Sys) (k j t : ℕ) : Sys := ((s.moveFrom t j).swap k t).destroy t

/-- `JS_SetPropertyStr` takes the reference over, and keeps it or frees it. -/
def setPropertyStr (s : Sys) (v : JsRef) (stored : Bool) : Sys :=
  if stored then (s.bind v).keep v else (s.bind v).freeValue v

/-- `set(name,std::move(value))` and `set(name,value)`, where the argument is `t`. -/
def set (s : Sys) (t : ℕ) (stored : Bool) : Sys :=
  ((s.release t).setPropertyStr (s.held t) stored).destroy t

end Sys

/-- The program and the engine. -/
inductive Action
  | construct (k : ℕ) | newObject | take (k : ℕ) (v : JsRef) | dup (k : ℕ) (v : JsRef)
  | copy (k j : ℕ) | move (k j : ℕ) | swap (k j : ℕ)
  | copyAssign (k j t : ℕ) | moveAssign (k j t : ℕ)
  | reset (k : ℕ) | release (k : ℕ) | destroy (k : ℕ)
  | setCopy (k j t : ℕ) (stored : Bool) | setMove (k j t : ℕ) (stored : Bool)
  | get (k : ℕ) (v : JsRef)
  | dupBare (o : ℕ) | freeBare (o : ℕ) | dupProperty (o : ℕ) | freeProperty (o : ℕ)

/-- A variable is made where there is none. Of the engine: the call of `get` finds a property,
and only what is alive is duplicated. -/
def step (s : Sys) : Action → Option Sys
  | .construct k => if s.values k = none then some (s.put k (some none)) else none
  | .newObject =>
    let s' := (s.dupValue (some s.made)).loosen (some s.made)
    some { s' with made := s.made+1 }
  | .take k v =>
    if s.values k = none ∧ ∀ o, v = some o → 0 < s.loose o then some (s.take k v) else none
  | .dup k v =>
    if s.values k = none ∧ ∀ o, v = some o → 0 < s.count o then some (s.dup k v) else none
  | .copy k j =>
    if s.values k = none ∧ s.values j ≠ none then some (s.copyFrom k j) else none
  | .move k j =>
    if s.values k = none ∧ s.values j ≠ none then some (s.moveFrom k j) else none
  | .swap k j =>
    if s.values k ≠ none ∧ s.values j ≠ none then some (s.swap k j) else none
  | .copyAssign k j t =>
    if s.values k ≠ none ∧ s.values j ≠ none ∧ s.values t = none then some (s.copyAssign k j t)
    else none
  | .moveAssign k j t =>
    if s.values k ≠ none ∧ s.values j ≠ none ∧ s.values t = none then some (s.moveAssign k j t)
    else none
  | .reset k => if s.values k ≠ none then some (s.reset k) else none
  | .release k => if s.values k ≠ none then some (s.release k) else none
  | .destroy k => if s.values k ≠ none then some (s.destroy k) else none
  | .setCopy k j t stored =>
    if (s.held k).isSome ∧ s.values j ≠ none ∧ s.values t = none then
      some ((s.copyFrom t j).set t stored)
    else none
  | .setMove k j t stored =>
    if (s.held k).isSome ∧ s.values j ≠ none ∧ s.values t = none then
      some ((s.moveFrom t j).set t stored)
    else none
  | .get k v =>
    if s.values k = none ∧ ∀ o, v = some o → 0 < s.inner o then some (s.dup k v) else none
  | .dupBare o => if 0 < s.count o then some ((s.dupValue (some o)).loosen (some o)) else none
  | .freeBare o => if 0 < s.loose o then some ((s.bind (some o)).freeValue (some o)) else none
  | .dupProperty o => if 0 < s.count o then some ((s.dupValue (some o)).keep (some o)) else none
  | .freeProperty o => if 0 < s.inner o then some ((s.drop (some o)).freeValue (some o)) else none

/-- What the engine has counted, without the references that are bare or of properties, is what
the variables hold. -/
structure Inv (s : Sys) : Prop where
  counts : ∀ o, Tally.Counts (fun k => one (s.held k) o) (s.count o-s.loose o-s.inner o)
  loose : ∀ o, 0 ≤ s.loose o
  inner : ∀ o, 0 ≤ s.inner o

@[simp] theorem one_none (o : ℕ) : one none o = 0 := rfl

theorem one_nonneg (v : JsRef) (o : ℕ) : 0 ≤ one v o := by
  unfold one
  split <;> decide

theorem one_le {v : JsRef} {n : ℕ → ℤ} (h : ∀ o, v = some o → 0 < n o) (hn : ∀ o, 0 ≤ n o)
    (o : ℕ) : one v o ≤ n o := by
  unfold one
  split
  · next hv => exact h o hv
  · exact hn o

theorem held_put (s : Sys) (k : ℕ) (w : Option Value) :
    (s.put k w).held = Function.update s.held k w.join.join := by
  funext j
  simp only [Sys.held,Sys.put,Function.update_apply]
  split <;> rfl

theorem held_of_none {s : Sys} {k : ℕ} (h : s.values k = none) : s.held k = none := by
  rw [Sys.held,h]
  rfl

theorem inv_start : Inv {} where
  counts _ := Tally.Counts.none fun _ => rfl
  loose _ := le_refl 0
  inner _ := le_refl 0

section

variable {s t : Sys} {k j : ℕ}

theorem counts_put {o : ℕ} {n m : ℤ} (h : Tally.Counts (fun i => one (s.held i) o) n) (k : ℕ)
    (w : Option Value) (hm : m = n+one w.join.join o-one (s.held k) o) :
    Tally.Counts (fun i => one ((s.put k w).held i) o) m := by
  rw [held_put]
  refine h.move k (fun i hi => by rw [Function.update_of_ne hi]) ?_
  rw [Function.update_self]
  omega

theorem Inv.put (h : Inv s) (k : ℕ) (w : Option Value) (ht : t.held = (s.put k w).held)
    (hcount : ∀ o, t.count o-t.loose o-t.inner o =
      s.count o-s.loose o-s.inner o+one w.join.join o-one (s.held k) o)
    (hloose : ∀ o, 0 ≤ t.loose o) (hinner : ∀ o, 0 ≤ t.inner o) : Inv t where
  counts o := by
    rw [ht]
    exact counts_put (h.counts o) k w (hcount o)
  loose := hloose
  inner := hinner

theorem Inv.same (h : Inv s) (ht : t.held = s.held)
    (hcount : ∀ o, t.count o-t.loose o-t.inner o = s.count o-s.loose o-s.inner o)
    (hloose : ∀ o, 0 ≤ t.loose o) (hinner : ∀ o, 0 ≤ t.inner o) : Inv t where
  counts o := by
    rw [ht,hcount]
    exact h.counts o
  loose := hloose
  inner := hinner

theorem inv_construct (h : Inv s) (hk : s.values k = none) : Inv (s.put k (some none)) := by
  refine h.put k (some none) rfl (fun o => ?_) h.loose h.inner
  rw [held_of_none hk]
  simp [Sys.put]

theorem inv_take {v : JsRef} (h : Inv s) (hk : s.values k = none)
    (hv : ∀ o, v = some o → 0 < s.loose o) : Inv (s.take k v) := by
  refine h.put k (some (some v)) rfl (fun o => ?_) (fun o => ?_) h.inner
  · rw [held_of_none hk]
    simp only [Sys.take,Sys.put,Sys.bind,Option.join_some,one_none]
    omega
  · have hle := one_le hv h.loose o
    simp only [Sys.take,Sys.put,Sys.bind]
    omega

theorem inv_dup (h : Inv s) (hk : s.values k = none) (v : JsRef) : Inv (s.dup k v) := by
  refine h.put k (some (some v)) rfl (fun o => ?_) h.loose h.inner
  rw [held_of_none hk]
  simp only [Sys.dup,Sys.put,Sys.dupValue,Option.join_some,one_none]
  omega

theorem inv_copyFrom (h : Inv s) (hk : s.values k = none) (j : ℕ) : Inv (s.copyFrom k j) := by
  refine h.put k (s.values j) rfl (fun o => ?_) h.loose h.inner
  rw [held_of_none hk]
  simp only [Sys.copyFrom,Sys.put,Sys.dupValue,Sys.held,one_none]
  omega

theorem inv_moveFrom (h : Inv s) (hk : s.values k = none) (hne : k ≠ j) :
    Inv (s.moveFrom k j) := by
  have hj : (s.put k (s.values j)).held j = s.held j := by
    rw [held_put,Function.update_of_ne hne.symm]
  refine ⟨fun o => counts_put (counts_put (h.counts o) k (s.values j) rfl) j (some none) ?_,
    h.loose,h.inner⟩
  rw [hj,held_of_none hk,← Sys.held]
  simp only [Sys.moveFrom,Sys.put,Option.join_some,Option.join_none,one_none]
  omega

theorem inv_swap (h : Inv s) (k j : ℕ) : Inv (s.swap k j) := by
  have hj : (s.put k (s.values j)).held j = s.held j := by
    rw [held_put,Function.update_apply]
    split <;> rfl
  refine ⟨fun o => counts_put (counts_put (h.counts o) k (s.values j) rfl) j (s.values k) ?_,
    h.loose,h.inner⟩
  rw [hj,← Sys.held,← Sys.held]
  simp only [Sys.swap,Sys.put]
  omega

theorem inv_reset (h : Inv s) (k : ℕ) : Inv (s.reset k) := by
  refine h.put k (some none) rfl (fun o => ?_) h.loose h.inner
  simp only [Sys.reset,Sys.put,Sys.freeValue,Option.join_some,Option.join_none,one_none]
  omega

theorem inv_release (h : Inv s) (k : ℕ) : Inv (s.release k) := by
  refine h.put k (some none) rfl (fun o => ?_) (fun o => ?_) h.inner
  · simp only [Sys.release,Sys.put,Sys.loosen,Option.join_some,Option.join_none,one_none]
    omega
  · have hloose := h.loose o
    have hone := one_nonneg (s.held k) o
    simp only [Sys.release,Sys.put,Sys.loosen]
    omega

theorem held_reset (s : Sys) (k : ℕ) : (s.reset k).held k = none := by
  rw [Sys.reset,held_put,Function.update_self]
  rfl

theorem inv_destroy (h : Inv s) (k : ℕ) : Inv (s.destroy k) := by
  refine (inv_reset h k).put k none rfl (fun o => ?_) h.loose h.inner
  rw [held_reset]
  simp [Sys.destroy,Sys.put]

theorem inv_copyAssign {t : ℕ} (h : Inv s) (ht : s.values t = none) (k j : ℕ) :
    Inv (s.copyAssign k j t) :=
  inv_destroy (inv_swap (inv_copyFrom h ht j) k t) t

theorem inv_moveAssign {t : ℕ} (h : Inv s) (ht : s.values t = none) (hne : t ≠ j) (k : ℕ) :
    Inv (s.moveAssign k j t) :=
  inv_destroy (inv_swap (inv_moveFrom h ht hne) k t) t

theorem inv_setPropertyStr {v : JsRef} (h : Inv s) (hv : ∀ o, v = some o → 0 < s.loose o)
    (stored : Bool) : Inv (s.setPropertyStr v stored) := by
  have hle := one_le hv h.loose
  cases stored with
  | true =>
    refine h.same rfl (fun o => ?_) (fun o => ?_) fun o => ?_
    · simp only [Sys.setPropertyStr,if_true,Sys.keep,Sys.bind]
      omega
    · have := hle o
      simp only [Sys.setPropertyStr,if_true,Sys.keep,Sys.bind]
      omega
    · have hone := one_nonneg v o
      have hinner := h.inner o
      simp only [Sys.setPropertyStr,if_true,Sys.keep,Sys.bind]
      omega
  | false =>
    refine h.same rfl (fun o => ?_) (fun o => ?_) h.inner
    · simp only [Sys.setPropertyStr,Bool.false_eq_true,if_false,Sys.freeValue,Sys.bind]
      omega
    · have := hle o
      simp only [Sys.setPropertyStr,Bool.false_eq_true,if_false,Sys.freeValue,Sys.bind]
      omega

theorem inv_set (h : Inv s) (k : ℕ) (stored : Bool) : Inv (s.set k stored) := by
  refine inv_destroy (inv_setPropertyStr (inv_release h k) (fun o ho => ?_) stored) k
  have hloose := h.loose o
  simp only [Sys.release,Sys.put,Sys.loosen,one,ho,if_true]
  omega

theorem inv_bare (h : Inv s) {o : ℕ} (ho : 0 < s.loose o) :
    Inv ((s.bind (some o)).freeValue (some o)) :=
  inv_setPropertyStr h (fun _ hv => Option.some.inj hv ▸ ho) false

theorem inv_loosen (h : Inv s) (v : JsRef) : Inv ((s.dupValue v).loosen v) := by
  refine h.same rfl (fun o => ?_) (fun o => ?_) h.inner
  · simp only [Sys.dupValue,Sys.loosen]
    omega
  · exact Int.add_nonneg (h.loose o) (one_nonneg v o)

theorem inv_keep (h : Inv s) (v : JsRef) : Inv ((s.dupValue v).keep v) := by
  refine h.same rfl (fun o => ?_) h.loose fun o => ?_
  · simp only [Sys.dupValue,Sys.keep]
    omega
  · exact Int.add_nonneg (h.inner o) (one_nonneg v o)

theorem inv_drop {v : JsRef} (h : Inv s) (hv : ∀ o, v = some o → 0 < s.inner o) :
    Inv ((s.drop v).freeValue v) := by
  refine h.same rfl (fun o => ?_) h.loose fun o => ?_
  · simp only [Sys.drop,Sys.freeValue]
    omega
  · exact Int.sub_nonneg_of_le (one_le hv h.inner o)

theorem step_inv {a : Action} (h : Inv s) (ht : step s a = some t) : Inv t := by
  cases a <;> simp only [step,Option.ite_none_right_eq_some,Option.some.injEq] at ht
  case construct k => exact ht.2 ▸ inv_construct h ht.1
  case newObject =>
    subst ht
    exact (inv_loosen h (some s.made)).same rfl (fun _ => rfl) (inv_loosen h _).loose h.inner
  case take k v => exact ht.2 ▸ inv_take h ht.1.1 ht.1.2
  case dup k v => exact ht.2 ▸ inv_dup h ht.1.1 v
  case copy k j => exact ht.2 ▸ inv_copyFrom h ht.1.1 j
  case move k j =>
    have hne : k ≠ j := fun he => ht.1.2 (he ▸ ht.1.1)
    exact ht.2 ▸ inv_moveFrom h ht.1.1 hne
  case swap k j => exact ht.2 ▸ inv_swap h k j
  case copyAssign k j u => exact ht.2 ▸ inv_copyAssign h ht.1.2.2 k j
  case moveAssign k j u =>
    have hne : u ≠ j := fun he => ht.1.2.1 (he ▸ ht.1.2.2)
    exact ht.2 ▸ inv_moveAssign h ht.1.2.2 hne k
  case reset k => exact ht.2 ▸ inv_reset h k
  case release k => exact ht.2 ▸ inv_release h k
  case destroy k => exact ht.2 ▸ inv_destroy h k
  case setCopy k j u stored => exact ht.2 ▸ inv_set (inv_copyFrom h ht.1.2.2 j) u stored
  case setMove k j u stored =>
    have hne : u ≠ j := fun he => ht.1.2.1 (he ▸ ht.1.2.2)
    exact ht.2 ▸ inv_set (inv_moveFrom h ht.1.2.2 hne) u stored
  case get k v => exact ht.2 ▸ inv_dup h ht.1.1 v
  case dupBare o => exact ht.2 ▸ inv_loosen h (some o)
  case freeBare o => exact ht.2 ▸ inv_bare h ht.1
  case dupProperty o => exact ht.2 ▸ inv_keep h (some o)
  case freeProperty o => exact ht.2 ▸ inv_drop h fun _ hv => Option.some.inj hv ▸ ht.1

theorem run_inv {as : List Action} (h : Trace.run step {} as = some s) : Inv s :=
  Trace.run_keeps (fun _ _ _ => step_inv) inv_start h

theorem copyAssign_values {u : ℕ} (hu : s.values u = none) (hk : k ≠ u) (j : ℕ) :
    (s.copyAssign k j u).values = Function.update s.values k (s.values j) := by
  funext i
  simp only [Sys.copyAssign,Sys.destroy,Sys.reset,Sys.swap,Sys.copyFrom,Sys.put,Sys.freeValue,
    Sys.dupValue,Function.update_apply]
  rcases eq_or_ne i u with rfl | hi
  · simp [hk.symm,hu]
  · simp [hi]

theorem moveAssign_values {u : ℕ} (hu : s.values u = none) (hk : k ≠ u) (hj : j ≠ u) :
    (s.moveAssign k j u).values =
      Function.update (Function.update s.values j (some none)) k (s.values j) := by
  funext i
  simp only [Sys.moveAssign,Sys.destroy,Sys.reset,Sys.swap,Sys.moveFrom,Sys.put,Sys.freeValue,
    Function.update_apply]
  rcases eq_or_ne i u with rfl | hi
  · simp [hk.symm,hj.symm,hu]
  · simp [hi,hj.symm]

end

/-- In every run the engine has counted each object once for each `Value` that holds it, each bare
reference and each property: what is held is alive, and with nothing left it is freed. The
assignments, which swap with a copy of the argument, are those of plain references, also where
both sides are the same variable. -/
theorem value_refs {s : Sys} {as : List Action} (h : Trace.run step {} as = some s) :
    (∀ o, Tally.Counts (fun k => one (s.held k) o) (s.count o-s.loose o-s.inner o) ∧
      0 ≤ s.loose o ∧ 0 ≤ s.inner o) ∧
    (∀ k o, s.held k = some o → 0 < s.count o) ∧
    (∀ o, (∀ k, s.held k ≠ some o) → s.loose o = 0 → s.inner o = 0 → s.count o = 0) ∧
    (∀ k j u t, step s (.copyAssign k j u) = some t →
      t.values = Function.update s.values k (s.values j)) ∧
    ∀ k j u t, step s (.moveAssign k j u) = some t →
      t.values = Function.update (Function.update s.values j (some none)) k (s.values j) := by
  have hI := run_inv h
  refine ⟨fun o => ⟨hI.counts o,hI.loose o,hI.inner o⟩,fun k o hk => ?_,fun o hno hl hi => ?_,?_,?_⟩
  · have hpos := (hI.counts o).pos (fun i => one_nonneg (s.held i) o) (i := k) (by simp [one,hk])
    have hloose := hI.loose o
    have hinner := hI.inner o
    omega
  · have hzero := (hI.counts o).eq_zero fun k => if_neg (hno k)
    omega
  · intro k j u t ht
    simp only [step,Option.ite_none_right_eq_some,Option.some.injEq] at ht
    obtain ⟨⟨hk,-,hu⟩,rfl⟩ := ht
    exact copyAssign_values hu (fun he => hk (by rw [he,hu])) j
  · intro k j u t ht
    simp only [step,Option.ite_none_right_eq_some,Option.some.injEq] at ht
    obtain ⟨⟨hk,hj,hu⟩,rfl⟩ := ht
    exact moveAssign_values hu (fun he => hk (by rw [he,hu])) fun he => hj (by rw [he,hu])

/-- A variable is assigned to itself, and becomes a property of the object of another. -/
def assigned : List Action :=
  [.newObject,.take 0 (some 0),.copyAssign 0 0 9,.newObject,.take 1 (some 1),.moveAssign 1 1 9,
    .setCopy 1 0 9 true,.destroy 0]

theorem value_refs_sample : ∃ s, Trace.run step {} assigned = some s ∧ 0 < s.count 1 ∧
    s.count 0 = s.inner 0 := by
  obtain ⟨-,hheld,-⟩ := @value_refs _ assigned rfl
  exact ⟨_,rfl,hheld 1 1 rfl,rfl⟩

end Values
end AsioQuickjs
