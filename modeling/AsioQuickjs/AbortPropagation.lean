import AsioQuickjs.AbortSignal
import Mathlib.Algebra.GroupWithZero.Nat
import Mathlib.Data.Finset.Card
import Mathlib.Data.Option.Basic

/-! What an abort reaches: when every dispatch is over the followers of an aborted signal are
aborted for its reason and its listeners have been called once, unless an exception has gone
through a dispatch that was not at its end. -/
namespace AsioQuickjs
namespace AbortSignal

open Relation

variable {C R : Type}

/-- The steps with what they need, a constructor for each way through `advance`. -/
inductive Steps [DecidableEq C] (w : World C R) : Action C R → World C R → Prop
  | create (controlled : Bool) : Steps w (.create controlled)
      { w.set w.count { controlled } with count := w.count+1 }
  | follow {f p : ℕ} (hf : f < w.count) (hp : p < w.count)
      (hc : (w.signals f).controlled = false) (hnone : (w.signals f).parent = none) :
      Steps w (.follow f p) (w.follow f p)
  | add {s : ℕ} (c : C) (hs : s < w.count) :
      Steps w (.add s c) (w.set s ((w.signals s).addEventListener (.callback c)))
  | remove {s : ℕ} (c : C) (hs : s < w.count) :
      Steps w (.remove s c) (w.set s ((w.signals s).removeEventListener c))
  | setOnabort {s : ℕ} (c : Option C) (hs : s < w.count) :
      Steps w (.setOnabort s c) (w.set s { w.signals s with onabort := c })
  | abort {s : ℕ} (r : Option (Reason R)) (hs : s < w.count)
      (hc : (w.signals s).controlled = true) : Steps w (.abort s r) (w.signalAbort s r)
  | ret {k : List Frame} (hk : w.stack = .callback::k) : Steps w .ret { w with stack := k }
  | throw {k : List Frame} (hk : w.stack = .callback::k) : Steps w .throw {
      w with
      signals := fun s => if .dispatch s ∈ World.cut k then (w.signals s).finish else w.signals s
      stack := k.dropWhile (· ≠ .callback) }
  | slice {s : ℕ} {k : List Frame} (hk : w.stack = .dispatch s::k)
      (hs : (w.signals s).stage = .slicing) : Steps w .advance (w.set s (w.signals s).slice)
  | finish {s : ℕ} {k : List Frame} (hk : w.stack = .dispatch s::k)
      (hs : (w.signals s).stage = .looping []) :
      Steps w .advance { w.set s (w.signals s).finish with stack := k }
  | callback {s : ℕ} {k : List Frame} {e : Entry C} {rest : List (Entry C)} {c : C}
      (hk : w.stack = .dispatch s::k) (hs : (w.signals s).stage = .looping (e::rest))
      (he : e.fn = .callback c) :
      Steps w .advance ((w.set s ((w.signals s).call e rest)).push [.callback])
  | cascade {s : ℕ} {k : List Frame} {e : Entry C} {rest : List (Entry C)} {f : ℕ}
      (hk : w.stack = .dispatch s::k) (hs : (w.signals s).stage = .looping (e::rest))
      (he : e.fn = .follow f) :
      Steps w .advance
        ((w.set s ((w.signals s).call e rest)).signalAbort f (w.signals s).reason)

theorem steps_of_step [DecidableEq C] {w w' : World C R} {a : Action C R}
    (h : step w a = some w') : Steps w a w' := by
  cases a with
  | create controlled =>
    simp only [step,Option.ite_none_right_eq_some,Option.some.injEq] at h
    obtain ⟨-,rfl⟩ := h
    exact .create controlled
  | follow f p =>
    simp only [step,Option.ite_none_right_eq_some,Option.some.injEq] at h
    obtain ⟨⟨-,hf,hp,hc,hnone⟩,rfl⟩ := h
    exact .follow hf hp hc hnone
  | add s c =>
    simp only [step,Option.ite_none_right_eq_some,Option.some.injEq] at h
    obtain ⟨⟨-,hs⟩,rfl⟩ := h
    exact .add c hs
  | remove s c =>
    simp only [step,Option.ite_none_right_eq_some,Option.some.injEq] at h
    obtain ⟨⟨-,hs⟩,rfl⟩ := h
    exact .remove c hs
  | setOnabort s c =>
    simp only [step,Option.ite_none_right_eq_some,Option.some.injEq] at h
    obtain ⟨⟨-,hs⟩,rfl⟩ := h
    exact .setOnabort c hs
  | abort s r =>
    simp only [step,Option.ite_none_right_eq_some,Option.some.injEq] at h
    obtain ⟨⟨-,hs,hc⟩,rfl⟩ := h
    exact .abort r hs hc
  | ret =>
    simp only [step] at h
    split at h
    · next k hk =>
      obtain rfl := Option.some.inj h
      exact .ret hk
    · cases h
  | throw =>
    simp only [step] at h
    split at h
    · next k hk =>
      obtain rfl := Option.some.inj h
      exact .throw hk
    · cases h
  | advance =>
    simp only [step,World.advance] at h
    split at h
    · next s k hk =>
      split at h
      · next hs =>
        obtain rfl := Option.some.inj h
        exact .slice hk hs
      · next hs =>
        obtain rfl := Option.some.inj h
        exact .finish hk hs
      · next e rest hs =>
        split at h
        · next c he =>
          obtain rfl := Option.some.inj h
          exact .callback hk hs he
        · next f he =>
          obtain rfl := Option.some.inj h
          exact .cascade hk hs he
      · cases h
      · cases h
    · cases h

/-- The exception of the step goes through the dispatch of `s`. -/
def World.throwsThrough (w : World C R) (a : Action C R) (s : ℕ) : Prop :=
  a = .throw ∧ .dispatch s ∈ World.cut w.stack.tail

def Action.removes (a : Action C R) (s : ℕ) (c : C) : Prop := a = .remove s c

/-- The signals and the stack fit: the dispatches that are under way are on the stack, once. -/
structure World.Ok (w : World C R) : Prop where
  signals : ∀ j, (w.signals j).Ok
  stack : ∀ j, .dispatch j ∈ w.stack ↔ (w.signals j).inDispatch = true
  nodup : (w.stack.filter (· ≠ .callback)).Nodup
  there : ∀ j, w.count ≤ j → w.signals j = {}

namespace World

@[simp] theorem set_signals (w : World C R) (s : ℕ) (σ : Signal C R) :
    (w.set s σ).signals = Function.update w.signals s σ := rfl

@[simp] theorem set_stack (w : World C R) (s : ℕ) (σ : Signal C R) :
    (w.set s σ).stack = w.stack := rfl

@[simp] theorem push_stack (w : World C R) (fs : List Frame) :
    (w.push fs).stack = fs++w.stack := rfl

@[simp] theorem push_signals (w : World C R) (fs : List Frame) :
    (w.push fs).signals = w.signals := rfl

theorem set_moves (w : World C R) {s : ℕ} {σ : Signal C R} (h : Signal.Move s (w.signals s) σ)
    (j : ℕ) : ReflTransGen (Signal.Move j) (w.signals j) ((w.set s σ).signals j) := by
  by_cases hj : j = s
  · subst hj
    simpa using ReflTransGen.single h
  · simpa [hj] using ReflTransGen.refl

theorem signalAbort_moves (w : World C R) (s : ℕ) (r : Option (Reason R)) (j : ℕ) :
    ReflTransGen (Signal.Move j) (w.signals j) ((w.signalAbort s r).signals j) := by
  unfold signalAbort
  split
  · exact .refl
  · next hu => exact set_moves w (.signalAbort _ r (Bool.eq_false_iff.mpr hu)) j

theorem follow_moves (w : World C R) (f p j : ℕ) :
    ReflTransGen (Signal.Move j) (w.signals j) ((w.follow f p).signals j) := by
  have hadopt := set_moves w (.adopt (w.signals f) p) (s := f) j
  unfold follow
  dsimp only
  split
  · exact hadopt.trans (signalAbort_moves _ f _ j)
  · exact hadopt.trans (set_moves _ (.add _ _) j)

end World

namespace World

variable {w : World C R}

theorem ok_set (h : w.Ok) {s : ℕ} {σ : Signal C R} (hs : s < w.count) (hσ : σ.Ok)
    (hd : σ.inDispatch = (w.signals s).inDispatch) : (w.set s σ).Ok := by
  refine ⟨fun j => ?_,fun j => ?_,h.nodup,fun j hj => ?_⟩
  · by_cases hj : j = s
    · subst hj
      simpa using hσ
    · simpa [hj] using h.signals j
  · by_cases hj : j = s
    · subst hj
      simpa [hd] using h.stack j
    · simpa [hj] using h.stack j
  · have hne : j ≠ s := Nat.ne_of_gt (Nat.lt_of_lt_of_le hs hj)
    simpa [hne] using h.there j hj

theorem ok_pushCallback (h : w.Ok) : (w.push [.callback]).Ok :=
  ⟨h.signals,fun j => by simpa using h.stack j,by simpa using h.nodup,h.there⟩

theorem ok_signalAbort (h : w.Ok) {s : ℕ} (hs : s < w.count) (r : Option (Reason R)) :
    (w.signalAbort s r).Ok := by
  unfold signalAbort
  split
  · exact h
  · next hu =>
    have hunaborted := Bool.eq_false_iff.mpr hu
    have hidle := (h.signals s).idle.mp hunaborted
    have hnot : .dispatch s ∉ w.stack := by
      rw [h.stack s]
      simp [Signal.inDispatch,hidle]
    have hfresh : (Frame.dispatch s::w.stack.filter (· ≠ .callback)).Nodup :=
      List.nodup_cons.mpr ⟨fun hmem => hnot (List.mem_of_mem_filter hmem),h.nodup⟩
    refine ⟨fun j => ?_,fun j => ?_,?_,fun j hj => ?_⟩
    · by_cases hj : j = s
      · subst hj
        simpa using Signal.ok_signalAbort (h.signals j) hunaborted j r
      · simpa [hj] using h.signals j
    · by_cases hj : j = s
      · subst hj
        split <;> simp [Signal.inDispatch,Signal.signalAbort]
      · have hstack := h.stack j
        split <;> simpa [hj] using hstack
    · split <;> simpa using hfresh
    · have hne : j ≠ s := Nat.ne_of_gt (Nat.lt_of_lt_of_le hs hj)
      simpa [hne] using h.there j hj

theorem Ok.lt_of_parent (h : w.Ok) {f p : ℕ} (hp : (w.signals f).parent = some p) :
    f < w.count := by
  by_contra hge
  rw [h.there f (Nat.not_lt.mp hge)] at hp
  cases hp

theorem Ok.lt_of_mem (h : w.Ok) {s : ℕ} (hs : .dispatch s ∈ w.stack) : s < w.count := by
  by_contra hge
  have hd := (h.stack s).mp hs
  rw [h.there s (Nat.not_lt.mp hge)] at hd
  cases hd

theorem ok_pop (h : w.Ok) {s : ℕ} {k : List Frame} (hk : w.stack = .dispatch s::k) :
    ({ w.set s (w.signals s).finish with stack := k } : World C R).Ok := by
  have hmem : .dispatch s ∈ w.stack := by simp [hk]
  have hnodup := h.nodup
  rw [hk,List.filter_cons_of_pos (by simp),List.nodup_cons] at hnodup
  have hnot : .dispatch s ∉ k := fun hs => hnodup.1 (List.mem_filter.mpr ⟨hs,by simp⟩)
  refine ⟨fun j => ?_,fun j => ?_,hnodup.2,fun j hj => ?_⟩
  · by_cases hj : j = s
    · subst hj
      simpa using Signal.ok_finish (h.signals j) ((h.stack j).mp hmem)
    · simpa [hj] using h.signals j
  · by_cases hj : j = s
    · subst hj
      simpa [Signal.finish,Signal.inDispatch] using hnot
    · have hstack := h.stack j
      simpa [hk,hj] using hstack
  · have hne : j ≠ s := Nat.ne_of_gt (Nat.lt_of_lt_of_le (h.lt_of_mem hmem) hj)
    simpa [hne] using h.there j hj

theorem ok_throw (h : w.Ok) {k : List Frame} (hk : w.stack = .callback::k) :
    ({
      w with
      signals := fun s => if .dispatch s ∈ cut k then (w.signals s).finish else w.signals s
      stack := k.dropWhile (· ≠ .callback) } : World C R).Ok := by
  have hstack : ∀ j, .dispatch j ∈ k ↔ (w.signals j).inDispatch = true := by
    intro j
    simpa [hk] using h.stack j
  have hsplit : cut k++k.dropWhile (· ≠ .callback) = k := List.takeWhile_append_dropWhile
  have hnodup := h.nodup
  rw [hk,List.filter_cons_of_neg (by simp),← hsplit,List.filter_append] at hnodup
  refine ⟨fun j => ?_,fun j => ?_,hnodup.of_append_right,fun j hj => ?_⟩
  · dsimp only
    split
    · next hcut =>
      have hmem : .dispatch j ∈ k := (List.takeWhile_prefix _).subset hcut
      exact Signal.ok_finish (h.signals j) ((hstack j).mp hmem)
    · exact h.signals j
  · dsimp only
    split
    · next hcut =>
      refine iff_of_false (fun hdrop => ?_) (by simp [Signal.finish,Signal.inDispatch])
      have hmem : ∀ {l : List Frame}, .dispatch j ∈ l → .dispatch j ∈ l.filter (· ≠ .callback) :=
        fun hl => List.mem_filter.mpr ⟨hl,by simp⟩
      exact List.disjoint_of_nodup_append hnodup (hmem hcut) (hmem hdrop)
    · next hcut =>
      rw [← hstack j]
      conv_rhs => rw [← hsplit]
      simp [hcut]
  · dsimp only
    rw [h.there j hj]
    split
    · next hcut =>
      have hd := (hstack j).mp ((List.takeWhile_prefix _).subset hcut)
      rw [h.there j hj] at hd
      cases hd
    · rfl

end World

section steps

variable [DecidableEq C]

theorem step_change {w w' : World C R} {a : Action C R} (hw : w.Ok) (h : step w a = some w')
    (j : ℕ) : Signal.Change j (a.removes j) (w.throwsThrough a j) (w.signals j) (w'.signals j) := by
  cases steps_of_step h with
  | create controlled =>
    refine .moves (World.set_moves w ?_ j)
    rw [hw.there w.count (Nat.le_refl _)]
    exact .create controlled
  | follow => exact .moves (World.follow_moves w _ _ j)
  | add c => exact .moves (World.set_moves w (.add _ _) j)
  | @remove s c =>
    by_cases hj : j = s
    · subst hj
      rw [World.set_signals,Function.update_self]
      exact .remove c rfl
    · simpa [hj] using Signal.Change.moves .refl
  | setOnabort c => exact .moves (World.set_moves w (.handler _ c) j)
  | abort r => exact .moves (World.signalAbort_moves w _ r j)
  | ret => exact .moves .refl
  | throw hk =>
    dsimp only
    split
    · next hcut =>
      have hmem : .dispatch j ∈ w.stack := by
        rw [hk]
        exact List.mem_cons_of_mem _ ((List.takeWhile_prefix _).subset hcut)
      exact .cut ⟨rfl,by rwa [hk,List.tail_cons]⟩ ((hw.stack j).mp hmem)
    · exact .moves .refl
  | slice hk hs => exact .moves (World.set_moves w (.slice _ hs) j)
  | finish hk hs => exact .moves (World.set_moves w (.finish _ hs) j)
  | callback hk hs he => exact .moves (World.set_moves w (.call _ hs) j)
  | cascade hk hs he =>
    exact .moves ((World.set_moves w (.call _ hs) j).trans (World.signalAbort_moves _ _ _ j))

theorem World.ok_step {w w' : World C R} {a : Action C R} (hw : w.Ok)
    (hlinked : ∀ p f, ∀ e ∈ (w.signals p).left, e.fn = .follow f → f < w.count)
    (h : step w a = some w') : w'.Ok := by
  cases steps_of_step h with
  | create controlled =>
    have hnew := hw.there w.count (Nat.le_refl _)
    refine ⟨fun j => ?_,fun j => ?_,hw.nodup,fun j hj => ?_⟩
    · by_cases hj : j = w.count
      · subst hj
        simpa using Signal.ok_new controlled
      · simpa [hj] using hw.signals j
    · have hstack := hw.stack j
      by_cases hj : j = w.count
      · subst hj
        rw [hnew] at hstack
        simpa [Signal.inDispatch] using hstack
      · simpa [hj] using hstack
    · have hne : j ≠ w.count := Nat.ne_of_gt hj
      simpa [hne] using hw.there j (Nat.le_of_succ_le hj)
  | @follow f p hf hp =>
    have hadopt : (w.set f { w.signals f with parent := some p }).Ok :=
      ok_set hw hf ((Signal.Move.adopt (s := f) (w.signals f) p).ok (hw.signals f)) rfl
    unfold follow
    dsimp only
    split
    · exact ok_signalAbort hadopt hf _
    · exact ok_set hadopt hp (Signal.ok_add (hadopt.signals p) _) rfl
  | add c hs => exact ok_set hw hs (Signal.ok_add (hw.signals _) _) rfl
  | remove c hs => exact ok_set hw hs (Signal.ok_remove (hw.signals _) c) rfl
  | @setOnabort s c hs =>
    exact ok_set hw hs ((Signal.Move.handler (s := s) (w.signals s) c).ok (hw.signals s)) rfl
  | abort r hs => exact ok_signalAbort hw hs r
  | ret hk =>
    exact ⟨hw.signals,fun j => by simpa [hk] using hw.stack j,by simpa [hk] using hw.nodup,hw.there⟩
  | throw hk => exact ok_throw hw hk
  | slice hk hs =>
    exact ok_set hw (hw.lt_of_mem (by simp [hk])) (Signal.ok_slice (hw.signals _) hs) (by
      simp [Signal.slice,Signal.inDispatch,hs])
  | finish hk => exact ok_pop hw hk
  | callback hk hs =>
    refine ok_pushCallback (ok_set hw (hw.lt_of_mem (by simp [hk]))
      (Signal.ok_call (hw.signals _) hs) ?_)
    simp [Signal.call,Signal.inDispatch,hs]
  | @cascade s k e rest f hk hs he =>
    have hcall : (w.set s ((w.signals s).call e rest)).Ok :=
      ok_set hw (hw.lt_of_mem (by simp [hk])) (Signal.ok_call (hw.signals s) hs) (by
        simp [Signal.call,Signal.inDispatch,hs])
    exact ok_signalAbort hcall (hlinked s f e (by simp [Signal.left,hs]) he) _

end steps

namespace Signal

def listed (σ : Signal C R) : List (Entry C) := σ.listeners++σ.left++σ.atAbort++σ.called

/-- A change in which no follower comes or goes. -/
structure Quiet (σ τ : Signal C R) : Prop where
  aborted : τ.aborted = σ.aborted
  reason : τ.reason = σ.reason
  parent : τ.parent = σ.parent
  controlled : τ.controlled = σ.controlled ∨ τ.parent = none ∧ τ.aborted = false
  atAbort : τ.atAbort = σ.atAbort
  listeners : ∀ e f, e.fn = .follow f → (e ∈ τ.listeners ↔ e ∈ σ.listeners)
  listed : ∀ e f, e.fn = .follow f → e ∈ τ.listed → e ∈ σ.listed
  early : ∀ e f, e.fn = .follow f → e ∈ τ.early → e ∈ σ.early

variable {σ : Signal C R}

theorem Quiet.refl : Quiet σ σ :=
  ⟨rfl,rfl,rfl,.inl rfl,rfl,fun _ _ _ => Iff.rfl,fun _ _ _ h => h,fun _ _ _ h => h⟩

theorem quiet_handler (c : Option C) : Quiet σ { σ with onabort := c } :=
  ⟨rfl,rfl,rfl,.inl rfl,rfl,fun _ _ _ => Iff.rfl,fun _ _ _ h => h,fun _ _ _ h => h⟩

theorem quiet_new (controlled : Bool) : Quiet ({} : Signal C R) { controlled } :=
  { (Quiet.refl : Quiet ({} : Signal C R) {}) with controlled := .inr ⟨rfl,rfl⟩ }

theorem quiet_add (c : C) : Quiet σ (σ.addEventListener (.callback c)) := by
  have hmem : ∀ e f, e.fn = .follow f →
      (e ∈ (σ.addEventListener (.callback c)).listeners ↔ e ∈ σ.listeners) := by
    intro e f hf
    simp only [addEventListener,List.mem_append,List.mem_singleton,or_iff_left_iff_imp]
    rintro rfl
    cases hf
  refine ⟨rfl,rfl,rfl,.inl rfl,rfl,hmem,fun e f hf => ?_,fun _ _ _ h => h⟩
  have hlisteners := hmem e f hf
  cases hs : σ.stage <;>
    simp only [Signal.listed,left,hs,List.mem_append,addEventListener] at hlisteners ⊢ <;>
    tauto

theorem quiet_remove [DecidableEq C] (c : C) : Quiet σ (σ.removeEventListener c) := by
  have hmem : ∀ e f, e.fn = .follow f →
      (e ∈ (σ.removeEventListener c).listeners ↔ e ∈ σ.listeners) := by
    intro e f hf
    simp [removeEventListener,hf]
  refine ⟨rfl,rfl,rfl,.inl rfl,rfl,hmem,fun e f hf => ?_,fun e f hf he => ?_⟩
  · have hlisteners := hmem e f hf
    cases hs : σ.stage <;>
      simp only [Signal.listed,left,hs,List.mem_append,removeEventListener] at hlisteners ⊢ <;>
      tauto
  · simp only [removeEventListener] at he
    split at he
    · simpa [hf] using he
    · exact he

theorem quiet_slice (h : σ.stage = .slicing) : Quiet σ σ.slice := by
  refine { (Quiet.refl : Quiet σ σ) with listed := fun e f hf => ?_ }
  simp only [Signal.listed,left,slice,h,List.mem_append]
  tauto

theorem quiet_call {e : Entry C} {rest : List (Entry C)} (h : σ.stage = .looping (e::rest)) :
    Quiet σ (σ.call e rest) := by
  refine { (Quiet.refl : Quiet σ σ) with listed := fun x f hf => ?_ }
  simp only [Signal.listed,left,call,h,List.mem_append,List.mem_cons,List.not_mem_nil,or_false]
  tauto

theorem quiet_finish : Quiet σ σ.finish := by
  refine { (Quiet.refl : Quiet σ σ) with listed := fun e f hf => ?_ }
  simp only [Signal.listed,finish,left,List.mem_append,List.not_mem_nil,or_false]
  tauto

end Signal

/-- The listeners that follow. Each stands on the signal that its own follows, from the
beginning until it is called, and a follower is aborted by the signal it follows only. -/
structure Links (S : ℕ → Signal C R) : Prop where
  entries : ∀ p e f, e ∈ (S p).listed → e.fn = .follow f → (S f).parent = some p
  early : ∀ p e f, e.fn = .follow f → e ∉ (S p).early
  link : ∀ f p, (S f).parent = some p → (S f).aborted = false → ∃ e, e.fn = .follow f ∧
    ((S p).aborted = false → e ∈ (S p).listeners) ∧ ((S p).aborted = true → e ∈ (S p).atAbort)
  reason : ∀ f p, (S f).parent = some p → (S f).aborted = true →
    (S p).aborted = true ∧ (S f).reason = (S p).reason
  given : ∀ f, (S f).aborted = true → (S f).reason ≠ none
  roots : ∀ f, ((S f).controlled = true → (S f).parent = none) ∧
    ((S f).controlled = false → (S f).parent = none → (S f).aborted = false)

theorem links_quiet {S S' : ℕ → Signal C R} (h : Links S)
    (hq : ∀ j, Signal.Quiet (S j) (S' j)) : Links S' := by
  refine ⟨fun p e f he hf => ?_,fun p e f hf he => ?_,fun f p hp hf => ?_,fun f p hp hf => ?_,
    fun f hf => ?_,fun f => ?_⟩
  · rw [(hq f).parent]
    exact h.entries p e f ((hq p).listed e f hf he) hf
  · exact h.early p e f hf ((hq p).early e f hf he)
  · rw [(hq f).parent] at hp
    rw [(hq f).aborted] at hf
    obtain ⟨e,hfn,hlisteners,hat⟩ := h.link f p hp hf
    rw [(hq p).aborted,(hq p).atAbort]
    exact ⟨e,hfn,fun hu => ((hq p).listeners e f hfn).mpr (hlisteners hu),hat⟩
  · rw [(hq f).parent] at hp
    rw [(hq f).aborted] at hf
    rw [(hq p).aborted,(hq f).reason,(hq p).reason]
    exact h.reason f p hp hf
  · rw [(hq f).aborted] at hf
    rw [(hq f).reason]
    exact h.given f hf
  · rcases (hq f).controlled with hc | ⟨hparent,haborted⟩
    · rw [hc,(hq f).parent,(hq f).aborted]
      exact h.roots f
    · exact ⟨fun _ => hparent,fun _ _ => haborted⟩

theorem links_set {w : World C R} (h : Links w.signals) {s : ℕ} {σ : Signal C R}
    (hq : Signal.Quiet (w.signals s) σ) : Links (w.set s σ).signals := by
  refine links_quiet h fun j => ?_
  by_cases hj : j = s
  · subst hj
    simpa using hq
  · simpa [hj] using Signal.Quiet.refl

/-- A signal aborts: one that a controller aborts, or one that follows `p`, for the reason of
`p`. -/
theorem links_signalAbort {S : ℕ → Signal C R} (h : Links S) {f : ℕ} (hf : (S f).aborted = false)
    {r : Option (Reason R)} {P : Option ℕ}
    (hP : P = (S f).parent ∧ (S f).controlled = true ∨
      ∃ p, P = some p ∧ (P = (S f).parent ∨ (S f).parent = none) ∧ (S f).controlled = false ∧
        (S p).aborted = true ∧ r = (S p).reason) :
    Links (Function.update S f { (S f).signalAbort f r with parent := P }) := by
  have hself : Function.update S f { (S f).signalAbort f r with parent := P } f =
      { (S f).signalAbort f r with parent := P } := Function.update_self ..
  have hother : ∀ {j}, j ≠ f →
      Function.update S f { (S f).signalAbort f r with parent := P } j = S j :=
    fun hj => Function.update_of_ne hj _ _
  generalize Function.update S f { (S f).signalAbort f r with parent := P } = S' at hself hother
  have hne : ∀ {p}, (S p).aborted = true → p ≠ f := by
    rintro p hp rfl
    rw [hf] at hp
    cases hp
  have hlisted : ∀ p e, e ∈ (S' p).listed → e ∈ (S p).listed := by
    intro p e he
    by_cases hp : p = f
    · subst hp
      rw [hself] at he
      simp only [Signal.listed,Signal.left,Signal.signalAbort,List.mem_append] at he ⊢
      tauto
    · rwa [hother hp] at he
  refine ⟨fun p e g he hg => ?_,fun p e g hg he => ?_,fun g p hp hg => ?_,fun g p hp hg => ?_,
    fun g hg => ?_,fun g => ?_⟩
  · have hold := h.entries p e g (hlisted p e he) hg
    by_cases hgf : g = f
    · subst hgf
      rw [hself]
      rcases hP with ⟨hP,-⟩ | ⟨q,-,hP | hP,-⟩
      · exact hP.trans hold
      · exact hP.trans hold
      · rw [hP] at hold
        cases hold
    · rwa [hother hgf]
  · by_cases hpf : p = f
    · subst hpf
      rw [hself] at he
      exact h.early p e g hg he
    · rw [hother hpf] at he
      exact h.early p e g hg he
  · have hgf : g ≠ f := by
      rintro rfl
      rw [hself] at hg
      cases hg
    rw [hother hgf] at hp hg
    obtain ⟨e,he,hlisteners,hat⟩ := h.link g p hp hg
    refine ⟨e,he,?_⟩
    by_cases hpf : p = f
    · subst hpf
      rw [hself]
      exact ⟨(fun hu => by cases hu),fun _ => hlisteners hf⟩
    · rw [hother hpf]
      exact ⟨hlisteners,hat⟩
  · by_cases hgf : g = f
    · subst hgf
      rw [hself] at hp ⊢
      have hp : P = some p := hp
      rcases hP with ⟨hP,hc⟩ | ⟨q,hP,-,-,hq,hr⟩
      · rw [hP,(h.roots g).1 hc] at hp
        cases hp
      · obtain rfl : q = p := Option.some.inj (hP.symm.trans hp)
        obtain ⟨x,hx⟩ := Option.ne_none_iff_exists'.mp (h.given q hq)
        rw [hother (hne hq)]
        refine ⟨hq,?_⟩
        simp [Signal.signalAbort,hr,hx]
    · rw [hother hgf] at hp hg ⊢
      obtain ⟨hpa,hreason⟩ := h.reason g p hp hg
      rw [hother (hne hpa)]
      exact ⟨hpa,hreason⟩
  · by_cases hgf : g = f
    · subst hgf
      rw [hself]
      simp [Signal.signalAbort]
    · rw [hother hgf] at hg ⊢
      exact h.given g hg
  · by_cases hgf : g = f
    · subst hgf
      rw [hself]
      have hroots := (h.roots g).1
      rcases hP with ⟨hP,hc⟩ | ⟨q,hP,-,hc,-⟩
      · exact ⟨fun _ => hP.trans (hroots hc),fun hu => absurd (hc.symm.trans hu) (by decide)⟩
      · exact ⟨fun hu => absurd (hc.symm.trans hu) (by decide),fun _ hn => by cases hP.symm.trans hn⟩
    · rw [hother hgf]
      exact h.roots g

theorem links_adopt {w : World C R} (hw : w.Ok) (h : Links w.signals) {f p : ℕ}
    (hc : (w.signals f).controlled = false) (hnone : (w.signals f).parent = none)
    (hp : (w.signals p).aborted = false) : Links (w.follow f p).signals := by
  have hidle := (hw.signals p).idle.mp hp
  have hf : (w.signals f).aborted = false := (h.roots f).2 hc hnone
  have hview : ∀ j, (w.follow f p).signals j =
      { w.signals j with
        parent := if j = f then some p else (w.signals j).parent
        listeners := if j = p then (w.signals j).listeners++[⟨(w.signals j).next,.follow f⟩]
          else (w.signals j).listeners
        next := if j = p then (w.signals j).next+1 else (w.signals j).next } := by
    intro j
    by_cases hjp : j = p <;> by_cases hjf : j = f
    · subst hjp
      subst hjf
      simp [World.follow,hp,Signal.addEventListener]
    · subst hjp
      simp [World.follow,hp,Signal.addEventListener,hjf]
    · subst hjf
      simp [World.follow,hp,hjp]
    · simp [World.follow,hp,hjp,hjf]
  generalize (w.follow f p).signals = S at hview
  have haborted : ∀ j, (S j).aborted = (w.signals j).aborted := fun j => by rw [hview]
  have hlisteners : ∀ j e, e ∈ (w.signals j).listeners → e ∈ (S j).listeners := by
    intro j e he
    rw [hview]
    dsimp only
    split
    · exact List.mem_append_left _ he
    · exact he
  have hlisted : ∀ j e, e ∈ (S j).listed → e ∈ (w.signals j).listed ∨
      j = p ∧ e.fn = .follow f := by
    intro j e he
    by_cases hjp : j = p
    · subst hjp
      simp only [hview,Signal.listed,Signal.left,hidle,if_true,List.mem_append,
        List.mem_singleton] at he ⊢
      rcases he with (((he | rfl) | he) | he) | he
      · tauto
      · exact .inr ⟨trivial,rfl⟩
      all_goals tauto
    · left
      simpa [hview,Signal.listed,Signal.left,hjp] using he
  refine ⟨fun q e g he hg => ?_,fun q e g hg he => ?_,fun g q hq hg => ?_,fun g q hq hg => ?_,
    fun g hg => ?_,fun g => ?_⟩
  · rcases hlisted q e he with hold | ⟨rfl,hfn⟩
    · have hparent := h.entries q e g hold hg
      have hgf : g ≠ f := by
        rintro rfl
        rw [hnone] at hparent
        cases hparent
      simpa [hview,hgf] using hparent
    · obtain rfl : f = g := by simpa [hfn] using hg
      simp [hview]
  · rw [hview] at he
    exact h.early q e g hg he
  · rw [haborted] at hg ⊢
    by_cases hgf : g = f
    · subst hgf
      obtain rfl : p = q := by simpa [hview] using hq
      exact ⟨⟨(w.signals p).next,.follow g⟩,rfl,fun _ => by simp [hview],fun hu => by simp [hp] at hu⟩
    · obtain ⟨e,he,hl,hat⟩ := h.link g q (by simpa [hview,hgf] using hq) hg
      refine ⟨e,he,fun hu => hlisteners q e (hl hu),fun hu => ?_⟩
      rw [hview]
      exact hat hu
  · rw [haborted] at hg ⊢
    have hgf : g ≠ f := by
      rintro rfl
      rw [hf] at hg
      cases hg
    have hold := h.reason g q (by simpa [hview,hgf] using hq) hg
    simpa [hview] using hold
  · rw [haborted] at hg
    simpa [hview] using h.given g hg
  · by_cases hgf : g = f
    · subst hgf
      simp [hview,hc]
    · simpa [hview,hgf] using h.roots g

/-- The signals that the called listeners abort are aborted. -/
def Heard (S : ℕ → Signal C R) : Prop :=
  ∀ p e f, e ∈ (S p).called → e.fn = .follow f → (S f).aborted = true

/-- What holds of every world that a script gets to. -/
structure World.Inv (w : World C R) : Prop where
  ok : w.Ok
  links : Links w.signals
  heard : Heard w.signals

theorem links_abort {w : World C R} (h : Links w.signals) {s : ℕ} {r : Option (Reason R)}
    (hwhy : (w.signals s).controlled = true ∨ ∃ p, (w.signals s).parent = some p ∧
      (w.signals p).aborted = true ∧ r = (w.signals p).reason) :
    Links (w.signalAbort s r).signals := by
  unfold World.signalAbort
  split
  · exact h
  · next hu =>
    have hP := links_signalAbort h (Bool.eq_false_iff.mpr hu) (r := r) (P := (w.signals s).parent)
    refine hP ?_
    rcases hwhy with hc | ⟨p,hp,hpa,hr⟩
    · exact .inl ⟨rfl,hc⟩
    · have hc : (w.signals s).controlled = false := by
        by_contra hc
        rw [(h.roots s).1 (Bool.not_eq_false _ ▸ hc)] at hp
        cases hp
      exact .inr ⟨p,hp,.inl rfl,hc,hpa,hr⟩

theorem links_follow {w : World C R} (hw : w.Ok) (h : Links w.signals) {f p : ℕ}
    (hc : (w.signals f).controlled = false) (hnone : (w.signals f).parent = none) :
    Links (w.follow f p).signals := by
  cases hp : (w.signals p).aborted with
  | false => exact links_adopt hw h hc hnone hp
  | true =>
    have hf : (w.signals f).aborted = false := (h.roots f).2 hc hnone
    have hlinks := links_signalAbort h hf (P := some p) (.inr ⟨p,rfl,.inr hnone,hc,hp,rfl⟩)
    have hsame : (w.follow f p).signals = Function.update w.signals f
        { (w.signals f).signalAbort f (w.signals p).reason with parent := some p } := by
      simp [World.follow,hp,World.signalAbort,hf,Signal.signalAbort]
    rwa [hsame]

theorem aborted_of_stage {σ : Signal C R} (h : σ.Ok) (hs : σ.stage ≠ .idle) :
    σ.aborted = true := by
  rw [← Bool.not_eq_false]
  exact fun hu => hs (h.idle.mp hu)

namespace World

theorem called_set {w : World C R} {s : ℕ} {σ : Signal C R}
    (hσ : σ.called = (w.signals s).called) (j : ℕ) :
    ((w.set s σ).signals j).called = (w.signals j).called := by
  by_cases hj : j = s
  · subst hj
    simpa using hσ
  · simp [hj]

theorem called_signalAbort (w : World C R) (s : ℕ) (r : Option (Reason R)) (j : ℕ) :
    ((w.signalAbort s r).signals j).called = (w.signals j).called := by
  have hset : ((w.set s ((w.signals s).signalAbort s r)).signals j).called =
      (w.signals j).called := called_set (by rfl) j
  unfold signalAbort
  split
  · rfl
  · exact hset

theorem called_follow (w : World C R) (f p j : ℕ) :
    ((w.follow f p).signals j).called = (w.signals j).called := by
  have hadopt : ((w.set f { w.signals f with parent := some p }).signals j).called =
      (w.signals j).called := called_set (by rfl) j
  have hadd : ∀ v : World C R, ((v.set p ((v.signals p).addEventListener (.follow f))).signals
      j).called = (v.signals j).called := fun v => called_set (by rfl) j
  unfold follow
  dsimp only
  split
  · exact (called_signalAbort _ f _ j).trans hadopt
  · exact (hadd _).trans hadopt

theorem signalAbort_aborted (w : World C R) (s : ℕ) (r : Option (Reason R)) :
    ((w.signalAbort s r).signals s).aborted = true := by
  unfold signalAbort
  split
  · next h => exact h
  · simp [Signal.signalAbort]

end World

namespace Signal

theorem Move.aborted {σ τ : Signal C R} {s : ℕ} (hm : Move s σ τ) (h : σ.aborted = true) :
    τ.aborted = true := by
  cases hm with
  | create controlled => cases h
  | signalAbort _ r hu => rfl
  | _ => exact h

theorem Change.aborted [DecidableEq C] {σ τ : Signal C R} {s : ℕ} {removes : C → Prop}
    {throws : Prop} (hc : Change s removes throws σ τ) (hσ : σ.Ok) (h : σ.aborted = true) :
    τ.aborted = true := by
  cases hc with
  | moves hm =>
    exact (moves_keep (P := fun σ => σ.aborted = true) (fun _ _ hm _ h => hm.aborted h) hm hσ h).2
  | remove c _ => exact h
  | cut _ _ => exact h

end Signal

section steps

variable [DecidableEq C]

theorem called_step {w w' : World C R} {a : Action C R} (hw : w.Ok) (h : step w a = some w') :
    (∀ j, (w'.signals j).called = (w.signals j).called) ∨
      ∃ s e, (∀ j, (w'.signals j).called =
          if j = s then (w.signals j).called++[e] else (w.signals j).called) ∧
        ∀ f, e.fn = .follow f → (w'.signals f).aborted = true := by
  have hcalled : ∀ s e rest, ∀ j, ((w.set s ((w.signals s).call e rest)).signals j).called =
      if j = s then (w.signals j).called++[e] else (w.signals j).called := by
    intro s e rest j
    by_cases hj : j = s
    · subst hj
      simp [Signal.call]
    · simp [hj]
  cases steps_of_step h with
  | create controlled =>
    refine .inl (World.called_set ?_)
    rw [hw.there w.count (Nat.le_refl _)]
  | follow => exact .inl (World.called_follow w _ _)
  | add | remove | setOnabort | slice | finish => exact .inl (World.called_set rfl)
  | abort r => exact .inl (World.called_signalAbort w _ r)
  | ret => exact .inl fun _ => rfl
  | throw =>
    refine .inl fun j => ?_
    dsimp only
    split <;> rfl
  | @callback s k e rest c hk hs he =>
    exact .inr ⟨s,e,hcalled s e rest,fun f hf => by cases he.symm.trans hf⟩
  | @cascade s k e rest f hk hs he =>
    refine .inr ⟨s,e,fun j => ?_,fun g hg => ?_⟩
    · exact (World.called_signalAbort _ f _ j).trans (hcalled s e rest j)
    · obtain rfl : f = g := by simpa [he] using hg
      exact World.signalAbort_aborted _ f _

theorem links_step {w w' : World C R} {a : Action C R} (hw : w.Inv) (h : step w a = some w') :
    Links w'.signals := by
  have hlinks := hw.links
  cases steps_of_step h with
  | create controlled =>
    refine links_set hlinks ?_
    rw [hw.ok.there w.count (Nat.le_refl _)]
    exact Signal.quiet_new controlled
  | follow hf hp hc hnone => exact links_follow hw.ok hlinks hc hnone
  | add c => exact links_set hlinks (Signal.quiet_add c)
  | remove c => exact links_set hlinks (Signal.quiet_remove c)
  | setOnabort c => exact links_set hlinks (Signal.quiet_handler c)
  | abort r hs hc => exact links_abort hlinks (.inl hc)
  | ret => exact hlinks
  | throw =>
    refine links_quiet hlinks fun j => ?_
    dsimp only
    split
    · exact Signal.quiet_finish
    · exact Signal.Quiet.refl
  | slice hk hs => exact links_set hlinks (Signal.quiet_slice hs)
  | finish => exact links_set hlinks Signal.quiet_finish
  | callback hk hs => exact links_set hlinks (Signal.quiet_call hs)
  | @cascade s k e rest f hk hs he =>
    have hcall := links_set hlinks (Signal.quiet_call hs)
    refine links_abort hcall (.inr ⟨s,hcall.entries s e f ?_ he,?_,?_⟩)
    · simp [Signal.listed,Signal.call]
    · simpa [Signal.call] using aborted_of_stage (hw.ok.signals s) (by simp [hs])
    · simp [Signal.call]

theorem heard_step {w w' : World C R} {a : Action C R} (hw : w.Inv) (h : step w a = some w') :
    Heard w'.signals := by
  have hstays : ∀ f, (w.signals f).aborted = true → (w'.signals f).aborted = true :=
    fun f hf => (step_change hw.ok h f).aborted (hw.ok.signals f) hf
  intro p e f he hf
  rcases called_step hw.ok h with hsame | ⟨s,x,hcalled,hx⟩
  · rw [hsame] at he
    exact hstays f (hw.heard p e f he hf)
  · rw [hcalled] at he
    split at he
    · rcases List.mem_append.mp he with he | he
      · exact hstays f (hw.heard p e f he hf)
      · obtain rfl := List.mem_singleton.mp he
        exact hx f hf
    · exact hstays f (hw.heard p e f he hf)

theorem inv_step (w : World C R) (a : Action C R) (w' : World C R) (hw : w.Inv)
    (h : step w a = some w') : w'.Inv := by
  refine ⟨World.ok_step hw.ok (fun p f e he hf => ?_) h,links_step hw h,heard_step hw h⟩
  exact hw.ok.lt_of_parent (hw.links.entries p e f (by simp [Signal.listed,he]) hf)

end steps

theorem inv_start : (start : World C R).Inv := by
  refine ⟨⟨fun _ => Signal.ok_new false,fun _ => ?_,List.nodup_nil,fun _ _ => rfl⟩,?_,?_⟩
  · simp [start,Signal.inDispatch]
  · refine ⟨fun p e f he => ?_,fun p e f _ he => ?_,fun f p hp => ?_,fun f p hp => ?_,fun f hf => ?_,
      fun f => ?_⟩
    · simp [start,Signal.listed,Signal.left] at he
    · cases he
    · cases hp
    · cases hp
    · cases hf
    · simp [start]
  · intro p e f he
    cases he

namespace World

def unaborted (w : World C R) : ℕ :=
  ((Finset.range w.count).filter fun j => (w.signals j).aborted = false).card

def weight (S : ℕ → Signal C R) : Frame → ℕ
  | .callback => 1
  | .dispatch s =>
    match (S s).stage with
    | .slicing => 2*(S s).listeners.length+2
    | .looping rest => 2*rest.length+1
    | .idle | .ended => 0

def work (w : World C R) : ℕ := (w.stack.map (weight w.signals)).sum

theorem weight_eq {S S' : ℕ → Signal C R} {k : List Frame}
    (h : ∀ j, .dispatch j ∈ k → S' j = S j) : k.map (weight S') = k.map (weight S) := by
  refine List.map_congr_left fun f hf => ?_
  cases f with
  | callback => rfl
  | dispatch j => simp [weight,h j hf]

theorem unaborted_lt {w w' : World C R} (hcount : w'.count = w.count) {f : ℕ} (hf : f < w.count)
    (hold : (w.signals f).aborted = false) (hnew : (w'.signals f).aborted = true)
    (hmono : ∀ j, (w.signals j).aborted = true → (w'.signals j).aborted = true) :
    w'.unaborted < w.unaborted := by
  refine Finset.card_lt_card ⟨fun j hj => ?_,fun hsub => ?_⟩
  · simp only [Finset.mem_filter,Finset.mem_range,hcount] at hj ⊢
    refine ⟨hj.1,?_⟩
    by_contra hja
    rw [hmono j (Bool.not_eq_false _ ▸ hja)] at hj
    cases hj.2
  · have hmem := hsub (Finset.mem_filter.mpr ⟨Finset.mem_range.mpr hf,hold⟩)
    rw [(Finset.mem_filter.mp hmem).2] at hnew
    cases hnew

end World

section steps

variable [DecidableEq C] {w : World C R}

theorem exists_progress (hw : w.Inv) (hne : w.stack ≠ []) : ∃ a w', (a = .ret ∨ a = .advance) ∧
    step w a = some w' ∧ (w'.unaborted < w.unaborted ∨
      w'.unaborted = w.unaborted ∧ w'.work < w.work) := by
  cases hk : w.stack with
  | nil => exact absurd hk hne
  | cons frame k =>
    cases frame with
    | callback =>
      refine ⟨.ret,{ w with stack := k },.inl rfl,by simp [step,hk],.inr ⟨rfl,?_⟩⟩
      simp [World.work,hk,World.weight]
    | dispatch s =>
      have hin := (hw.ok.stack s).mp (by simp [hk])
      have hnodup := hw.ok.nodup
      rw [hk,List.filter_cons_of_pos (by simp),List.nodup_cons] at hnodup
      have hbelow : ∀ j, .dispatch j ∈ k → j ≠ s := by
        rintro j hj rfl
        exact hnodup.1 (List.mem_filter.mpr ⟨hj,by simp⟩)
      have hunaborted : ∀ {σ : Signal C R} {l : List Frame},
          σ.aborted = (w.signals s).aborted →
          ({ w.set s σ with stack := l } : World C R).unaborted = w.unaborted := by
        intro σ l hσ
        refine congrArg Finset.card (Finset.filter_congr fun j _ => ?_)
        by_cases hj : j = s
        · subst hj
          simp [hσ]
        · simp [hj]
      have hweight : ∀ σ : Signal C R,
          k.map (World.weight (Function.update w.signals s σ)) = k.map (World.weight w.signals) :=
        fun σ => World.weight_eq fun j hj => Function.update_of_ne (hbelow j hj) _ _
      cases hs : (w.signals s).stage with
      | idle => simp [Signal.inDispatch,hs] at hin
      | ended => simp [Signal.inDispatch,hs] at hin
      | slicing =>
        refine ⟨.advance,w.set s (w.signals s).slice,.inr rfl,by simp [step,World.advance,hk,hs],
          .inr ⟨hunaborted rfl,?_⟩⟩
        simp [World.work,hk,hweight,World.weight,Signal.slice,hs]
      | looping rest =>
        cases rest with
        | nil =>
          refine ⟨.advance,{ w.set s (w.signals s).finish with stack := k },.inr rfl,
            by simp [step,World.advance,hk,hs],.inr ⟨hunaborted rfl,?_⟩⟩
          simp [World.work,hk,hweight,World.weight,hs]
        | cons e rest =>
          have hcall : (w.set s ((w.signals s).call e rest)).work+2 = w.work := by
            simp [World.work,hk,hweight,World.weight,Signal.call,hs]
            omega
          cases he : e.fn with
          | callback c =>
            refine ⟨.advance,(w.set s ((w.signals s).call e rest)).push [.callback],.inr rfl,
              by simp [step,World.advance,hk,hs,he],.inr ⟨hunaborted rfl,?_⟩⟩
            have hpush : ((w.set s ((w.signals s).call e rest)).push [.callback]).work =
                1+(w.set s ((w.signals s).call e rest)).work := by
              simp [World.work,World.weight]
            omega
          | follow f =>
            have hstep : step w .advance = some ((w.set s ((w.signals s).call e rest)).signalAbort f
                (w.signals s).reason) := by
              simp [step,World.advance,hk,hs,he]
            refine ⟨.advance,_,.inr rfl,hstep,?_⟩
            cases hf : ((w.set s ((w.signals s).call e rest)).signals f).aborted with
            | true =>
              rw [World.signalAbort,if_pos hf]
              exact .inr ⟨hunaborted rfl,by omega⟩
            | false =>
              left
              have hmono := fun j => (step_change hw.ok hstep j).aborted (hw.ok.signals j)
              have hold : (w.signals f).aborted = false := by
                by_cases hfs : f = s
                · subst hfs
                  simpa [Signal.call] using hf
                · simpa [hfs] using hf
              have hparent := hw.links.entries s e f (by simp [Signal.listed,Signal.left,hs]) he
              refine World.unaborted_lt ?_ (hw.ok.lt_of_parent hparent) hold
                (World.signalAbort_aborted _ f _) hmono
              rw [World.signalAbort,if_neg (Bool.eq_false_iff.mp hf)]
              rfl

theorem exists_return (hw : w.Inv) : ∃ as w', (∀ a ∈ as, a = .ret ∨ a = .advance) ∧
    Trace.run step w as = some w' ∧ w'.stack = [] := by
  induction hn : w.unaborted using Nat.strong_induction_on generalizing w with
  | h n ihAborts =>
    induction hm : w.work using Nat.strong_induction_on generalizing w with
    | h m ihWork =>
      by_cases hne : w.stack = []
      · exact ⟨[],w,by simp,rfl,hne⟩
      · obtain ⟨a,v,ha,hstep,hless⟩ := exists_progress hw hne
        have hv := inv_step w a v hw hstep
        have hrest : ∃ as w', (∀ a ∈ as, a = .ret ∨ a = .advance) ∧
            Trace.run step v as = some w' ∧ w'.stack = [] := by
          rcases hless with hlt | ⟨heq,hlt⟩
          · exact ihAborts v.unaborted (hn ▸ hlt) hv rfl
          · exact ihWork v.work (hm ▸ hlt) hv (heq.trans hn) rfl
        obtain ⟨as,w',has,hrun,hempty⟩ := hrest
        exact ⟨a::as,w',List.forall_mem_cons.mpr ⟨ha,has⟩,Trace.run_cons.mpr ⟨v,hstep,hrun⟩,hempty⟩

end steps

/-- An exception goes through a dispatch only if no listener that was registered when the signal
aborted, and has not been removed since, is still to be called. -/
def Uncut (w : World C R) (a : Action C R) : Prop :=
  ∀ s, w.throwsThrough a s → ∀ e ∈ (w.signals s).left, e ∈ (w.signals s).atAbort →
    e ∈ (w.signals s).early

/-- No listener is removed that the loop of a dispatch has still to call. -/
def Timely (w : World C R) (a : Action C R) : Prop :=
  ∀ s c, a.removes s c → ∀ e ∈ (w.signals s).listeners, e.fn = .callback c →
    (w.signals s).stage ≠ .slicing → e ∉ (w.signals s).left

def Follows (w : World C R) (f p : ℕ) : Prop := (w.signals f).parent = some p

/-- What an abort is to come to: all that follow the signal, at any distance, are aborted for its
reason, a listener registered when a signal aborted is called once, unless it was removed before
its turn, and to abort an aborted signal again does nothing. -/
structure Settled [DecidableEq C] (w : World C R) : Prop where
  followers : ∀ s f, TransGen (Follows w) f s → (w.signals s).aborted = true →
    (w.signals f).aborted = true ∧ (w.signals f).reason = (w.signals s).reason
  listeners : ∀ s, (w.signals s).aborted = true → ∀ e ∈ (w.signals s).atAbort,
    (w.signals s).called.count e ≤ 1 ∧
      ((w.signals s).called.count e = 1 ∨ e ∈ (w.signals s).early)
  later : ∀ s r, (w.signals s).aborted = true → w.signalAbort s r = w

/-- Each dispatch that is over has called what it had to. -/
def AllDone (w : World C R) : Prop := ∀ j, (w.signals j).Done

section steps

variable [DecidableEq C] {w w' : World C R}

theorem throw_signals (hw : w.Ok) (h : step w .throw = some w') {s : ℕ}
    (hs : .dispatch s ∈ World.cut w.stack.tail) :
    w'.signals s = (w.signals s).finish ∧ (w.signals s).inDispatch = true := by
  cases steps_of_step h with
  | throw hk =>
    rw [hk,List.tail_cons] at hs
    have hmem : .dispatch s ∈ w.stack := by
      rw [hk]
      exact List.mem_cons_of_mem _ ((List.takeWhile_prefix _).subset hs)
    exact ⟨if_pos hs,(hw.stack s).mp hmem⟩

theorem allDone_step {a : Action C R} (hw : w.Inv) (hd : AllDone w) (h : step w a = some w') :
    AllDone w' ↔ Uncut w a := by
  constructor
  · rintro hdone s ⟨rfl,hs⟩
    obtain ⟨hfinish,hin⟩ := throw_signals hw.ok h hs
    have hover := hdone s
    rw [hfinish] at hover
    exact (Signal.done_finish_iff (hw.ok.signals s) hin).mp hover
  · intro hcut j
    exact (step_change hw.ok h j).done (hw.ok.signals j) (hd j) (hcut j)

theorem not_allDone_step {a : Action C R} (hw : w.Inv) (hd : ¬ AllDone w)
    (h : step w a = some w') : ¬ AllDone w' := by
  simp only [AllDone,not_forall] at hd ⊢
  obtain ⟨j,hj⟩ := hd
  exact ⟨j,(step_change hw.ok h j).not_done (hw.ok.signals j) hj⟩

theorem settled_iff (hw : w.Inv) (hstack : w.stack = []) : Settled w ↔ AllDone w := by
  have hover : ∀ s, (w.signals s).aborted = true → (w.signals s).stage = .ended := by
    intro s hs
    have hidle := (hw.ok.signals s).idle
    have hin := hw.ok.stack s
    rw [hstack] at hin
    cases hstage : (w.signals s).stage <;>
      simp [Signal.inDispatch,hstage,hs] at hin hidle ⊢
  constructor
  · intro hsettled s hs e he
    have haborted := aborted_of_stage (hw.ok.signals s) (by simp [hs])
    refine (hsettled.listeners s haborted e he).2.imp (fun hone => ?_) id
    exact List.count_pos_iff.mp (by omega)
  · intro hdone
    refine ⟨fun s f hf hs => ?_,fun s hs e he => ?_,fun s r hs => if_pos hs⟩
    · -- along the chain from the signal down to the one that follows it
      have hlink : ∀ f p, Follows w f p → (w.signals p).aborted = true →
          (w.signals f).aborted = true ∧ (w.signals f).reason = (w.signals p).reason := by
        intro f p hp hpa
        have hf : (w.signals f).aborted = true := by
          by_contra hf
          obtain ⟨e,hfn,-,hat⟩ := hw.links.link f p hp (Bool.eq_false_iff.mpr hf)
          rcases hdone p (hover p hpa) e (hat hpa) with hcalled | hearly
          · exact hf (hw.heard p e f hcalled hfn)
          · exact hw.links.early p e f hfn hearly
        exact ⟨hf,(hw.links.reason f p hp hf).2⟩
      induction hf using TransGen.head_induction_on with
      | single hp => exact hlink _ _ hp hs
      | head hp _ ih =>
        obtain ⟨hpa,hreason⟩ := ih
        obtain ⟨hfa,hr⟩ := hlink _ _ hp hpa
        exact ⟨hfa,hr.trans hreason⟩
    · have hnodup : (w.signals s).called.Nodup := (hw.ok.signals s).once.of_append_left
      refine ⟨List.nodup_iff_count_le_one.mp hnodup e,?_⟩
      exact (hdone s (hover s hs) e he).imp (List.count_eq_one_of_mem hnodup) id

theorem strict_step (hw : w.Inv) (hst : ∀ j, (w.signals j).Strict) {a : Action C R}
    (ht : Timely w a) (h : step w a = some w') (j : ℕ) : (w'.signals j).Strict :=
  (step_change hw.ok h j).strict (hw.ok.signals j) (hst j) (ht j)

/-- Once no dispatch is under way, an abort has come to what it is to exactly if no exception has
gone through a dispatch with listeners still to be called. What was removed before its turn is
not called, if nothing is removed that the loop of a dispatch has still to call. -/
theorem settled_iff_uncut {as : List (Action C R)} (h : Trace.run step start as = some w)
    (hstack : w.stack = []) :
    (Settled w ↔ Trace.Meets step Uncut start as) ∧
    (Trace.Meets step Timely start as →
      ∀ s, ∀ e ∈ (w.signals s).early, e ∉ (w.signals s).called) := by
  have hinv : w.Inv := Trace.run_keeps inv_step inv_start h
  constructor
  · rw [settled_iff hinv hstack]
    refine Trace.holds_iff_meets inv_step (fun _ _ _ hw hd hs => allDone_step hw hd hs)
      (fun _ _ _ hw hd hs => not_allDone_step hw hd hs) inv_start ?_ h
    exact fun _ hs => nomatch hs
  · intro htimely s e he
    have hstrict : w.Inv ∧ ∀ j, (w.signals j).Strict :=
      Trace.run_keeps_of_meets (I := fun w => w.Inv ∧ ∀ j, (w.signals j).Strict)
        (fun w a w' hw ht hs => ⟨inv_step w a w' hw.1 hs,strict_step hw.1 hw.2 ht hs⟩)
        ⟨inv_start,fun _ e he => nomatch he⟩ htimely h
    exact (hstrict.2 s e he).1

end steps

/-- A controller aborts its signal, and a signal that follows it. -/
def cascade : List (Action ℕ Unit) :=
  [.create true,.create false,.add 0 0,.follow 1 0,.add 1 1,.abort 0 none]

theorem settled_iff_uncut_sample :
    let as := cascade++[.advance,.advance,.ret,.advance,.advance,.advance,.ret,.advance,.advance]
    ∃ w, Trace.run step start as = some w ∧ Settled w ∧
      ∀ s, ∀ e ∈ (w.signals s).early, e ∉ (w.signals s).called := by
  intro as
  refine ⟨_,rfl,?_⟩
  obtain ⟨hsettled,hstrict⟩ := settled_iff_uncut (rfl : Trace.run step start as = some _) rfl
  refine ⟨hsettled.mpr (Trace.meets_of_forall (fun a ha w s hthrows => ?_) _),
    hstrict (Trace.meets_of_forall (fun a ha w s c hremoves => ?_) _)⟩
  · rw [hthrows.1] at ha
    simp [as,cascade] at ha
  · rw [show a = .remove s c from hremoves] at ha
    simp [as,cascade] at ha

/-- The first listener throws, and the signal that follows is not aborted. -/
theorem throw_ends_cascade :
    ¬ ∀ (as : List (Action ℕ Unit)) w, Trace.run step start as = some w → w.stack = [] →
      Settled w := by
  intro h
  have hsettled := h (cascade++[.advance,.advance,.throw]) _ rfl rfl
  have hfollower := (hsettled.followers 0 1 (TransGen.single rfl) rfl).1
  exact absurd hfollower (by decide)

end AbortSignal
end AsioQuickjs
