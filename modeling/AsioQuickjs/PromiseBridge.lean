import AsioQuickjs.Trace
import Mathlib.Logic.Function.Basic
import Mathlib.Algebra.Ring.Int.Defs
import Mathlib.Algebra.Ring.Nat
import Mathlib.Tactic.Common

/-! `await_js_value` and the table `g_bridges` that all hosts share. A pending promise is given
two handlers that know their await by a number; the first one called takes the bridge out of
the table and completes it. What `then` does with the handlers is up to the promise. -/
namespace AsioQuickjs
namespace PromiseBridge

/-- The double nearest to `n`, ties to even. -/
def roundDouble (n : ℕ) : ℕ :=
  if n < 2^53 then n
  else
    let e := n.log2-52
    let q := n/2^e
    let r := n%2^e
    if 2^e < 2*r ∨ 2^e = 2*r ∧ q%2 = 1 then (q+1)*2^e else q*2^e

/-- `JS_ToInt64` of `JS_NewInt64`. -/
def throughNumber (id : ℤ) : ℤ := Int.bmod (id.sign*roundDouble id.natAbs) (2^64)

theorem roundDouble_eq {n : ℕ} (h : n ≤ 2^53) : roundDouble n = n := by
  rcases Nat.lt_or_eq_of_le h with h | rfl
  · exact if_pos h
  · decide +kernel

theorem throughNumber_eq {id : ℤ} (hpos : 0 < id) (h : id ≤ 2^53) : throughNumber id = id := by
  rw [throughNumber,roundDouble_eq (by omega),Int.sign_eq_one_of_pos hpos,Int.one_mul,
    Int.natAbs_of_nonneg (Int.le_of_lt hpos)]
  exact Int.bmod_eq_of_le (by omega) (by omega)

theorem throughNumber_next : throughNumber (2^53+1) = 2^53 := by decide +kernel

/-- `JS_PromiseState` of what the job returned, with the value that is there. -/
inductive PromiseState (V : Type*)
  | notAPromise (v : V)
  | fulfilled (v : V)
  | rejected (reason : V)
  | pending

/-- An outcome is `true` with a value or `false` with a reason. -/
inductive Stage (V : Type*)
  | unused
  | numbered
  | listed
  | attaching
  | waiting
  | returned (outcome : Bool×V)
  | failed

/-- One call of `await_js_value`. `handed` says that `then` has got the handlers, `called` how
they were called so far, `values` are the calls of `setValue`, and `resumed` what the
coroutine was resumed with. -/
structure Await (V : Type*) where
  stage : Stage V := .unused
  id : ℤ := 0
  handed : Bool := false
  called : List (Bool×V) := []
  values : List (Bool×V) := []
  resumed : List (Bool×V) := []

/-- `A` are the calls, of all jobs on all hosts; the table holds bridges, each known by the
call that made it. -/
structure Sys (A V : Type*) where
  bridgeNext : ℤ := 1
  bridges : ℤ → Option A := fun _ => none
  awaits : A → Await V := fun _ => {}

/-- `settle` is a call of a handler of `a`, by anyone who has it, with its first argument or
`undefined`. -/
inductive Action (A V : Type*)
  | enter (a : A) (state : PromiseState V)
  | emplace (a : A)
  | getThen (a : A) (isFunction : Bool)
  | settle (a : A) (ok : Bool) (v : V)
  | thenReturns (a : A)
  | thenThrows (a : A)
  | resume (a : A)

section

variable {A V : Type*} [DecidableEq A]

def Sys.put (s : Sys A V) (a : A) (x : Await V) : Sys A V :=
  { s with awaits := Function.update s.awaits a x }

def Sys.erase (s : Sys A V) (id : ℤ) : Sys A V :=
  { s with bridges := Function.update s.bridges id none }

/-- The calls before the handlers go to anyone, and the one that completes a bridge. -/
def Sys.bridgeOnSettle (s : Sys A V) (id : ℤ) (o : Bool×V) : Sys A V :=
  match s.bridges id with
  | none => s
  | some b =>
    let x := s.awaits b
    (s.erase id).put b { x with values := x.values++[o] }

def step (s : Sys A V) : Action A V → Option (Sys A V)
  | .enter a state =>
    let x := s.awaits a
    match x.stage with
    | .unused =>
      match state with
      | .notAPromise v | .fulfilled v => some (s.put a { x with stage := .returned (true,v) })
      | .rejected reason => some (s.put a { x with stage := .returned (false,reason) })
      | .pending =>
        some ({ s with bridgeNext := Int.bmod (s.bridgeNext+1) (2^64) }.put a
          { x with stage := .numbered, id := s.bridgeNext })
    | _ => none
  | .emplace a =>
    let x := s.awaits a
    match x.stage with
    | .numbered =>
      let t : Sys A V := if (s.bridges x.id).isSome then s
        else { s with bridges := Function.update s.bridges x.id (some a) }
      some (t.put a { x with stage := .listed })
    | _ => none
  | .getThen a isFunction =>
    let x := s.awaits a
    match x.stage with
    | .listed =>
      if isFunction then some (s.put a { x with stage := .attaching, handed := true })
      else some ((s.erase x.id).put a { x with stage := .failed })
    | _ => none
  | .settle a ok v =>
    let x := s.awaits a
    if x.handed then
      some ((s.put a { x with called := x.called++[(ok,v)] }).bridgeOnSettle
        (throughNumber x.id) (ok,v))
    else none
  | .thenReturns a =>
    let x := s.awaits a
    match x.stage with
    | .attaching => some (s.put a { x with stage := .waiting })
    | _ => none
  | .thenThrows a =>
    let x := s.awaits a
    match x.stage with
    | .attaching => some ((s.erase x.id).put a { x with stage := .failed })
    | _ => none
  | .resume a =>
    let x := s.awaits a
    match x.stage, x.values with
    | .waiting, o::_ =>
      some (s.put a { x with stage := .returned o, resumed := x.resumed++[o] })
    | _, _ => none

end

variable {A V : Type*}

def Await.opened (x : Await V) : Bool :=
  match x.stage with
  | .listed | .attaching | .waiting => x.called.isEmpty
  | _ => false

/-- The table holds the bridges of the awaits that are neither settled nor failed, each under
its own number. -/
def Entries (s : Sys A V) : Prop :=
  ∀ id a, s.bridges id = some a ↔ (s.awaits a).opened = true ∧ (s.awaits a).id = id

/-- Also an await is resumed at most once, with what its own handlers were first called with. -/
structure Faithful (s : Sys A V) : Prop where
  entries : Entries s
  once : ∀ a, (s.awaits a).values.length ≤ 1 ∧ (s.awaits a).resumed.length ≤ 1
  first : ∀ a, ∀ o ∈ (s.awaits a).resumed, (s.awaits a).called.head? = some o

/-- The number of an await is in no entry when it is entered, and comes back when one of its
handlers is called first; afterwards there is no entry behind it. -/
def Clear (s : Sys A V) : Action A V → Prop
  | .emplace a => s.bridges (s.awaits a).id = none
  | .settle a _ _ =>
    if (s.awaits a).opened then throughNumber (s.awaits a).id = (s.awaits a).id
    else s.bridges (throughNumber (s.awaits a).id) = none
  | .thenThrows a => (s.awaits a).opened = true ∨ s.bridges (s.awaits a).id = none
  | _ => True

def Stage.early : Stage V → Bool
  | .unused | .numbered | .listed => true
  | _ => false

/-- What an await keeps by itself: its bridge is completed by the first call of its handlers, or
not at all, if it had failed by then. -/
structure Await.Own (x : Await V) : Prop where
  early : x.stage.early = true → x.handed = false
  quiet : x.handed = false → x.called = []
  values : x.values = x.called.take 1 ∨ x.stage = .failed ∧ x.values = []
  resumed : x.resumed = [] ∨ ∃ o, x.stage = .returned o ∧ x.values = [o] ∧ x.resumed = [o]
  returned : ∀ o, x.stage = .returned o → x.handed = true → x.called ≠ []

namespace Await

theorem Own.called_of_early {x : Await V} (h : x.Own) (hx : x.stage.early = true) :
    x.called = [] := h.quiet (h.early hx)

theorem called_of_opened {x : Await V} (h : x.opened = true) : x.called = [] := by
  revert h
  fun_cases opened x <;> simp

theorem opened_of_called {x : Await V} (h : x.called ≠ []) : x.opened = false := by
  cases hx : x.opened with
  | true => exact absurd (called_of_opened hx) h
  | false => rfl

theorem opened_of_listed {x : Await V} (h : x.Own) (hx : x.stage = .listed) :
    x.opened = true := by
  simp [opened,hx,h.called_of_early (by rw [hx]; rfl)]

theorem Own.length_values {x : Await V} (h : x.Own) : x.values.length ≤ 1 := by
  rcases h.values with hv | ⟨-,hv⟩
  · rw [hv]
    exact List.length_take_le 1 _
  · simp [hv]

theorem Own.values_of_opened {x : Await V} (h : x.Own) (hx : x.opened = true) :
    x.values = [] := by
  rcases h.values with hv | ⟨-,hv⟩
  · rw [hv,called_of_opened hx]
    rfl
  · exact hv

theorem Own.called_of_values {x : Await V} (h : x.Own) {o : Bool×V} {os : List (Bool×V)}
    (hv : x.values = o::os) : x.called ≠ [] := by
  intro hc
  rcases h.values with hv' | ⟨-,hv'⟩ <;> simp [hv,hc] at hv'

theorem Own.moved {x : Await V} (h : x.Own) {stage : Stage V} {id : ℤ} {handed : Bool}
    (hreturned : ∀ o, x.stage ≠ .returned o) (hfailed : x.stage ≠ .failed)
    (hearly : stage.early = true → handed = false) (hhanded : handed = false → x.handed = false)
    (hnow : ∀ o, stage = .returned o → handed = false) :
    { x with stage := stage, id := id, handed := handed }.Own where
  early := hearly
  quiet hq := h.quiet (hhanded hq)
  values := by
    rcases h.values with hv | ⟨hf,-⟩
    · exact .inl hv
    · exact absurd hf hfailed
  resumed := by
    rcases h.resumed with hr | ⟨o,hs,-⟩
    · exact .inl hr
    · exact absurd hs (hreturned o)
  returned o hs hh := absurd ((hnow o hs).symm.trans hh) Bool.false_ne_true

theorem Own.resumes {x : Await V} (h : x.Own) (hx : x.stage = .waiting) {o : Bool×V}
    {os : List (Bool×V)} (hv : x.values = o::os) :
    { x with stage := .returned o, resumed := x.resumed++[o] }.Own where
  early he := by simp [Stage.early] at he
  quiet hq := h.quiet hq
  values := by
    rcases h.values with hv' | ⟨hf,-⟩
    · exact .inl hv'
    · simp [hx] at hf
  resumed := by
    have hle := h.length_values
    have hr : x.resumed = [] := by simpa [hx] using h.resumed
    rw [hv,List.length_cons] at hle
    obtain rfl := List.eq_nil_of_length_eq_zero (show os.length = 0 by omega)
    exact .inr ⟨o,rfl,hv,by rw [hr]; rfl⟩
  returned _ _ _ := h.called_of_values hv

theorem Own.settled {x : Await V} (h : x.Own) (hx : x.opened = true) (hhanded : x.handed = true)
    (o : Bool×V) : { x with called := x.called++[o], values := x.values++[o] }.Own where
  early he := h.early he
  quiet hq := by simp [hhanded] at hq
  values := .inl (by simp [called_of_opened hx,h.values_of_opened hx])
  resumed := by
    rcases h.resumed with hr | ⟨o',-,hv,-⟩
    · exact .inl hr
    · simp [h.values_of_opened hx] at hv
  returned _ _ _ := by simp

theorem Own.late {x : Await V} (h : x.Own) (hx : x.opened = false) (hhanded : x.handed = true)
    (o : Bool×V) : { x with called := x.called++[o] }.Own where
  early he := h.early he
  quiet hq := by simp [hhanded] at hq
  values := by
    rcases h.values with hv | hfailed
    · cases hc : x.called with
      | nil =>
        refine .inr ?_
        cases hstage : x.stage with
        | unused | numbered | listed =>
          have := h.early (by rw [hstage]; rfl)
          simp [hhanded] at this
        | attaching | waiting => simp [opened,hstage,hc] at hx
        | returned o => exact absurd hc (h.returned o hstage hhanded)
        | failed => exact ⟨rfl,by rw [hv,hc]; rfl⟩
      | cons o' os => exact .inl (by simp [hv,hc])
    · exact .inr hfailed
  resumed := h.resumed
  returned _ _ _ := by simp

theorem Own.length_resumed {x : Await V} (h : x.Own) : x.resumed.length ≤ 1 := by
  rcases h.resumed with hr | ⟨o,-,-,hr⟩ <;> simp [hr]

theorem Own.head_called {x : Await V} (h : x.Own) {o : Bool×V} (ho : o ∈ x.resumed) :
    x.called.head? = some o := by
  rcases h.resumed with hr | ⟨o',hstage,hvalues,hr⟩
  · simp [hr] at ho
  · obtain rfl : o = o' := by simpa [hr] using ho
    rcases h.values with hv | ⟨-,hv⟩
    · rw [hvalues] at hv
      cases hc : x.called with
      | nil => simp [hc] at hv
      | cons o' os => simpa [hc,eq_comm] using hv
    · simp [hvalues] at hv

end Await

structure Inv (s : Sys A V) : Prop where
  entries : Entries s
  own : ∀ a, (s.awaits a).Own

theorem Inv.faithful {s : Sys A V} (h : Inv s) : Faithful s where
  entries := h.entries
  once a := ⟨(h.own a).length_values,(h.own a).length_resumed⟩
  first a _ ho := (h.own a).head_called ho

theorem inv_init : Inv ({} : Sys A V) where
  entries id a := by simp [Await.opened]
  own a := ⟨fun _ => rfl,fun _ => rfl,.inl rfl,.inl rfl,by simp⟩

theorem not_entries_of_none {s : Sys A V} {a : A} {i : ℤ} (hnone : s.bridges i = none)
    (ho : (s.awaits a).opened = true) (hid : (s.awaits a).id = i) : ¬ Entries s := by
  intro he
  have := (he i a).mpr ⟨ho,hid⟩
  simp [hnone] at this

section

variable [DecidableEq A] {s : Sys A V} {a : A} {x : Await V}

@[simp] theorem put_awaits_self (s : Sys A V) (a : A) (x : Await V) :
    (s.put a x).awaits a = x := by simp [Sys.put]

theorem put_awaits_of_ne (s : Sys A V) {a c : A} (x : Await V) (h : c ≠ a) :
    (s.put a x).awaits c = s.awaits c := by simp [Sys.put,h]

theorem put_erase_put (s : Sys A V) (a : A) (x y : Await V) (id : ℤ) :
    ((s.put a x).erase id).put a y = (s.erase id).put a y := by
  simp [Sys.put,Sys.erase]

theorem Inv.put {B : ℤ → Option A} {n : ℤ} (h : Inv s) (hx : x.Own)
    (hothers : ∀ id c, c ≠ a → (B id = some c ↔ s.bridges id = some c))
    (hown : ∀ id, B id = some a ↔ x.opened = true ∧ x.id = id) :
    Inv (({ s with bridges := B, bridgeNext := n } : Sys A V).put a x) where
  entries id c := by
    by_cases hc : c = a
    · subst hc
      rw [put_awaits_self]
      exact hown id
    · rw [put_awaits_of_ne _ _ hc]
      exact (hothers id c hc).trans (h.entries id c)
  own c := by
    by_cases hc : c = a
    · subst hc
      rwa [put_awaits_self]
    · rw [put_awaits_of_ne _ _ hc]
      exact h.own c

theorem Inv.put_same (h : Inv s) (hx : x.Own) (hopened : x.opened = (s.awaits a).opened)
    (hid : x.opened = true → x.id = (s.awaits a).id) {n : ℤ} :
    Inv (({ s with bridgeNext := n } : Sys A V).put a x) := by
  refine h.put (B := s.bridges) hx (fun _ _ _ => Iff.rfl) fun id => ?_
  rw [h.entries id a,← hopened]
  exact and_congr_right fun ho => by rw [hid ho]

theorem Inv.put_erase (h : Inv s) (hx : x.Own) (hopened : x.opened = false)
    (hid : (s.awaits a).opened = true ∨ s.bridges (s.awaits a).id = none) :
    Inv ((s.erase (s.awaits a).id).put a x) := by
  refine h.put (n := s.bridgeNext) hx (fun id c hc => ?_) fun id => ?_
  · by_cases hi : id = (s.awaits a).id
    · subst hi
      have hne : s.bridges (s.awaits a).id ≠ some c := by
        rcases hid with ho | hn
        · rw [(h.entries _ a).mpr ⟨ho,rfl⟩]
          simpa [eq_comm] using hc
        · simp [hn]
      simpa using hne
    · rw [Function.update_of_ne hi]
  · by_cases hi : id = (s.awaits a).id
    · simp [hi,hopened]
    · rw [Function.update_of_ne hi,h.entries id a]
      simp [hopened,Ne.symm hi]

theorem Inv.put_insert (h : Inv s) (hx : x.Own) (hopened : x.opened = true)
    (hold : (s.awaits a).opened = false) (hfree : s.bridges x.id = none) :
    Inv (({ s with bridges := Function.update s.bridges x.id (some a) } : Sys A V).put a x) := by
  refine h.put (n := s.bridgeNext) hx (fun id c hc => ?_) fun id => ?_
  · by_cases hi : id = x.id
    · subst hi
      simpa [hfree] using Ne.symm hc
    · rw [Function.update_of_ne hi]
  · by_cases hi : id = x.id
    · simp [hi,hopened]
    · rw [Function.update_of_ne hi,h.entries id a]
      simp [hold,Ne.symm hi]

theorem bridgeOnSettle_none {id : ℤ} {o : Bool×V} (h : s.bridges id = none) :
    s.bridgeOnSettle id o = s := by
  simp [Sys.bridgeOnSettle,h]

theorem bridgeOnSettle_some {id : ℤ} {o : Bool×V} {b : A} (h : s.bridges id = some b) :
    s.bridgeOnSettle id o =
      (s.erase id).put b { s.awaits b with values := (s.awaits b).values++[o] } := by
  simp [Sys.bridgeOnSettle,h]

theorem bridgeOnSettle_bridges (s : Sys A V) (id id' : ℤ) (o : Bool×V) :
    (s.bridgeOnSettle id o).bridges id' = if id' = id then none else s.bridges id' := by
  rw [Sys.bridgeOnSettle]
  split
  · next hnone =>
    by_cases hid : id' = id
    · rw [if_pos hid,hid,hnone]
    · rw [if_neg hid]
  · exact Function.update_apply ..

theorem bridgeOnSettle_awaits (s : Sys A V) (id : ℤ) (o : Bool×V) (c : A) :
    ∃ values, (s.bridgeOnSettle id o).awaits c = { s.awaits c with values := values } := by
  rw [Sys.bridgeOnSettle]
  split
  · exact ⟨_,rfl⟩
  · next b hb =>
    by_cases hc : c = b
    · subst hc
      exact ⟨_,put_awaits_self ..⟩
    · exact ⟨_,put_awaits_of_ne _ _ hc⟩

theorem settle_opened (h : Inv s) {ok : Bool} {v : V} {u : Sys A V}
    (hu : step s (.settle a ok v) = some u) (ho : (s.awaits a).opened = true)
    (hid : throughNumber (s.awaits a).id = (s.awaits a).id) : Inv u := by
  obtain ⟨hhanded,hr⟩ := Option.ite_none_right_eq_some.mp hu
  have hentry : (s.put a { s.awaits a with
      called := (s.awaits a).called++[(ok,v)] }).bridges (s.awaits a).id = some a :=
    (h.entries _ a).mpr ⟨ho,rfl⟩
  rw [hid,bridgeOnSettle_some hentry,put_awaits_self,put_erase_put] at hr
  cases hr
  exact h.put_erase ((h.own a).settled ho hhanded (ok,v)) (Await.opened_of_called (by simp))
    (.inl ho)

theorem settle_late (h : Inv s) {ok : Bool} {v : V} {u : Sys A V}
    (hu : step s (.settle a ok v) = some u) (ho : (s.awaits a).opened = false)
    (hid : s.bridges (throughNumber (s.awaits a).id) = none) : Inv u := by
  obtain ⟨hhanded,hr⟩ := Option.ite_none_right_eq_some.mp hu
  have hnone : (s.put a { s.awaits a with
      called := (s.awaits a).called++[(ok,v)] }).bridges (throughNumber (s.awaits a).id) = none :=
    hid
  rw [bridgeOnSettle_none hnone] at hr
  cases hr
  refine h.put_same ((h.own a).late ho hhanded (ok,v)) ?_ fun _ => rfl
  rw [ho]
  exact Await.opened_of_called (by simp)

theorem inv_step (s : Sys A V) (e : Action A V) (u : Sys A V) (h : Inv s) (hC : Clear s e)
    (hu : step s e = some u) : Inv u := by
  cases e with
  | settle a ok v =>
    cases ho : (s.awaits a).opened with
    | true => exact settle_opened h hu ho (by simpa [Clear,ho] using hC)
    | false => exact settle_late h hu ho (by simpa [Clear,ho] using hC)
  | enter a state =>
    simp only [step] at hu
    split at hu
    · next hstage =>
      have hhanded := (h.own a).early (by rw [hstage]; rfl)
      have hold : (s.awaits a).opened = false := by simp [Await.opened,hstage]
      cases state with
      | notAPromise v | fulfilled v | rejected v =>
        cases hu
        have hown (o : Bool×V) : Await.Own { s.awaits a with stage := .returned o } :=
          (h.own a).moved (by simp [hstage]) (by simp [hstage]) (by simp [Stage.early])
            (fun hh => hh) fun _ _ => hhanded
        exact h.put_same (hown _) hold.symm fun _ => rfl
      | pending =>
        cases hu
        have hown : Await.Own { s.awaits a with stage := .numbered, id := s.bridgeNext } :=
          (h.own a).moved (by simp [hstage]) (by simp [hstage]) (fun _ => hhanded)
            (fun hh => hh) (by simp)
        exact h.put_same hown hold.symm (by simp [Await.opened])
    · cases hu
  | emplace a =>
    simp only [step] at hu
    split at hu
    · next hstage =>
      have hfree : s.bridges (s.awaits a).id = none := hC
      have hhanded := (h.own a).early (by rw [hstage]; rfl)
      rw [hfree,Option.isSome_none,if_neg Bool.false_ne_true] at hu
      cases hu
      have hown : Await.Own { s.awaits a with stage := .listed } :=
        (h.own a).moved (by simp [hstage]) (by simp [hstage]) (fun _ => hhanded)
          (fun hh => hh) (by simp)
      exact h.put_insert hown (Await.opened_of_listed hown rfl) (by simp [Await.opened,hstage])
        hfree
    · cases hu
  | getThen a isFunction =>
    simp only [step] at hu
    split at hu
    · next hstage =>
      have ho := Await.opened_of_listed (h.own a) hstage
      split at hu
      · cases hu
        have hown : Await.Own { s.awaits a with stage := .attaching, handed := true } :=
          (h.own a).moved (by simp [hstage]) (by simp [hstage]) (by simp [Stage.early])
            (by simp) (by simp)
        exact h.put_same hown (by simp [Await.opened,hstage]) fun _ => rfl
      · cases hu
        have hown : Await.Own { s.awaits a with stage := .failed } :=
          (h.own a).moved (by simp [hstage]) (by simp [hstage]) (by simp [Stage.early])
            (fun hh => hh) (by simp)
        exact h.put_erase hown rfl (.inl ho)
    · cases hu
  | thenReturns a =>
    simp only [step] at hu
    split at hu
    · next hstage =>
      cases hu
      have hown : Await.Own { s.awaits a with stage := .waiting } :=
        (h.own a).moved (by simp [hstage]) (by simp [hstage]) (by simp [Stage.early])
          (fun hh => hh) (by simp)
      exact h.put_same hown (by simp [Await.opened,hstage]) fun _ => rfl
    · cases hu
  | thenThrows a =>
    simp only [step] at hu
    split at hu
    · next hstage =>
      cases hu
      have hown : Await.Own { s.awaits a with stage := .failed } :=
        (h.own a).moved (by simp [hstage]) (by simp [hstage]) (by simp [Stage.early])
          (fun hh => hh) (by simp)
      exact h.put_erase hown rfl hC
    · cases hu
  | resume a =>
    simp only [step] at hu
    split at hu
    · next o os hstage hvalues =>
      cases hu
      have hcalled := (h.own a).called_of_values hvalues
      exact h.put_same ((h.own a).resumes hstage hvalues)
        (Await.opened_of_called hcalled).symm fun _ => rfl
    · cases hu

theorem not_faithful_step (s : Sys A V) (e : Action A V) (u : Sys A V) (h : Inv s)
    (hC : ¬ Clear s e) (hu : step s e = some u) : ¬ Faithful u := by
  cases e with
  | emplace a =>
    simp only [step] at hu
    split at hu
    · next hstage =>
      have hhanded := (h.own a).early (by rw [hstage]; rfl)
      obtain ⟨b,hb⟩ := Option.ne_none_iff_exists'.mp hC
      rw [hb,Option.isSome_some,if_pos rfl] at hu
      cases hu
      intro hf
      -- the entry of the other await stands in the way of this one's
      have hopened : ({ s.awaits a with stage := .listed } : Await V).opened = true := by
        simp [Await.opened,(h.own a).quiet hhanded]
      have hentry := (hf.entries (s.awaits a).id a).mpr (by simp [hopened])
      obtain rfl : b = a := Option.some.inj (hb.symm.trans hentry)
      have ho := ((h.entries _ b).mp hb).1
      simp [Await.opened,hstage] at ho
    · cases hu
  | settle a ok v =>
    obtain ⟨hhanded,hr⟩ := Option.ite_none_right_eq_some.mp hu
    cases hr
    intro hf
    cases ho : (s.awaits a).opened with
    | true =>
      have hid : (s.awaits a).id ≠ throughNumber (s.awaits a).id := by
        simpa [Clear,ho,eq_comm] using hC
      -- the entry stays, although the await is settled
      have hentry := (hf.entries (s.awaits a).id a).mp (by
        rw [bridgeOnSettle_bridges,if_neg hid]
        exact (h.entries _ a).mpr ⟨ho,rfl⟩)
      obtain ⟨values,hu⟩ := bridgeOnSettle_awaits (s.put a { s.awaits a with
        called := (s.awaits a).called++[(ok,v)] }) (throughNumber (s.awaits a).id) (ok,v) a
      rw [hu,put_awaits_self] at hentry
      have hcalled := Await.called_of_opened hentry.1
      simp at hcalled
    | false =>
      obtain ⟨b,hb⟩ := Option.ne_none_iff_exists'.mp
        (show s.bridges (throughNumber (s.awaits a).id) ≠ none by simpa [Clear,ho] using hC)
      have hopened := (h.entries _ b).mp hb
      have hba : b ≠ a := by
        rintro rfl
        simp [ho] at hopened
      -- the entry of another await is gone, which is not settled
      obtain ⟨values,hu⟩ := bridgeOnSettle_awaits (s.put a { s.awaits a with
        called := (s.awaits a).called++[(ok,v)] }) (throughNumber (s.awaits a).id) (ok,v) b
      rw [put_awaits_of_ne _ _ hba] at hu
      refine not_entries_of_none (a := b) (i := throughNumber (s.awaits a).id) ?_ ?_ ?_ hf.entries
      · rw [bridgeOnSettle_bridges,if_pos rfl]
      · rw [hu]
        exact hopened.1
      · rw [hu]
        exact hopened.2
  | thenThrows a =>
    simp only [step] at hu
    split at hu
    · next hstage =>
      cases hu
      obtain ⟨ho,hsome⟩ := not_or.mp hC
      obtain ⟨b,hb⟩ := Option.ne_none_iff_exists'.mp hsome
      have hopened := (h.entries _ b).mp hb
      have hba : b ≠ a := by
        rintro rfl
        exact ho hopened.1
      refine fun hf => not_entries_of_none (a := b) (i := (s.awaits a).id) ?_ ?_ ?_ hf.entries
      · simp [Sys.put,Sys.erase]
      · rw [put_awaits_of_ne _ _ hba]
        exact hopened.1
      · rw [put_awaits_of_ne _ _ hba]
        exact hopened.2
    · cases hu
  | enter a state | getThen a isFunction | thenReturns a | resume a => exact absurd trivial hC

/-- Along a run the bridges are faithful exactly if every number is free when it is entered and
comes back when it is first needed. -/
theorem faithful_iff_clear {es : List (Action A V)} {s : Sys A V}
    (hrun : Trace.run step {} es = some s) :
    (∀ ds u, ds <+: es → Trace.run step {} ds = some u → Faithful u) ↔
      Trace.Meets step Clear {} es :=
  Trace.always_iff_meets inv_step (fun _ hi => hi.faithful) not_faithful_step inv_init hrun

end

/-- The promise is settled while `then` runs, and once more before the coroutine goes on. -/
def settledTwice : List (Action Bool String) :=
  [.enter true .pending,.emplace true,.getThen true true,.settle true true "a",
    .thenReturns true,.settle true false "b",.resume true]

theorem faithful_iff_clear_settledTwice :
    ∃ s, Trace.run step {} settledTwice = some s ∧
      ((∀ ds u, ds <+: settledTwice → Trace.run step {} ds = some u → Faithful u) ↔
        Trace.Meets step Clear {} settledTwice) := by
  have hrun : (Trace.run step {} settledTwice).isSome = true := by decide +kernel
  obtain ⟨s,hs⟩ := Option.isSome_iff_exists.mp hrun
  exact ⟨s,hs,faithful_iff_clear hs⟩

/-- A pending await is begun with a number of at most 2^53. -/
def Small (s : Sys A V) : Action A V → Prop
  | .enter _ .pending => s.bridgeNext ≤ 2^53
  | _ => True

def Await.numbered (x : Await V) : Bool :=
  x.handed || match x.stage with
    | .numbered | .listed | .attaching => true
    | _ => false

structure Counted (s : Sys A V) : Prop where
  next : 0 < s.bridgeNext ∧ s.bridgeNext ≤ 2^53+1
  below : ∀ a, 0 ≤ (s.awaits a).id ∧ (s.awaits a).id < s.bridgeNext
  distinct : ∀ a b, (s.awaits a).id = (s.awaits b).id → (s.awaits a).id ≠ 0 → a = b
  given : ∀ a, (s.awaits a).numbered = true → (s.awaits a).id ≠ 0

/-- The await has kept its number, and is given none. -/
def Kept (s u : Sys A V) : Prop :=
  u.bridgeNext = s.bridgeNext ∧ ∀ c, (u.awaits c).id = (s.awaits c).id ∧
    ((u.awaits c).numbered = true → (s.awaits c).numbered = true)

theorem Kept.trans {t u : Sys A V} (h : Kept s t) (h' : Kept t u) : Kept s u :=
  ⟨h'.1.trans h.1,fun c => ⟨(h'.2 c).1.trans (h.2 c).1,fun hc => (h.2 c).2 ((h'.2 c).2 hc)⟩⟩

theorem counted_init : Counted ({} : Sys A V) where
  next := by simp
  below a := by simp
  distinct a b _ hne := absurd rfl hne
  given a ha := by simp [Await.numbered] at ha

section

variable [DecidableEq A] {s : Sys A V} {a : A} {x : Await V}

theorem kept_put {r : Sys A V} (hnext : r.bridgeNext = s.bridgeNext) (hawaits : r.awaits = s.awaits)
    (hid : x.id = (s.awaits a).id) (hx : x.numbered = true → (s.awaits a).numbered = true) :
    Kept s (r.put a x) := by
  refine ⟨hnext,fun c => ?_⟩
  by_cases hc : c = a
  · subst hc
    rw [put_awaits_self]
    exact ⟨hid,hx⟩
  · rw [put_awaits_of_ne _ _ hc,hawaits]
    exact ⟨rfl,fun h => h⟩

theorem kept_bridgeOnSettle (s : Sys A V) (id : ℤ) (o : Bool×V) :
    Kept s (s.bridgeOnSettle id o) := by
  rw [Sys.bridgeOnSettle]
  split
  · exact ⟨rfl,fun _ => ⟨rfl,fun hx => hx⟩⟩
  · exact kept_put rfl rfl rfl fun hx => hx

theorem kept_step {e : Action A V} {u : Sys A V} (hu : step s e = some u) :
    Kept s u ∨ ∃ a, e = .enter a .pending ∧
      u = ({ s with bridgeNext := Int.bmod (s.bridgeNext+1) (2^64) } : Sys A V).put a
        { s.awaits a with stage := .numbered, id := s.bridgeNext } := by
  cases e with
  | enter a state =>
    simp only [step] at hu
    split at hu
    · next hstage =>
      cases state with
      | notAPromise v | fulfilled v | rejected v =>
        cases hu
        exact .inl (kept_put rfl rfl rfl (by simp [Await.numbered,hstage]))
      | pending =>
        cases hu
        exact .inr ⟨a,rfl,rfl⟩
    · cases hu
  | emplace a =>
    simp only [step] at hu
    split at hu
    · next hstage =>
      cases hu
      exact .inl (kept_put (by split <;> rfl) (by split <;> rfl) rfl
        (by simp [Await.numbered,hstage]))
    · cases hu
  | getThen a isFunction =>
    simp only [step] at hu
    split at hu
    · next hstage =>
      split at hu <;> cases hu <;>
        exact .inl (kept_put rfl rfl rfl (by simp [Await.numbered,hstage]))
    · cases hu
  | settle a ok v =>
    obtain ⟨hhanded,hr⟩ := Option.ite_none_right_eq_some.mp hu
    cases hr
    have hcalled : Kept s (s.put a { s.awaits a with
        called := (s.awaits a).called++[(ok,v)] }) := kept_put rfl rfl rfl fun hx => hx
    exact .inl (hcalled.trans (kept_bridgeOnSettle ..))
  | thenReturns a | thenThrows a =>
    simp only [step] at hu
    split at hu
    · next hstage =>
      cases hu
      exact .inl (kept_put rfl rfl rfl (by simp [Await.numbered,hstage]))
    · cases hu
  | resume a =>
    simp only [step] at hu
    split at hu
    · next hstage _ =>
      cases hu
      exact .inl (kept_put rfl rfl rfl (by simp [Await.numbered,hstage]))
    · cases hu

theorem counted_step {e : Action A V} {u : Sys A V} (h : Counted s) (hC : Small s e)
    (hu : step s e = some u) : Counted u := by
  rcases kept_step hu with ⟨hnext,hkept⟩ | ⟨a,rfl,rfl⟩
  · constructor
    · rw [hnext]
      exact h.next
    · intro c
      rw [(hkept c).1,hnext]
      exact h.below c
    · intro c d hcd hne
      rw [(hkept c).1] at hcd hne
      rw [(hkept d).1] at hcd
      exact h.distinct c d hcd hne
    · intro c hc
      rw [(hkept c).1]
      exact h.given c ((hkept c).2 hc)
  · have hle : s.bridgeNext ≤ 2^53 := hC
    have hpos := h.next.1
    have hnext : Int.bmod (s.bridgeNext+1) (2^64) = s.bridgeNext+1 :=
      Int.bmod_eq_of_le (by omega) (by omega)
    rw [hnext]
    have hother : ∀ c, c ≠ a → ((({ s with bridgeNext := s.bridgeNext+1 } : Sys A V).put a
        { s.awaits a with stage := .numbered, id := s.bridgeNext }).awaits c) = s.awaits c :=
      fun c hc => put_awaits_of_ne _ _ hc
    constructor
    · exact ⟨by change 0 < s.bridgeNext+1; omega,by change s.bridgeNext+1 ≤ 2^53+1; omega⟩
    · intro c
      by_cases hc : c = a
      · subst hc
        rw [put_awaits_self]
        exact ⟨Int.le_of_lt hpos,Int.lt_succ _⟩
      · rw [hother c hc]
        exact ⟨(h.below c).1,Int.lt_trans (h.below c).2 (Int.lt_succ _)⟩
    · intro c d hcd hne
      by_cases hc : c = a <;> by_cases hd : d = a
      · rw [hc,hd]
      · subst hc
        rw [put_awaits_self,hother d hd] at hcd
        exact absurd hcd (Int.ne_of_gt (h.below d).2)
      · subst hd
        rw [put_awaits_self,hother c hc] at hcd
        exact absurd hcd (Int.ne_of_lt (h.below c).2)
      · rw [hother c hc] at hcd hne
        rw [hother d hd] at hcd
        exact h.distinct c d hcd hne
    · intro c hc
      by_cases hca : c = a
      · subst hca
        rw [put_awaits_self]
        exact Int.ne_of_gt hpos
      · rw [hother c hca] at hc ⊢
        exact h.given c hc

theorem Small.clear {e : Action A V} {u : Sys A V} (h : Counted s) (hi : Inv s)
    (hu : step s e = some u) : Clear s e := by
  have hback : ∀ a, (s.awaits a).numbered = true →
      throughNumber (s.awaits a).id = (s.awaits a).id := fun a ha => by
    have := h.given a ha
    have := h.below a
    have := h.next
    exact throughNumber_eq (by omega) (by omega)
  have hfree : ∀ a, (s.awaits a).numbered = true → (s.awaits a).opened = false →
      s.bridges (s.awaits a).id = none := fun a ha ho => by
    by_contra hsome
    obtain ⟨b,hb⟩ := Option.ne_none_iff_exists'.mp hsome
    have hopened := (hi.entries _ b).mp hb
    obtain rfl := h.distinct a b hopened.2.symm (h.given a ha)
    simp [ho] at hopened
  cases e with
  | emplace a =>
    simp only [step] at hu
    split at hu
    · next hstage =>
      exact hfree a (by simp [Await.numbered,hstage]) (by simp [Await.opened,hstage])
    · cases hu
  | settle a ok v =>
    obtain ⟨hhanded,-⟩ := Option.ite_none_right_eq_some.mp hu
    have hx : (s.awaits a).numbered = true := by simp [Await.numbered,hhanded]
    rw [Clear,hback a hx]
    split
    · rfl
    · next ho => exact hfree a hx (Bool.eq_false_iff.mpr ho)
  | thenThrows a =>
    simp only [step] at hu
    split at hu
    · next hstage =>
      refine or_iff_not_imp_left.mpr fun ho => ?_
      exact hfree a (by simp [Await.numbered,hstage]) (Bool.eq_false_iff.mpr ho)
    · cases hu
  | enter a state | getThen a isFunction | thenReturns a | resume a => trivial

/-- Up to 2^53 pending awaits, on any hosts and in any order, the bridges are faithful. -/
theorem faithful_of_small {es : List (Action A V)} (hrun : Trace.run step {} es = some s)
    (hsmall : Trace.Meets step Small {} es) : Faithful s :=
  (Trace.run_keeps_of_meets (I := fun s : Sys A V => Inv s ∧ Counted s)
    (fun s e u hi hC hu => ⟨inv_step s e u hi.1 (Small.clear hi.2 hi.1 hu) hu,
      counted_step hi.2 hC hu⟩) ⟨inv_init,counted_init⟩ hsmall hrun).1.faithful

theorem run_begin (s : Sys A V) {a : A} (ha : s.awaits a = {}) {id : ℤ} (hid : s.bridgeNext = id)
    (hfree : s.bridges id = none) :
    Trace.run step s [.enter a .pending,.emplace a] = some
      ({ s with
        bridgeNext := Int.bmod (id+1) (2^64)
        bridges := Function.update s.bridges id (some a) }.put a { stage := .listed, id := id }) := by
  simp [Trace.run,step,ha,hid,hfree,Sys.put]

end

/-- So many jobs, each of which returns a pending promise without a `then`. -/
def failing (V : Type*) (n : ℕ) : List (Action ℕ V) :=
  (List.range n).flatMap fun k => [.enter k .pending,.emplace k]++[.getThen k false]

theorem run_failing {n : ℕ} (hn : n < 2^53) :
    ∃ s : Sys ℕ V, Trace.run step {} (failing V n) = some s ∧ s.bridgeNext = n+1 ∧
      (∀ id, s.bridges id = none) ∧ ∀ k, n ≤ k → s.awaits k = {} := by
  induction n with
  | zero => exact ⟨{},rfl,rfl,fun _ => rfl,fun _ _ => rfl⟩
  | succ n ih =>
    obtain ⟨s,hs,hnext,hbridges,hawaits⟩ := ih (by omega)
    have hbegin := run_begin s (hawaits n le_rfl) hnext (hbridges _)
    rw [failing,List.range_succ,List.flatMap_append,List.flatMap_singleton,← failing]
    refine ⟨_,Trace.run_append.mpr ⟨s,hs,Trace.run_append.mpr
      ⟨_,hbegin,by simp [Trace.run,step]; rfl⟩⟩,?_,fun id => ?_,fun k hk => ?_⟩
    · have hnext' : Int.bmod ((n+1 : ℤ)+1) (2^64) = n+1+1 :=
        Int.bmod_eq_of_le (by omega) (by omega)
      simpa [Sys.put,Sys.erase] using hnext'
    · simp [Sys.put,Sys.erase,Function.update_apply,hbridges]
    · have hkn : k ≠ n := by omega
      simp [Sys.put,Sys.erase,hkn,hawaits k (show n ≤ k by omega)]

/-- Two awaits in a row; the handler of the second one is called. -/
def crossing (v : V) (a b : ℕ) : List (Action ℕ V) :=
  [.enter a .pending,.emplace a]++([.getThen a true,.thenReturns a]++
    ([.enter b .pending,.emplace b]++[.getThen b true,.settle b true v,.resume a]))

theorem run_settle_other {s : Sys ℕ V} {a b : ℕ} (v : V) (hab : a ≠ b)
    (ha : s.awaits a = { stage := .waiting, id := 2^53, handed := true })
    (hb : s.awaits b = { stage := .listed, id := 2^53+1 })
    (hentry : s.bridges (2^53) = some a) :
    ∃ u, Trace.run step s [.getThen b true,.settle b true v,.resume a] = some u ∧
      (u.awaits a).resumed = [(true,v)] ∧ (u.awaits a).called = [] := by
  obtain ⟨t,ht,hta,htb,htentry⟩ : ∃ t, step s (.getThen b true) = some t ∧
      t.awaits a = { stage := .waiting, id := 2^53, handed := true } ∧
      t.awaits b = { stage := .attaching, id := 2^53+1, handed := true } ∧
      t.bridges (2^53) = some a :=
    ⟨_,by simp [step,hb],by rw [put_awaits_of_ne _ _ hab,ha],put_awaits_self ..,hentry⟩
  obtain ⟨u,hu,hua⟩ : ∃ u, step t (.settle b true v) = some u ∧
      u.awaits a = { stage := .waiting, id := 2^53, handed := true, values := [(true,v)] } := by
    have hcalled : (t.put b { t.awaits b with
        called := (t.awaits b).called++[(true,v)] }).bridges (2^53) = some a := htentry
    refine ⟨_,by rw [step,if_pos (by rw [htb])],?_⟩
    have hid : throughNumber (t.awaits b).id = 2^53 := by rw [htb]; exact throughNumber_next
    rw [hid,bridgeOnSettle_some hcalled,put_awaits_self,put_awaits_of_ne _ _ hab,hta]
    rfl
  refine ⟨_,Trace.run_cons.mpr ⟨t,ht,Trace.run_cons.mpr ⟨u,hu,Trace.run_cons.mpr
    ⟨_,by simp [step,hua]; rfl,rfl⟩⟩⟩,?_⟩
  rw [put_awaits_self]
  exact ⟨rfl,rfl⟩

theorem run_crossing {s : Sys ℕ V} {a b : ℕ} (v : V) (hab : a ≠ b) (ha : s.awaits a = {})
    (hb : s.awaits b = {}) (hbridges : ∀ id, s.bridges id = none) (hnext : s.bridgeNext = 2^53) :
    ∃ u, Trace.run step s (crossing v a b) = some u ∧
      (u.awaits a).resumed = [(true,v)] ∧ (u.awaits a).called = [] := by
  have hbmod : Int.bmod (2^53+1) (2^64) = 2^53+1 := by decide
  have hfirst := run_begin s ha hnext (hbridges _)
  rw [hbmod] at hfirst
  obtain ⟨t,ht,hnext',hbridges',hta,htb⟩ : ∃ t,
      Trace.run step s ([.enter a .pending,.emplace a]++[.getThen a true,.thenReturns a]) =
        some t ∧ t.bridgeNext = 2^53+1 ∧ (∀ id, t.bridges id = if id = 2^53 then some a else none) ∧
      t.awaits a = { stage := .waiting, id := 2^53, handed := true } ∧ t.awaits b = {} := by
    refine ⟨_,Trace.run_append.mpr ⟨_,hfirst,by simp [Trace.run,step]; rfl⟩,rfl,fun id => ?_,?_,?_⟩
    · simp [Sys.put,Function.update_apply,hbridges]
    · simp
    · simp [Sys.put,Ne.symm hab,hb]
  have hsecond := run_begin t htb hnext' (by rw [hbridges',if_neg (by decide)])
  obtain ⟨u,hu,hua⟩ := run_settle_other (s := ({ t with
      bridgeNext := Int.bmod (2^53+1+1) (2^64)
      bridges := Function.update t.bridges (2^53+1) (some b) } : Sys ℕ V).put b
        { stage := .listed, id := 2^53+1 }) v hab ((put_awaits_of_ne _ _ hab).trans hta)
    (put_awaits_self ..) (by simp [Sys.put,hbridges'])
  rw [crossing,← List.append_assoc,← List.append_assoc]
  exact ⟨u,Trace.run_append.mpr ⟨_,Trace.run_append.mpr ⟨t,ht,hsecond⟩,hu⟩,hua⟩

/-- The await number 2^53 is resumed with what the next one's promise was settled with. -/
theorem not_faithful_crossing :
    ∃ s, Trace.run step {} (failing String (2^53-1)++crossing "b" (2^53-1) (2^53)) = some s ∧
      (s.awaits (2^53-1)).resumed = [(true,"b")] ∧ (s.awaits (2^53-1)).called = [] ∧
      ¬ Faithful s := by
  obtain ⟨s,hs,hnext,hbridges,hawaits⟩ := run_failing (V := String) (n := 2^53-1) (by decide)
  obtain ⟨u,hu,hresumed,hcalled⟩ := run_crossing "b" (by decide) (hawaits _ le_rfl)
    (hawaits (2^53) (by decide)) hbridges (by rw [hnext]; decide)
  refine ⟨u,Trace.run_append.mpr ⟨s,hs,hu⟩,hresumed,hcalled,fun hf => ?_⟩
  have hfirst := hf.first _ (true,"b") (by rw [hresumed]; exact List.mem_singleton_self _)
  rw [hcalled] at hfirst
  cases hfirst

end PromiseBridge
end AsioQuickjs
