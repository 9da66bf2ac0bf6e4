import AsioQuickjs.Trace
import Mathlib.Data.List.Nodup
import Mathlib.Logic.Function.Basic
import Mathlib.Logic.Relation

/-! Abort signals that follow each other, and the dispatch of `abort`: the callbacks of a script
run in it, may throw, change listeners, and abort and follow signals themselves. -/
namespace AsioQuickjs
namespace AbortSignal

inductive Listener (C : Type)
  | callback (c : C)
  | follow (f : ℕ)
  deriving DecidableEq

/-- One registration; `id` is its number on the signal. -/
structure Entry (C : Type) where
  id : ℕ
  fn : Listener C
  deriving DecidableEq

/-- What an abort is for: a value of the script, or the `DOMException` made for a signal. -/
inductive Reason (R : Type)
  | given (r : R)
  | abortError (s : ℕ)
  deriving DecidableEq

/-- How far `dispatchEvent` is: before the copy of the listeners is made, or in the loop with
`rest` of the copy to be called. It runs once for a signal, so this is kept with the signal. -/
inductive Stage (C : Type)
  | idle | slicing
  | looping (rest : List (Entry C))
  | ended

/-- Of a signal, `controlled` says that a controller can abort it and `parent` is the signal it
follows. The last three are not in the code: the listeners registered when it aborted, those that
were called, in order, and those that were removed before their turn. -/
structure Signal (C R : Type) where
  aborted : Bool := false
  reason : Option (Reason R) := none
  onabort : Option C := none
  listeners : List (Entry C) := []
  stage : Stage C := .idle
  next : ℕ := 0
  controlled : Bool := false
  parent : Option ℕ := none
  atAbort : List (Entry C) := []
  called : List (Entry C) := []
  early : List (Entry C) := []

variable {C R : Type}

namespace Signal

def addEventListener (σ : Signal C R) (fn : Listener C) : Signal C R :=
  { σ with listeners := σ.listeners++[⟨σ.next,fn⟩], next := σ.next+1 }

def inDispatch (σ : Signal C R) : Bool :=
  match σ.stage with
  | .slicing | .looping _ => true
  | .idle | .ended => false

def removeEventListener [DecidableEq C] (σ : Signal C R) (c : C) : Signal C R :=
  let gone := σ.listeners.filter (·.fn = .callback c)
  { σ with
    listeners := σ.listeners.filter (·.fn ≠ .callback c)
    early := if σ.inDispatch then σ.early++gone.filter (· ∉ σ.called) else σ.early }

/-- `_signalAbort` of the signal `s` that is not aborted, up to the call of `onabort`. -/
def signalAbort (σ : Signal C R) (s : ℕ) (reason : Option (Reason R)) : Signal C R :=
  { σ with
    aborted := true, reason := some (reason.getD (.abortError s)), stage := .slicing
    atAbort := σ.listeners }

def slice (σ : Signal C R) : Signal C R := { σ with stage := .looping σ.listeners }

def call (σ : Signal C R) (e : Entry C) (rest : List (Entry C)) : Signal C R :=
  { σ with stage := .looping rest, called := σ.called++[e] }

def finish (σ : Signal C R) : Signal C R := { σ with stage := .ended }

def left (σ : Signal C R) : List (Entry C) :=
  match σ.stage with
  | .slicing => σ.listeners
  | .looping rest => rest
  | .idle | .ended => []

end Signal

/-- A function of the script runs, or `dispatchEvent` of a signal. -/
inductive Frame
  | callback
  | dispatch (s : ℕ)
  deriving DecidableEq

structure World (C R : Type) where
  signals : ℕ → Signal C R := fun _ => {}
  count : ℕ := 0
  stack : List Frame := []

/-- The script does all but `advance`: it makes a signal with a controller or without, follows,
changes listeners and handler, aborts, and returns or throws from a callback. -/
inductive Action (C R : Type)
  | create (controlled : Bool)
  | follow (f p : ℕ)
  | add (s : ℕ) (c : C)
  | remove (s : ℕ) (c : C)
  | setOnabort (s : ℕ) (handler : Option C)
  | abort (s : ℕ) (reason : Option (Reason R))
  | ret
  | throw
  | advance

namespace World

def set (w : World C R) (s : ℕ) (σ : Signal C R) : World C R :=
  { w with signals := Function.update w.signals s σ }

def push (w : World C R) (fs : List Frame) : World C R := { w with stack := fs++w.stack }

/-- `_signalAbort`. -/
def signalAbort (w : World C R) (s : ℕ) (reason : Option (Reason R)) : World C R :=
  if (w.signals s).aborted then w
  else
    (w.set s ((w.signals s).signalAbort s reason)).push
      (if (w.signals s).onabort.isSome then [.callback,.dispatch s] else [.dispatch s])

/-- `_follow`. -/
def follow (w : World C R) (f p : ℕ) : World C R :=
  let w' := w.set f { w.signals f with parent := some p }
  if (w.signals p).aborted then w'.signalAbort f (w.signals p).reason
  else w'.set p ((w'.signals p).addEventListener (.follow f))

def running (w : World C R) : Bool :=
  match w.stack with
  | [] | .callback::_ => true
  | .dispatch _::_ => false

/-- The dispatches that an exception goes through before it gets to a function of the script. -/
def cut (k : List Frame) : List Frame := k.takeWhile (· ≠ .callback)

/-- One iteration of the loop of `dispatchEvent`, or its beginning or end. -/
def advance (w : World C R) : Option (World C R) :=
  match w.stack with
  | .dispatch s::k =>
    match (w.signals s).stage with
    | .slicing => some (w.set s (w.signals s).slice)
    | .looping [] => some { w.set s (w.signals s).finish with stack := k }
    | .looping (e::rest) =>
      let w' := w.set s ((w.signals s).call e rest)
      match e.fn with
      | .callback _ => some (w'.push [.callback])
      | .follow f => some (w'.signalAbort f (w.signals s).reason)
    | .idle | .ended => none
  | _ => none

end World

def step [DecidableEq C] (w : World C R) : Action C R → Option (World C R)
  | .create controlled =>
    if w.running then some { w.set w.count { controlled } with count := w.count+1 } else none
  | .follow f p =>
    if w.running ∧ f < w.count ∧ p < w.count ∧ (w.signals f).controlled = false ∧
      (w.signals f).parent = none then some (w.follow f p)
    else none
  | .add s c =>
    if w.running ∧ s < w.count then
      some (w.set s ((w.signals s).addEventListener (.callback c)))
    else none
  | .remove s c =>
    if w.running ∧ s < w.count then some (w.set s ((w.signals s).removeEventListener c)) else none
  | .setOnabort s handler =>
    if w.running ∧ s < w.count then some (w.set s { w.signals s with onabort := handler }) else none
  | .abort s reason =>
    if w.running ∧ s < w.count ∧ (w.signals s).controlled then some (w.signalAbort s reason)
    else none
  | .ret =>
    match w.stack with
    | .callback::k => some { w with stack := k }
    | _ => none
  | .throw =>
    match w.stack with
    | .callback::k => some {
        w with
        signals := fun s => if .dispatch s ∈ World.cut k then (w.signals s).finish else w.signals s
        stack := k.dropWhile (· ≠ .callback) }
    | _ => none
  | .advance => w.advance

def start : World C R := {}

/-- What holds of a signal whatever the script does. A listener registered when it aborted is, as
long as the dispatch is under way, called, to be called, or removed. -/
structure Signal.Ok (σ : Signal C R) : Prop where
  fresh : ∀ e ∈ σ.listeners++σ.early, e.id < σ.next
  listeners : σ.listeners.Nodup
  once : (σ.called++σ.left).Nodup
  idle : σ.aborted = false ↔ σ.stage = .idle
  unheard : σ.aborted = false → σ.called = [] ∧ σ.early = []
  before : σ.stage = .slicing → σ.called = []
  covered : σ.inDispatch → ∀ e ∈ σ.atAbort, e ∈ σ.called ∨ e ∈ σ.left ∨ e ∈ σ.early

/-- A listener registered when the signal aborted has been called or was removed, once the
dispatch is over. -/
def Signal.Done (σ : Signal C R) : Prop :=
  σ.stage = .ended → ∀ e ∈ σ.atAbort, e ∈ σ.called ∨ e ∈ σ.early

/-- What was removed before its turn is not called, now or later. -/
def Signal.Strict (σ : Signal C R) : Prop :=
  ∀ e ∈ σ.early, e ∉ σ.called ∧ e ∉ σ.left ∧ e ∉ σ.listeners

namespace Signal

variable {σ : Signal C R}

theorem ok_new (controlled : Bool) : ({ controlled } : Signal C R).Ok :=
  ⟨by simp,List.nodup_nil,List.nodup_nil,by simp,by simp,by simp,by simp [inDispatch]⟩

theorem ok_signalAbort (h : σ.Ok) (hu : σ.aborted = false) (s : ℕ) (r : Option (Reason R)) :
    (σ.signalAbort s r).Ok := by
  obtain ⟨hcalled,hearly⟩ := h.unheard hu
  refine ⟨h.fresh,h.listeners,?_,by simp [signalAbort],by simp [signalAbort],fun _ => hcalled,?_⟩
  · simpa [signalAbort,left,hcalled] using h.listeners
  · exact fun _ e he => .inr (.inl he)

theorem ok_add (h : σ.Ok) (fn : Listener C) : (σ.addEventListener fn).Ok := by
  have hnew : ∀ e ∈ σ.listeners, e ≠ ⟨σ.next,fn⟩ := by
    rintro e he rfl
    exact Nat.lt_irrefl _ (h.fresh _ (List.mem_append_left _ he))
  have hnodup : (σ.listeners++[(⟨σ.next,fn⟩ : Entry C)]).Nodup :=
    h.listeners.append (List.nodup_singleton _) (List.disjoint_singleton.mpr fun he => hnew _ he rfl)
  refine ⟨?_,hnodup,?_,h.idle,h.unheard,h.before,?_⟩
  · intro e he
    simp only [addEventListener,List.mem_append,List.mem_singleton] at he
    rcases he with (he | rfl) | he
    · exact Nat.lt_succ_of_lt (h.fresh e (List.mem_append_left _ he))
    · exact Nat.lt_succ_self _
    · exact Nat.lt_succ_of_lt (h.fresh e (List.mem_append_right _ he))
  · have honce := h.once
    cases hs : σ.stage with
    | slicing => simpa [addEventListener,left,hs,h.before hs] using hnodup
    | _ => simpa [addEventListener,left,hs] using honce
  · intro hd e he
    have hcovered := h.covered hd e he
    cases hs : σ.stage with
    | slicing =>
      simp only [left,hs] at hcovered
      simp only [addEventListener,left,hs,List.mem_append]
      tauto
    | _ => simpa [addEventListener,left,hs] using hcovered

theorem ok_remove [DecidableEq C] (h : σ.Ok) (c : C) : (σ.removeEventListener c).Ok := by
  have hnodup : (σ.listeners.filter (·.fn ≠ .callback c)).Nodup := h.listeners.filter _
  refine ⟨?_,hnodup,?_,h.idle,?_,h.before,?_⟩
  · intro e he
    simp only [removeEventListener,List.mem_append] at he
    rcases he with he | he
    · exact h.fresh e (List.mem_append_left _ (List.mem_of_mem_filter he))
    · split at he
      · rcases List.mem_append.mp he with he | he
        · exact h.fresh e (List.mem_append_right _ he)
        · exact h.fresh e (List.mem_append_left _
            (List.mem_of_mem_filter (List.mem_of_mem_filter he)))
      · exact h.fresh e (List.mem_append_right _ he)
  · have honce := h.once
    cases hs : σ.stage with
    | slicing => simpa [removeEventListener,left,hs,h.before hs] using hnodup
    | _ => simpa [removeEventListener,left,hs] using honce
  · intro hu
    obtain ⟨hcalled,hearly⟩ := h.unheard hu
    have hidle := h.idle.mp hu
    simp [removeEventListener,hcalled,hearly,inDispatch,hidle]
  · intro hd e he
    have hcovered := h.covered hd e he
    have hin : σ.inDispatch = true := hd
    cases hs : σ.stage with
    | slicing =>
      simp only [left,hs] at hcovered
      simp only [removeEventListener,left,hs,hin,if_true,List.mem_append,List.mem_filter,
        decide_eq_true_eq]
      tauto
    | _ =>
      simp only [removeEventListener,left,hs,hin,if_true,List.mem_append] at hcovered ⊢
      tauto

theorem ok_slice (h : σ.Ok) (hs : σ.stage = .slicing) : σ.slice.Ok := by
  have honce := h.once
  have hcovered := h.covered (by simp [inDispatch,hs])
  have hidle := h.idle
  simp only [left,hs,reduceCtorEq,iff_false] at honce hcovered hidle
  exact ⟨h.fresh,h.listeners,honce,by simpa [slice] using hidle,h.unheard,by simp [slice],
    fun _ => hcovered⟩

theorem ok_call (h : σ.Ok) {e : Entry C} {rest : List (Entry C)}
    (hs : σ.stage = .looping (e::rest)) : (σ.call e rest).Ok := by
  have honce := h.once
  have hcovered := h.covered (by simp [inDispatch,hs])
  have hidle := h.idle
  simp only [left,hs,reduceCtorEq,iff_false] at honce hcovered hidle
  refine ⟨h.fresh,h.listeners,by simpa [call,left] using honce,by simpa [call] using hidle,
    fun hu => absurd hu hidle,by simp [call],fun _ x hx => ?_⟩
  have hx := hcovered x hx
  simp only [call,left,List.mem_append,List.mem_cons,List.not_mem_nil,or_false] at hx ⊢
  tauto

theorem ok_finish (h : σ.Ok) (hd : σ.inDispatch = true) : σ.finish.Ok := by
  have hstage : σ.stage ≠ .idle := by
    intro hs
    simp [inDispatch,hs] at hd
  have haborted : σ.aborted ≠ false := fun hu => hstage (h.idle.mp hu)
  refine ⟨h.fresh,h.listeners,?_,by simpa [finish] using haborted,h.unheard,by simp [finish],
    by simp [finish,inDispatch]⟩
  simpa [finish,left] using h.once.of_append_left

theorem done_finish_iff (h : σ.Ok) (hd : σ.inDispatch = true) :
    σ.finish.Done ↔ ∀ e ∈ σ.left, e ∈ σ.atAbort → e ∈ σ.early := by
  constructor
  · intro hdone e hleft he
    refine (hdone rfl e he).resolve_left fun hcalled => ?_
    exact List.disjoint_of_nodup_append h.once hcalled hleft
  · intro hleft _ e he
    rcases h.covered hd e he with hcalled | hl | hearly
    · exact .inl hcalled
    · exact .inr (hleft e hl he)
    · exact .inr hearly

/-- What one statement does to the signal `s`, if it neither removes listeners nor throws. -/
inductive Move (s : ℕ) : Signal C R → Signal C R → Prop
  | create (controlled : Bool) : Move s {} { controlled }
  | adopt (σ : Signal C R) (p : ℕ) : Move s σ { σ with parent := some p }
  | handler (σ : Signal C R) (c : Option C) : Move s σ { σ with onabort := c }
  | add (σ : Signal C R) (fn : Listener C) : Move s σ (σ.addEventListener fn)
  | signalAbort (σ : Signal C R) (r : Option (Reason R)) (h : σ.aborted = false) :
    Move s σ (σ.signalAbort s r)
  | slice (σ : Signal C R) (h : σ.stage = .slicing) : Move s σ σ.slice
  | call (σ : Signal C R) {e : Entry C} {rest : List (Entry C)}
    (h : σ.stage = .looping (e::rest)) : Move s σ (σ.call e rest)
  | finish (σ : Signal C R) (h : σ.stage = .looping []) : Move s σ σ.finish

/-- What a step does to the signal `s`. -/
inductive Change [DecidableEq C] (s : ℕ) (removes : C → Prop) (throws : Prop) (σ : Signal C R) :
    Signal C R → Prop
  | moves {τ : Signal C R} (h : Relation.ReflTransGen (Move s) σ τ) : Change s removes throws σ τ
  | remove (c : C) (h : removes c) : Change s removes throws σ (σ.removeEventListener c)
  | cut (h : throws) (hd : σ.inDispatch = true) : Change s removes throws σ σ.finish

variable {τ : Signal C R} {s : ℕ}

theorem Move.ok (hm : Move s σ τ) (h : σ.Ok) : τ.Ok := by
  cases hm with
  | create controlled => exact ok_new controlled
  | adopt _ p => exact ⟨h.fresh,h.listeners,h.once,h.idle,h.unheard,h.before,h.covered⟩
  | handler _ c => exact ⟨h.fresh,h.listeners,h.once,h.idle,h.unheard,h.before,h.covered⟩
  | add _ fn => exact ok_add h fn
  | signalAbort _ r hu => exact ok_signalAbort h hu s r
  | slice _ hs => exact ok_slice h hs
  | call _ hs => exact ok_call h hs
  | finish _ hs => exact ok_finish h (by simp [inDispatch,hs])

/-- What is left of a signal whose dispatch is over. -/
structure Same (σ τ : Signal C R) : Prop where
  stage : τ.stage = .ended
  atAbort : τ.atAbort = σ.atAbort
  called : τ.called = σ.called
  early : τ.early = σ.early

theorem Same.done_iff (h : Same σ τ) (hs : σ.stage = .ended) : τ.Done ↔ σ.Done := by
  simp [Done,h.stage,h.atAbort,h.called,h.early,hs]

theorem Move.ended (hm : Move s σ τ) (h : σ.Ok) (hs : σ.stage = .ended) : Same σ τ := by
  cases hm with
  | create controlled => cases hs
  | signalAbort _ r hu =>
    rw [h.idle.mp hu] at hs
    cases hs
  | slice _ hs' | call _ hs' | finish _ hs' =>
    rw [hs] at hs'
    cases hs'
  | _ => exact ⟨hs,rfl,rfl,rfl⟩

theorem Move.done (hm : Move s σ τ) (h : σ.Ok) (hd : σ.Done) : τ.Done := by
  by_cases hs : σ.stage = .ended
  · exact ((hm.ended h hs).done_iff hs).mpr hd
  · cases hm with
    | finish _ hs' =>
      refine (done_finish_iff h (by simp [inDispatch,hs'])).mpr fun e he => ?_
      simp [left,hs'] at he
    | create controlled => exact fun hs => nomatch hs
    | signalAbort _ r hu => exact fun hs => nomatch hs
    | slice _ hs' => exact fun hs => nomatch hs
    | call _ hs' => exact fun hs => nomatch hs
    | _ => exact fun hover => absurd hover hs

theorem Move.strict (hm : Move s σ τ) (h : σ.Ok) (hst : σ.Strict) : τ.Strict := by
  intro e he
  cases hm with
  | create controlled => cases he
  | adopt _ p => exact hst e he
  | handler _ c => exact hst e he
  | add _ fn =>
    obtain ⟨hcalled,hleft,hlisteners⟩ := hst e he
    have hnew : e ∉ (σ.addEventListener fn).listeners := by
      simp only [addEventListener,List.mem_append,List.mem_singleton,not_or]
      refine ⟨hlisteners,?_⟩
      rintro rfl
      exact Nat.lt_irrefl _ (h.fresh _ (List.mem_append_right _ he))
    refine ⟨hcalled,?_,hnew⟩
    cases hs : σ.stage with
    | slicing => simpa only [addEventListener,left,hs] using hnew
    | _ => simpa only [addEventListener,left,hs] using hleft
  | signalAbort _ r hu =>
    have hearly : e ∈ σ.early := he
    rw [(h.unheard hu).2] at hearly
    cases hearly
  | slice _ hs =>
    obtain ⟨hcalled,-,hlisteners⟩ := hst e he
    exact ⟨hcalled,hlisteners,hlisteners⟩
  | call _ hs =>
    obtain ⟨hcalled,hleft,hlisteners⟩ := hst e he
    simp only [left,hs,List.mem_cons,not_or] at hleft
    refine ⟨fun hmem => ?_,hleft.2,hlisteners⟩
    rcases List.mem_append.mp hmem with hmem | hmem
    · exact hcalled hmem
    · exact hleft.1 (List.mem_singleton.mp hmem)
  | finish _ hs =>
    obtain ⟨hcalled,-,hlisteners⟩ := hst e he
    exact ⟨hcalled,List.not_mem_nil,hlisteners⟩

theorem moves_keep {P : Signal C R → Prop} (hkeep : ∀ σ τ, Move s σ τ → σ.Ok → P σ → P τ)
    (hm : Relation.ReflTransGen (Move s) σ τ) (h : σ.Ok) (hP : P σ) : τ.Ok ∧ P τ := by
  induction hm with
  | refl => exact ⟨h,hP⟩
  | tail _ hm ih => exact ⟨hm.ok ih.1,hkeep _ _ hm ih.1 ih.2⟩

variable [DecidableEq C] {removes : C → Prop} {throws : Prop}

theorem Change.ok (hc : Change s removes throws σ τ) (h : σ.Ok) : τ.Ok := by
  cases hc with
  | moves hm => exact (moves_keep (P := fun _ => True) (fun _ _ _ _ _ => trivial) hm h trivial).1
  | remove c _ => exact ok_remove h c
  | cut _ hd => exact ok_finish h hd

theorem Change.ended (hc : Change s removes throws σ τ) (h : σ.Ok) (hs : σ.stage = .ended) :
    Same σ τ := by
  cases hc with
  | moves hm =>
    refine (moves_keep (P := Same σ) (fun ρ τ hm hok hsame => ?_) hm h ⟨hs,rfl,rfl,rfl⟩).2
    obtain ⟨hover,hat,hcalled,hearly⟩ := hm.ended hok hsame.stage
    exact ⟨hover,hat.trans hsame.atAbort,hcalled.trans hsame.called,hearly.trans hsame.early⟩
  | remove c _ => exact ⟨hs,rfl,rfl,by simp [removeEventListener,inDispatch,hs]⟩
  | cut _ hd => simp [inDispatch,hs] at hd

theorem Change.not_done (hc : Change s removes throws σ τ) (h : σ.Ok) (hd : ¬ σ.Done) :
    ¬ τ.Done := by
  have hs : σ.stage = .ended := by
    by_contra hs
    exact hd fun hover => absurd hover hs
  rwa [(hc.ended h hs).done_iff hs]

theorem Change.done (hc : Change s removes throws σ τ) (h : σ.Ok) (hd : σ.Done)
    (hcut : throws → ∀ e ∈ σ.left, e ∈ σ.atAbort → e ∈ σ.early) : τ.Done := by
  cases hc with
  | moves hm => exact (moves_keep (P := Done) (fun _ _ hm hok hd => hm.done hok hd) hm h hd).2
  | remove c _ =>
    intro hs e he
    have hstage : σ.stage = .ended := hs
    simpa [removeEventListener,inDispatch,hstage] using hd hstage e he
  | cut ht hin => exact (done_finish_iff h hin).mpr (hcut ht)

theorem Change.strict (hc : Change s removes throws σ τ) (h : σ.Ok) (hst : σ.Strict)
    (hlate : ∀ c, removes c → ∀ e ∈ σ.listeners, e.fn = .callback c → σ.stage ≠ .slicing →
      e ∉ σ.left) : τ.Strict := by
  cases hc with
  | moves hm => exact (moves_keep (P := Strict) (fun _ _ hm hok hst => hm.strict hok hst) hm h hst).2
  | cut _ hin =>
    intro e he
    obtain ⟨hcalled,-,hlisteners⟩ := hst e he
    exact ⟨hcalled,List.not_mem_nil,hlisteners⟩
  | remove c hc =>
    intro e he
    -- an entry that stays is not in the list that shrinks, one that goes is not to be called
    have hshrinks : ∀ x ∈ (σ.removeEventListener c).listeners,
        x ∈ σ.listeners ∧ x.fn ≠ .callback c := by
      intro x hx
      simpa [removeEventListener] using hx
    have hcases : e ∈ σ.early ∨ e ∈ σ.listeners ∧ e ∉ σ.called ∧ e.fn = .callback c := by
      simp only [removeEventListener] at he
      split at he
      · simpa [List.mem_filter] using he
      · exact .inl he
    rcases hcases with hold | ⟨hmem,hcalled,hfn⟩
    · obtain ⟨hcalled,hleft,hlisteners⟩ := hst e hold
      refine ⟨hcalled,?_,fun hx => hlisteners (hshrinks e hx).1⟩
      cases hs : σ.stage with
      | slicing => simpa [removeEventListener,left,hs] using fun hx => absurd hx hlisteners
      | looping rest => simpa [removeEventListener,left,hs] using hleft
      | idle | ended => simp [removeEventListener,left,hs]
    · refine ⟨hcalled,?_,fun hx => (hshrinks e hx).2 hfn⟩
      have hlate := hlate c hc e hmem hfn
      cases hs : σ.stage with
      | slicing => simp [removeEventListener,left,hs,hfn]
      | looping rest => simpa [removeEventListener,left,hs] using hlate
      | idle | ended => simp [removeEventListener,left,hs]

end Signal

end AbortSignal
end AsioQuickjs
