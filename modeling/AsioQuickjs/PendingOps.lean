import Mathlib.Algebra.Ring.Int.Defs
import Mathlib.Tactic.Common
import AsioQuickjs.Trace

/-! The count that keeps the loop of a host running. A native counts the operation that it
starts, and the coroutine of the operation counts it off where it ends, if it gets there. -/
namespace AsioQuickjs
namespace PendingOps

/-- Where a coroutine is suspended, or which of its calls into the script goes on. -/
inductive Point
  | timeout (id : ℤ) | timeoutCall
  | interval (id : ℤ) | intervalCall (id : ℤ)
  | fetch | fetchCall
  | call | callSettled
  | dispatch | full (task : ℕ)
  | job (task : ℕ)

/-- An operation: how often it was counted off, and how often its promise was resolved or
rejected, if it is an async call. -/
structure Op where
  point : Point
  counted : ℕ := 0
  settled : ℕ := 0

def Op.isCall (op : Op) : Bool :=
  match op.point with
  | .call | .callSettled => true
  | _ => false

/-- A host; `ops` are the operations that go on, `ended` those that are over. -/
structure Host where
  pendingOps : ℤ := 0
  stopping : Bool := false
  nextTimerId : ℤ := 1
  timers : List ℤ := []
  inFlight : ℕ := 0
  maxInFlight : ℕ := 1
  ops : List Op := []
  ended : List Op := []

/-- How the adapter of an async function answers the call. -/
inductive Start
  | noCapability
  | throws
  | lazy

/-- What `co_await` of an async function brings: a value, `JS_EXCEPTION`, or what the function
has thrown. -/
inductive Awaited
  | value | exception
  | convertError | stdException
  | other
  deriving DecidableEq

namespace Host

/-- `++pending_ops` and `spawn_lazy`. -/
def spawn (h : Host) (point : Point) : Host :=
  { h with pendingOps := h.pendingOps+1, ops := h.ops++[{ point := point }] }

def goTo (h : Host) (i : ℕ) (op : Op) : Host := { h with ops := h.ops.set i op }

/-- `--pending_ops` and `co_return`. -/
def finish (h : Host) (i : ℕ) (op : Op) : Host :=
  { h with
    pendingOps := h.pendingOps-1
    ops := h.ops.eraseIdx i
    ended := h.ended++[{ op with counted := op.counted+1 }] }

/-- The coroutine ends with an exception, which `spawn_lazy` logs. -/
def fail (h : Host) (i : ℕ) (op : Op) : Host :=
  { h with ops := h.ops.eraseIdx i, ended := h.ended++[op] }

/-- `register_timer`. -/
def registerTimer (h : Host) : Host :=
  { h with nextTimerId := h.nextTimerId+1, timers := h.timers++[h.nextTimerId] }

def setTimeout (h : Host) : Host := h.registerTimer.spawn (.timeout h.nextTimerId)

def setInterval (h : Host) : Host := h.registerTimer.spawn (.interval h.nextTimerId)

/-- `cancel_timer`; the coroutine is resumed by the cancelled wait. -/
def cancelTimer (h : Host) (id : ℤ) : Host := { h with timers := h.timers.erase id }

def cancelAllTimers (h : Host) : Host := { h with timers := [] }

def shutdown (h : Host) : Host := { h with stopping := true }

def nativeFetch (h : Host) : Host := h.spawn .fetch

/-- The rest of `native_call` for an async function. -/
def nativeCall (h : Host) : Start → Host
  | .noCapability => h
  | .throws => h
  | .lazy => h.spawn .call

def startJobWorker (h : Host) : Host := h.spawn .dispatch

/-- `handle_async_call` behind its `co_await`. -/
def handleAsyncCall (h : Host) (i : ℕ) (op : Op) : Awaited → Host
  | .value | .exception | .convertError | .stdException =>
    h.goTo i { op with point := .callSettled, settled := op.settled+1 }
  | .other => h.fail i op

/-- `job_worker_loop` with an item in hand: it is spawned, unless too many are in flight. -/
def dispatch (h : Host) (i : ℕ) (op : Op) (task : ℕ) : Host :=
  if h.maxInFlight ≤ h.inFlight then h.goTo i { op with point := .full task }
  else { (h.goTo i { op with point := .dispatch }).spawn (.job task) with
    inFlight := h.inFlight+1 }

/-- A coroutine goes on behind a timer, a transfer, a call into the script or a job. -/
def resume (h : Host) (i : ℕ) (op : Op) : Option Host :=
  match op.point with
  | .timeout id =>
    if h.stopping = false ∧ id ∈ h.timers then
      some ({ h with timers := h.timers.erase id }.goTo i { op with point := .timeoutCall })
    else some (h.finish i op)
  | .timeoutCall => some (h.finish i op)
  | .interval id =>
    if h.stopping = true ∨ id ∉ h.timers then some (h.finish i op)
    else some (h.goTo i { op with point := .intervalCall id })
  | .intervalCall id =>
    if id ∉ h.timers then some (h.finish i op)
    else some (h.goTo i { op with point := .interval id })
  | .fetch => some (h.goTo i { op with point := .fetchCall })
  | .fetchCall => some (h.finish i op)
  | .call => none
  | .callSettled => some (h.finish i op)
  | .dispatch => none
  | .full task => some (h.dispatch i op task)
  -- whatever the job has come to: `execute_job` catches everything
  | .job _ => some ({ h with inFlight := h.inFlight-1 }.finish i op)

end Host

inductive Action
  | setTimeout
  | setInterval
  | clear (id : ℤ)
  | cancelAll
  | shutdown
  | fetch
  | call (start : Start)
  | startJobWorker
  | resume (i : ℕ)
  | awaited (i : ℕ) (result : Awaited)
  | received (i : ℕ) (item : Option ℕ)

def step (h : Host) : Action → Option Host
  | .setTimeout => some h.setTimeout
  | .setInterval => some h.setInterval
  | .clear id => some (h.cancelTimer id)
  | .cancelAll => some h.cancelAllTimers
  | .shutdown => some h.shutdown
  | .fetch => some h.nativeFetch
  | .call start => some (h.nativeCall start)
  | .startJobWorker => some h.startJobWorker
  | .resume i => h.ops[i]?.bind (h.resume i)
  | .awaited i result =>
    h.ops[i]?.bind fun op =>
      match op.point with
      | .call => some (h.handleAsyncCall i op result)
      | _ => none
  | .received i item =>
    h.ops[i]?.bind fun op =>
      match op.point,item with
      | .dispatch,none => some (h.finish i op)
      | .dispatch,some task => some (h.dispatch i op task)
      | _,_ => none

/-- The count is that of the operations that go on, each that is over was counted off once, and
each async call that is over has settled its promise once. -/
structure Balanced (h : Host) : Prop where
  count : h.pendingOps = h.ops.length
  early : ∀ op ∈ h.ops, op.counted = 0 ∧ op.settled ≤ 1
  once : ∀ op ∈ h.ended, op.counted = 1 ∧ (op.isCall = true → op.settled = 1)

/-- No async function throws anything but a `ConvertError` or a `std::exception`. -/
def Caught (_ : Host) (a : Action) : Prop := ∀ i, a ≠ .awaited i .other

instance (h : Host) (a : Action) : Decidable (Caught h a) :=
  match a with
  | .awaited i result =>
    if hr : result = .other then .isFalse fun hc => hc i (by rw [hr])
    else .isTrue fun j heq => hr (by cases heq; rfl)
  | .setTimeout | .setInterval | .clear _ | .cancelAll | .shutdown | .fetch | .call _
  | .startJobWorker | .resume _ | .received _ _ => .isTrue fun i heq => by cases heq

/-- An operation that goes on has not been counted off, and has settled its promise exactly if
it is past that. -/
def Going (op : Op) : Prop :=
  op.counted = 0 ∧ (op.point = .call → op.settled = 0) ∧
  (op.point = .callSettled → op.settled = 1) ∧ op.settled ≤ 1

/-- What is over was counted off, with its promise settled if it had one, or it was not. -/
def Over (op : Op) : Prop :=
  op.counted = 1 ∧ (op.isCall = true → op.settled = 1) ∨ op.counted = 0 ∧ op.isCall = true

def leaked (h : Host) : ℕ := (h.ended.filter (·.counted = 0)).length

/-- What every step keeps. -/
structure Inv (h : Host) : Prop where
  count : h.pendingOps = h.ops.length+leaked h
  going : ∀ op ∈ h.ops, Going op
  over_ : ∀ op ∈ h.ended, Over op

theorem length_eraseIdx_add_one {α : Type} {l : List α} {i : ℕ} {a : α} (h : l[i]? = some a) :
    (l.eraseIdx i).length+1 = l.length := by
  obtain ⟨hlt,-⟩ := List.getElem?_eq_some_iff.mp h
  rw [List.length_eraseIdx_of_lt hlt]
  omega

theorem Inv.frame {h g : Host} (hi : Inv h) (hpending : g.pendingOps = h.pendingOps)
    (hops : g.ops = h.ops) (hended : g.ended = h.ended) : Inv g where
  count := by rw [hpending,hops,leaked,hended]; exact hi.count
  going := by rw [hops]; exact hi.going
  over_ := by rw [hended]; exact hi.over_

theorem Inv.spawn {h : Host} (hi : Inv h) {point : Point} (hpoint : point ≠ .callSettled) :
    Inv (h.spawn point) where
  count := by
    have hcount := hi.count
    simp only [Host.spawn,leaked,List.length_append,List.length_singleton] at hcount ⊢
    omega
  going op hop := by
    rcases List.mem_append.mp hop with hop | hop
    · exact hi.going op hop
    · rw [List.mem_singleton.mp hop]
      exact ⟨rfl,fun _ => rfl,fun hsettled => absurd hsettled hpoint,Nat.zero_le 1⟩
  over_ := hi.over_

theorem Inv.goTo {h : Host} (hi : Inv h) {i : ℕ} {op : Op} (hop : Going op) :
    Inv (h.goTo i op) where
  count := by
    rw [Host.goTo,List.length_set]
    exact hi.count
  going x hx := by
    rcases List.mem_or_eq_of_mem_set hx with hx | rfl
    · exact hi.going x hx
    · exact hop
  over_ := hi.over_

@[simp] theorem leaked_finish (h : Host) (i : ℕ) (op : Op) :
    leaked (h.finish i op) = leaked h := by
  simp [leaked,Host.finish,List.filter_append]

theorem Inv.finish {h : Host} (hi : Inv h) {i : ℕ} {op : Op} (hop : h.ops[i]? = some op)
    (hpoint : op.point ≠ .call) : Inv (h.finish i op) where
  count := by
    have hcount := hi.count
    have hlen := length_eraseIdx_add_one hop
    rw [leaked_finish]
    simp only [Host.finish]
    omega
  going x hx := hi.going x (List.mem_of_mem_eraseIdx hx)
  over_ x hx := by
    obtain ⟨hcounted,-,hsettled,-⟩ := hi.going op (List.mem_of_getElem? hop)
    rcases List.mem_append.mp hx with hx | hx
    · exact hi.over_ x hx
    · rw [List.mem_singleton.mp hx]
      refine .inl ⟨by simp [hcounted],fun hcall => hsettled ?_⟩
      cases hp : op.point <;> simp_all [Op.isCall]

theorem leaked_fail {h : Host} {op : Op} (i : ℕ) (hop : op.counted = 0) :
    leaked (h.fail i op) = leaked h+1 := by
  simp [leaked,Host.fail,List.filter_append,hop]

theorem Inv.fail {h : Host} (hi : Inv h) {i : ℕ} {op : Op} (hop : h.ops[i]? = some op)
    (hpoint : op.point = .call) : Inv (h.fail i op) where
  count := by
    have hcount := hi.count
    have hlen := length_eraseIdx_add_one hop
    rw [leaked_fail i (hi.going op (List.mem_of_getElem? hop)).1]
    simp only [Host.fail]
    omega
  going x hx := hi.going x (List.mem_of_mem_eraseIdx hx)
  over_ x hx := by
    rcases List.mem_append.mp hx with hx | hx
    · exact hi.over_ x hx
    · rw [List.mem_singleton.mp hx]
      exact .inr ⟨(hi.going op (List.mem_of_getElem? hop)).1,by rw [Op.isCall,hpoint]⟩

theorem Inv.dispatch {h : Host} (hi : Inv h) {i : ℕ} {op : Op} (hop : h.ops[i]? = some op)
    (task : ℕ) : Inv (h.dispatch i op task) := by
  obtain ⟨hcounted,-,-,hle⟩ := hi.going op (List.mem_of_getElem? hop)
  rw [Host.dispatch]
  split
  · exact hi.goTo ⟨hcounted,by simp,by simp,hle⟩
  · have hnext : Inv (h.goTo i { op with point := .dispatch }) :=
      hi.goTo ⟨hcounted,by simp,by simp,hle⟩
    have hspawned : Inv ((h.goTo i { op with point := .dispatch }).spawn (.job task)) :=
      hnext.spawn (by simp)
    exact hspawned.frame rfl rfl rfl

theorem Inv.handleAsyncCall {h : Host} (hi : Inv h) {i : ℕ} {op : Op}
    (hop : h.ops[i]? = some op) (hpoint : op.point = .call) (result : Awaited) :
    Inv (h.handleAsyncCall i op result) := by
  obtain ⟨hcounted,hunsettled,-,-⟩ := hi.going op (List.mem_of_getElem? hop)
  have hsettle : Inv (h.goTo i { op with point := .callSettled, settled := op.settled+1 }) :=
    hi.goTo ⟨hcounted,by simp,by simp [hunsettled hpoint],by simp [hunsettled hpoint]⟩
  cases result with
  | value | exception | convertError | stdException => exact hsettle
  | other => exact hi.fail hop hpoint

theorem Inv.resume {h g : Host} (hi : Inv h) {i : ℕ} {op : Op} (hop : h.ops[i]? = some op)
    (hg : h.resume i op = some g) : Inv g := by
  obtain ⟨hcounted,-,-,hle⟩ := hi.going op (List.mem_of_getElem? hop)
  rw [Host.resume] at hg
  split at hg
  · next id hp =>
    split at hg
    · cases hg
      have herased : Inv { h with timers := h.timers.erase id } := hi.frame rfl rfl rfl
      exact herased.goTo ⟨hcounted,by simp,by simp,hle⟩
    · cases hg
      exact hi.finish hop (by simp [hp])
  · next hp => cases hg; exact hi.finish hop (by simp [hp])
  · next id hp =>
    split at hg
    · cases hg
      exact hi.finish hop (by simp [hp])
    · cases hg
      exact hi.goTo ⟨hcounted,by simp,by simp,hle⟩
  · next id hp =>
    split at hg
    · cases hg
      exact hi.finish hop (by simp [hp])
    · cases hg
      exact hi.goTo ⟨hcounted,by simp,by simp,hle⟩
  · cases hg
    exact hi.goTo ⟨hcounted,by simp,by simp,hle⟩
  · next hp => cases hg; exact hi.finish hop (by simp [hp])
  · cases hg
  · next hp => cases hg; exact hi.finish hop (by simp [hp])
  · cases hg
  · next task hp =>
    cases hg
    exact hi.dispatch hop task
  · next task hp =>
    cases hg
    have hless : Inv { h with inFlight := h.inFlight-1 } := hi.frame rfl rfl rfl
    exact hless.finish hop (by simp [hp])

theorem inv_step (h : Host) (a : Action) (g : Host) (hi : Inv h) (hstep : step h a = some g) :
    Inv g := by
  cases a with
  | setTimeout | setInterval =>
    cases hstep
    have hregistered : Inv h.registerTimer := hi.frame rfl rfl rfl
    exact hregistered.spawn (by simp)
  | clear id => cases hstep; exact hi.frame rfl rfl rfl
  | cancelAll => cases hstep; exact hi.frame rfl rfl rfl
  | shutdown => cases hstep; exact hi.frame rfl rfl rfl
  | fetch => cases hstep; exact hi.spawn (by simp)
  | startJobWorker => cases hstep; exact hi.spawn (by simp)
  | call start =>
    cases hstep
    cases start with
    | noCapability | throws => exact hi
    | lazy => exact hi.spawn (by simp)
  | resume i =>
    obtain ⟨op,hop,hg⟩ := Option.bind_eq_some_iff.mp hstep
    exact hi.resume hop hg
  | awaited i result =>
    obtain ⟨op,hop,hg⟩ := Option.bind_eq_some_iff.mp hstep
    split at hg
    · next hp => cases hg; exact hi.handleAsyncCall hop hp result
    · cases hg
  | received i item =>
    obtain ⟨op,hop,hg⟩ := Option.bind_eq_some_iff.mp hstep
    split at hg
    · next hp => cases hg; exact hi.finish hop (by simp [hp])
    · cases hg; exact hi.dispatch hop _
    · cases hg

theorem inv_init (maxInFlight : ℕ) : Inv { maxInFlight := maxInFlight } where
  count := rfl
  going := by simp
  over_ := by simp

theorem balanced_iff {h : Host} (hi : Inv h) : Balanced h ↔ leaked h = 0 := by
  rw [leaked,List.length_eq_zero_iff,List.filter_eq_nil_iff]
  constructor
  · intro hb op hop
    simp [(hb.once op hop).1]
  · intro hnone
    refine ⟨?_,fun op hop => ?_,fun op hop => ?_⟩
    · have hcount := hi.count
      rwa [leaked,List.filter_eq_nil_iff.mpr hnone,List.length_nil,Nat.cast_zero,add_zero]
        at hcount
    · obtain ⟨hcounted,-,-,hle⟩ := hi.going op hop
      exact ⟨hcounted,hle⟩
    · exact (hi.over_ op hop).resolve_right fun h => hnone op hop (by simp [h.1])

theorem leaked_dispatch (h : Host) (i : ℕ) (op : Op) (task : ℕ) :
    leaked (h.dispatch i op task) = leaked h := by
  rw [Host.dispatch]
  split <;> rfl

theorem leaked_resume {h g : Host} {i : ℕ} {op : Op} (hg : h.resume i op = some g) :
    leaked g = leaked h := by
  rw [Host.resume] at hg
  split at hg
  · split at hg
    · cases hg; rfl
    · cases hg; exact leaked_finish h i op
  · cases hg; exact leaked_finish h i op
  · split at hg
    · cases hg; exact leaked_finish h i op
    · cases hg; rfl
  · split at hg
    · cases hg; exact leaked_finish h i op
    · cases hg; rfl
  · cases hg; rfl
  · cases hg; exact leaked_finish h i op
  · cases hg
  · cases hg; exact leaked_finish h i op
  · cases hg
  · cases hg; exact leaked_dispatch h i op _
  · cases hg; exact leaked_finish { h with inFlight := h.inFlight-1 } i op

theorem leaked_caught {h g : Host} {a : Action} (hC : Caught h a) (hstep : step h a = some g) :
    leaked g = leaked h := by
  cases a with
  | awaited i result =>
    obtain ⟨op,-,hg⟩ := Option.bind_eq_some_iff.mp hstep
    split at hg
    · cases hg
      cases result with
      | other => exact absurd rfl (hC i)
      | value | exception | convertError | stdException => rfl
    · cases hg
  | call start =>
    cases hstep
    cases start <;> rfl
  | resume i =>
    obtain ⟨op,-,hg⟩ := Option.bind_eq_some_iff.mp hstep
    exact leaked_resume hg
  | received i item =>
    obtain ⟨op,-,hg⟩ := Option.bind_eq_some_iff.mp hstep
    split at hg
    · cases hg; exact leaked_finish h i op
    · cases hg; exact leaked_dispatch h i op _
    · cases hg
  | setTimeout | setInterval | clear id | cancelAll | shutdown | fetch | startJobWorker =>
    cases hstep
    rfl

theorem leaked_other {h g : Host} {i : ℕ} (hi : Inv h)
    (hstep : step h (.awaited i .other) = some g) : leaked g = leaked h+1 := by
  obtain ⟨op,hop,hg⟩ := Option.bind_eq_some_iff.mp hstep
  split at hg
  · cases hg
    exact leaked_fail i (hi.going op (List.mem_of_getElem? hop)).1
  · cases hg

theorem leaked_le {h g : Host} {a : Action} (hi : Inv h) (hstep : step h a = some g) :
    leaked h ≤ leaked g := by
  by_cases hC : Caught h a
  · exact Nat.le_of_eq (leaked_caught hC hstep).symm
  · obtain ⟨i,rfl⟩ := not_forall_not.mp hC
    rw [leaked_other hi hstep]
    exact Nat.le_succ _

end PendingOps
end AsioQuickjs
