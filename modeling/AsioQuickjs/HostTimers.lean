import Mathlib.Logic.Function.Basic
import AsioQuickjs.Bytes
import AsioQuickjs.Trace

/-! The timers of a host: `setTimeout`, `setInterval`, the coroutine each of them starts
and the table `active_timers_` through which they are cancelled. JavaScript may register
and clear between any two steps, so also inside a callback. -/
namespace AsioQuickjs
namespace HostTimers

/-- What an `int32_t` holds of it. -/
def int32 (z : ℤ) : ℤ := z.bmod (2^32)

inductive Kind
  | timeout | interval
  deriving DecidableEq

/-- Where the coroutine is: posted by `spawn_lazy`, in `async_wait`, with the completion
of its wait queued, in the callback, at its end. -/
inductive Stage
  | posted | armed | ready | calling | done
  deriving DecidableEq

structure Timer where
  kind : Kind := .timeout
  id : ℤ := 0
  stage : Stage := .done
  calls : ℕ := 0

/-- Timers are numbered as they are registered. -/
structure Host where
  nextTimerId : ℤ := 1
  activeTimers : ℤ → Option ℕ := fun _ => none
  timers : ℕ → Timer := fun _ => {}
  registered : ℕ := 0
  stopping : Bool := false
  pendingOps : ℤ := 0

namespace Host

def setTimer (h : Host) (n : ℕ) (t : Timer) : Host :=
  { h with timers := Function.update h.timers n t }

def setStage (h : Host) (n : ℕ) (s : Stage) : Host :=
  h.setTimer n { h.timers n with stage := s }

/-- The table lookup of `register_timer` and the coroutine that its caller spawns. -/
def registerTimer (h : Host) (kind : Kind) : Host :=
  { h.setTimer h.registered { kind := kind, id := h.nextTimerId, stage := .posted } with
    nextTimerId := int32 (h.nextTimerId+1)
    activeTimers := Function.update h.activeTimers h.nextTimerId (some h.registered)
    registered := h.registered+1
    pendingOps := h.pendingOps+1 }

/-- `timer->cancel()` completes a wait that is pending. -/
def interrupt (h : Host) (n : ℕ) : Host :=
  if (h.timers n).stage = .armed then h.setStage n .ready else h

def cancelTimer (h : Host) (id : ℤ) : Host :=
  match h.activeTimers id with
  | none => h
  | some n => { h with activeTimers := Function.update h.activeTimers id none }.interrupt n

def timerIsActive (h : Host) (id : ℤ) : Bool := (h.activeTimers id).isSome

/-- The keys of `active_timers_`. -/
def activeIds (h : Host) : List ℤ :=
  ((List.range h.registered).map fun n => (h.timers n).id).filter h.timerIsActive

def cancelAllTimers (h : Host) : Host := h.activeIds.foldl cancelTimer h

def eraseTimerIfActive (h : Host) (id : ℤ) : Bool × Host :=
  if h.timerIsActive id then
    (true,{ h with activeTimers := Function.update h.activeTimers id none })
  else (false,h)

def call (h : Host) (n : ℕ) : Host :=
  h.setTimer n { h.timers n with stage := .calling, calls := (h.timers n).calls+1 }

def finish (h : Host) (n : ℕ) : Host :=
  { h.setStage n .done with pendingOps := h.pendingOps-1 }

/-- What `timeout_coro` and `interval_coro` do when their wait completes. Its handler
resumes them in place. -/
def resume (h : Host) (n : ℕ) : Host :=
  match (h.timers n).kind with
  | .timeout =>
    if h.stopping then h.finish n
    else
      match h.eraseTimerIfActive (h.timers n).id with
      | (true,g) => g.call n
      | (false,g) => g.finish n
  | .interval =>
    if h.stopping || !h.timerIsActive (h.timers n).id then h.finish n else h.call n

/-- What they do after the callback and `drain_jobs`. -/
def endCall (h : Host) (n : ℕ) : Host :=
  match (h.timers n).kind with
  | .timeout => h.finish n
  | .interval => if h.timerIsActive (h.timers n).id then h.setStage n .armed else h.finish n

end Host

inductive Action
  | setTimeout | setInterval | clear (id : ℤ)
  | arm (n : ℕ) | expire (n : ℕ) | resume (n : ℕ) | endCall (n : ℕ)
  | cancelAllTimers | shutdown
  deriving DecidableEq

/-- A step of the coroutine `n`, which is at the stage. -/
def onTimer (h : Host) (n : ℕ) (s : Stage) (g : Host) : Option Host :=
  if n < h.registered ∧ (h.timers n).stage = s then some g else none

def step (h : Host) : Action → Option Host
  | .setTimeout => some (h.registerTimer .timeout)
  | .setInterval => some (h.registerTimer .interval)
  | .clear id => some (h.cancelTimer id)
  | .arm n => onTimer h n .posted (h.setStage n .armed)
  | .expire n => onTimer h n .armed (h.setStage n .ready)
  | .resume n => onTimer h n .ready (h.resume n)
  | .endCall n => onTimer h n .calling (h.endCall n)
  | .cancelAllTimers => some h.cancelAllTimers
  | .shutdown => some { h with stopping := true }

def start : Host := {}

def run (h : Host) (as : List Action) : Option Host := Trace.run step h as

theorem of_onTimer {h f g : Host} {n : ℕ} {s : Stage} (hf : onTimer h n s f = some g) :
    n < h.registered ∧ (h.timers n).stage = s ∧ f = g := by
  simp only [onTimer,Option.ite_none_right_eq_some,Option.some.injEq] at hf
  exact ⟨hf.1.1,hf.1.2,hf.2⟩

namespace Host

theorem registerTimer_new (h : Host) (kind : Kind) :
    (h.registerTimer kind).timers h.registered =
      { kind := kind, id := h.nextTimerId, stage := .posted } :=
  Function.update_self ..

theorem registerTimer_of_ne (h : Host) (kind : Kind) {n : ℕ} (hn : n ≠ h.registered) :
    (h.registerTimer kind).timers n = h.timers n :=
  Function.update_of_ne hn ..

theorem registerTimer_active (h : Host) (kind : Kind) {id : ℤ} (hid : id ≠ h.nextTimerId) :
    (h.registerTimer kind).activeTimers id = h.activeTimers id :=
  Function.update_of_ne hid ..

end Host

theorem id_of_update {h g : Host} {n : ℕ} {t : Timer}
    (htimers : g.timers = Function.update h.timers n t) (hid : t.id = (h.timers n).id) (m : ℕ) :
    (g.timers m).id = (h.timers m).id := by
  rw [htimers,Function.update_apply]
  split
  · next hm => rw [hid,hm]
  · rfl

theorem int32_of_lt {n : ℕ} (h : n < 2^31) : int32 n = n := by
  simp only [int32,Int.bmod_def]
  omega

/-- The table knows each timer by its own id, and the ids count the registrations. -/
structure Ids (h : Host) : Prop where
  next : h.nextTimerId = int32 (h.registered+1 : ℕ)
  ids : ∀ n < h.registered, (h.timers n).id = int32 (n+1 : ℕ)
  active : ∀ id n, h.activeTimers id = some n → n < h.registered ∧ (h.timers n).id = id

theorem ids_start : Ids start := by
  refine ⟨?_,by simp [start],by simp [start]⟩
  rw [int32_of_lt] <;> simp [start]

theorem Ids.distinct {h : Host} (hi : Ids h) (hlimit : h.registered < 2^31) {i j : ℕ}
    (hil : i < h.registered) (hjl : j < h.registered)
    (he : (h.timers i).id = (h.timers j).id) : i = j := by
  rw [hi.ids i hil,hi.ids j hjl,int32_of_lt (by omega),int32_of_lt (by omega)] at he
  omega

theorem Ids.fresh {h : Host} (hi : Ids h) (hlimit : h.registered+1 < 2^31) {n : ℕ}
    (hn : n < h.registered) : (h.timers n).id ≠ h.nextTimerId := by
  rw [hi.ids n hn,hi.next,int32_of_lt (by omega),int32_of_lt hlimit]
  omega

def Stage.waiting : Stage → Bool
  | .posted | .armed | .ready => true
  | _ => false

/-- The same timer, as far as its callback is concerned. -/
structure Same (t u : Timer) : Prop where
  kind : u.kind = t.kind
  id : u.id = t.id
  calls : u.calls = t.calls
  waiting : u.stage.waiting = t.stage.waiting
  calling : u.stage = .calling ↔ t.stage = .calling

theorem Same.refl (t : Timer) : Same t t := ⟨rfl,rfl,rfl,rfl,Iff.rfl⟩

theorem same_setStage {h : Host} {n : ℕ} {s : Stage} (hn : (h.timers n).stage.waiting = true)
    (hs : s.waiting = true) (i : ℕ) : Same (h.timers i) ((h.setStage n s).timers i) := by
  by_cases hi : i = n
  · subst hi
    have hcalling : s ≠ .calling ∧ (h.timers i).stage ≠ .calling := by
      constructor <;> rintro he <;> simp [he,Stage.waiting] at hs hn
    constructor <;> simp [Host.setStage,Host.setTimer,hn,hs,hcalling]
  · simpa [Host.setStage,Host.setTimer,Function.update_of_ne hi] using Same.refl _

/-- What `cancel_timer` leaves as it was. -/
structure Cancels (h g : Host) (id : ℤ) : Prop where
  same : ∀ n, Same (h.timers n) (g.timers n)
  activeTimers : g.activeTimers = Function.update h.activeTimers id none
  others : g.registered = h.registered ∧ g.nextTimerId = h.nextTimerId ∧
    g.stopping = h.stopping ∧ g.pendingOps = h.pendingOps

theorem cancels (h : Host) (id : ℤ) : Cancels h (h.cancelTimer id) id := by
  cases ha : h.activeTimers id with
  | none =>
    have hsame : h.cancelTimer id = h := by simp [Host.cancelTimer,ha]
    rw [hsame]
    refine ⟨fun n => Same.refl _,?_,rfl,rfl,rfl,rfl⟩
    rw [← ha,Function.update_eq_self]
  | some n =>
    simp only [Host.cancelTimer,ha,Host.interrupt]
    split
    · next harmed =>
      have hwaiting : (h.timers n).stage.waiting = true := by
        rw [show (h.timers n).stage = .armed from harmed]
        rfl
      exact ⟨same_setStage (h := { h with
        activeTimers := Function.update h.activeTimers id none }) hwaiting rfl,rfl,rfl,rfl,rfl,rfl⟩
    · exact ⟨fun n => Same.refl _,rfl,rfl,rfl,rfl,rfl⟩

theorem Cancels.ids {h g : Host} {id : ℤ} (hc : Cancels h g id) (hi : Ids h) : Ids g := by
  obtain ⟨hreg,hnext,-,-⟩ := hc.others
  refine ⟨?_,?_,?_⟩
  · rw [hreg,hnext]
    exact hi.next
  · intro n hn
    rw [hreg] at hn
    rw [(hc.same n).id,hi.ids n hn]
  · intro i n hn
    rw [hc.activeTimers] at hn
    by_cases he : i = id
    · simp [he] at hn
    · rw [Function.update_of_ne he] at hn
      rw [hreg,(hc.same n).id]
      exact hi.active i n hn

theorem Ids.change {h g : Host} (hi : Ids h) {n : ℕ} {t : Timer}
    (htimers : g.timers = Function.update h.timers n t) (hid : t.id = (h.timers n).id)
    (hactive : ∀ i m, g.activeTimers i = some m → h.activeTimers i = some m)
    (hothers : g.registered = h.registered ∧ g.nextTimerId = h.nextTimerId) : Ids g := by
  have hids := id_of_update htimers hid
  obtain ⟨hreg,hnext⟩ := hothers
  refine ⟨?_,?_,?_⟩
  · rw [hreg,hnext]
    exact hi.next
  · intro m hm
    rw [hreg] at hm
    rw [hids,hi.ids m hm]
  · intro i m hm
    rw [hreg,hids]
    exact hi.active i m (hactive i m hm)

end HostTimers
end AsioQuickjs
