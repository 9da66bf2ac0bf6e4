import AsioQuickjs.Mailbox
import AsioQuickjs.Trace
import Mathlib.Data.List.Nodup
import Mathlib.Data.Int.Notation
import Mathlib.Data.Nat.Notation
import Mathlib.Tactic.Common

/-! The mpsc channel of `src/channel.hpp`. Each critical section is one
function on `MpscState`; the system below interleaves the sections of any number
of sender handles with the three sections of the single consumer's `recv` and
with the wakeups that run outside the lock. -/
namespace AsioQuickjs
namespace Channel

/-- `detail::mpsc_state`. A coroutine handle is identified with the number of
the suspension it was registered for. -/
structure MpscState (T E : Type) where
  queue : List T := []
  waiter : Option ℕ := none
  waiterEx : Option E := none
  senders : ℤ := 1
  closed : Bool := false

variable {T E : Type}

/-- The handle and executor a critical section hands to `wake_waiter`. -/
abbrev Taken (E : Type) := Option ℕ × Option E

namespace MpscState

def closeLocked (st : MpscState T E) : Taken E × MpscState T E :=
  if st.closed then ((none,none),st)
  else ((st.waiter,st.waiterEx),{ st with closed := true, waiter := none, waiterEx := none })

/-- The locked part of `Sender::send`. -/
def send (st : MpscState T E) (value : T) : Bool × Taken E × MpscState T E :=
  if st.closed then (false,(none,none),st)
  else (true,(st.waiter,st.waiterEx),
    { st with queue := st.queue++[value], waiter := none, waiterEx := none })

def awaitReady (st : MpscState T E) : Bool := !st.queue.isEmpty || st.closed

def awaitSuspend (st : MpscState T E) (h : ℕ) (ex : Option E) : Bool × MpscState T E :=
  if !st.queue.isEmpty || st.closed then (false,st)
  else (true,{ st with waiter := some h, waiterEx := ex })

def awaitResume (st : MpscState T E) : Option T × MpscState T E :=
  match st.queue with
  | v::q => (some v,{ st with queue := q })
  | [] => (none,st)

/-- The locked part of `Receiver::try_recv`. -/
def tryRecv (st : MpscState T E) : Option T × MpscState T E :=
  match st.queue with
  | [] => (none,st)
  | v::q => (some v,{ st with queue := q })

end MpscState

/-- A pending `wake_waiter(handle, ex)`. -/
structure Wake (E : Type) where
  handle : ℕ
  ex : Option E
  deriving DecidableEq

/-- Where the consumer coroutine stands. `suspending` lies between
`await_ready` answering false and `await_suspend`; `broken` is reached by
resuming a coroutine that is not suspended. -/
inductive Consumer (E : Type)
  | running | suspending (ex : Option E) | suspended | resuming | gone | broken
  deriving DecidableEq

structure Sys (T E : Type) where
  st : MpscState T E := {}
  /-- Live `Sender` handles. -/
  handles : ℕ := 1
  /-- Calls of `release` that took the count to zero and have not closed yet. -/
  closing : ℕ := 0
  consumer : Consumer E := .running
  /-- Wakes taken out under the lock whose `wake_waiter` has not run yet. -/
  inHand : List (Wake E) := []
  /-- Wakes scheduled on their executor. -/
  posted : List (Wake E) := []
  /-- Every send with the value it returns, in the order of the sections. -/
  sends : List (T × Bool) := []
  received : List T := []
  /-- The executor each suspension was registered with. -/
  suspensions : List (Option E) := []
  handed : List (Wake E) := []
  resumed : List ℕ := []

namespace Sys

def accepted (s : Sys T E) : List T := (s.sends.filter Prod.snd).map Prod.fst

/-- Leave a critical section with the new state and what it took out. -/
def leave (s : Sys T E) (r : Taken E × MpscState T E) : Sys T E :=
  match r.1.1 with
  | none => { s with st := r.2 }
  | some h => { s with
      st := r.2
      inHand := s.inHand++[⟨h,r.1.2⟩]
      handed := s.handed++[⟨h,r.1.2⟩] }

/-- `h.resume()`. -/
def resume (s : Sys T E) (h : ℕ) : Sys T E :=
  { s with
    consumer := match s.consumer with
      | .suspended => if h+1 = s.suspensions.length then .resuming else .broken
      | _ => .broken
    resumed := s.resumed++[h] }

def take (s : Sys T E) (r : Option T × MpscState T E) : Sys T E :=
  { s with st := r.2, received := s.received++r.1.toList }

end Sys

inductive Action (T E : Type)
  | send (value : T) | close | copy | drop | dropClose
  | wake (w : Wake E) | runPosted (w : Wake E)
  | recv (ex : Option E) | awaitSuspend | awaitResume | tryRecv | dropReceiver

def step [DecidableEq E] (s : Sys T E) : Action T E → Option (Sys T E)
  | .send v =>
    if s.handles = 0 then none
    else
      let r := s.st.send v
      some ({ s with sends := s.sends++[(v,r.1)] }.leave r.2)
  | .close => if s.handles = 0 then none else some (s.leave s.st.closeLocked)
  | .copy =>
    if s.handles = 0 then none
    else some { s with handles := s.handles+1, st := { s.st with senders := s.st.senders+1 } }
  | .drop =>
    if s.handles = 0 then none
    else some { s with
      handles := s.handles-1
      st := { s.st with senders := s.st.senders-1 }
      closing := if s.st.senders = 1 then s.closing+1 else s.closing }
  | .dropClose =>
    if s.closing = 0 then none
    else some ({ s with closing := s.closing-1 }.leave s.st.closeLocked)
  | .wake w =>
    if w ∈ s.inHand then
      let s := { s with inHand := s.inHand.erase w }
      match w.ex with
      | some _ => some { s with posted := s.posted++[w] }
      | none => some (s.resume w.handle)
    else none
  | .runPosted w =>
    if w ∈ s.posted then some ({ s with posted := s.posted.erase w }.resume w.handle) else none
  | .recv ex =>
    match s.consumer with
    | .running => some { s with
        consumer := if s.st.awaitReady then .resuming else .suspending ex }
    | _ => none
  | .awaitSuspend =>
    match s.consumer with
    | .suspending ex =>
      let r := s.st.awaitSuspend s.suspensions.length ex
      if r.1 then some { s with
        st := r.2, consumer := .suspended, suspensions := s.suspensions++[ex] }
      else some { s with consumer := .resuming }
    | _ => none
  | .awaitResume =>
    match s.consumer with
    | .resuming => some ({ s with consumer := .running }.take s.st.awaitResume)
    | _ => none
  | .tryRecv =>
    match s.consumer with
    | .running => some (s.take s.st.tryRecv)
    | _ => none
  | .dropReceiver =>
    match s.consumer with
    | .running => some ({ s with consumer := .gone }.leave s.st.closeLocked)
    | _ => none

/-- `mpsc::unbounded`: one sender, one receiver, nothing queued. -/
def unbounded : Sys T E := {}

end Channel
end AsioQuickjs
