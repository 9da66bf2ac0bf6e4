import AsioQuickjs.ChannelInvariant

/-! The oneshot channel of `src/channel.hpp`. One side owns the `Sender` objects and runs
one of their operations at a time; each lock, each move of a state pointer and each
wakeup is a step, so that the three sections of the consumer's `recv` come anywhere
between them. -/
namespace AsioQuickjs
namespace Oneshot

open Channel (Wake Taken Consumer)

/-- `detail::oneshot_state`. A coroutine handle is the number of its suspension. -/
structure OneshotState (T E : Type) where
  value : Option T := none
  waiter : Option ℕ := none
  waiterEx : Option E := none
  sent : Bool := false
  closed : Bool := false

variable {T E : Type}

namespace OneshotState

def closeLocked (st : OneshotState T E) : Taken E × OneshotState T E :=
  if st.closed || st.sent then ((none,none),st)
  else ((st.waiter,st.waiterEx),{ st with closed := true, waiter := none, waiterEx := none })

/-- The locked part of `Sender::send`. -/
def send (st : OneshotState T E) (value : T) : Bool × Taken E × OneshotState T E :=
  if st.sent || st.closed then (false,(none,none),st)
  else (true,(st.waiter,st.waiterEx),
    { st with sent := true, value := some value, waiter := none, waiterEx := none })

def awaitReady (st : OneshotState T E) : Bool := st.sent || st.closed

def awaitSuspend (st : OneshotState T E) (h : ℕ) (ex : Option E) : Bool × OneshotState T E :=
  if st.sent || st.closed then (false,st)
  else (true,{ st with waiter := some h, waiterEx := ex })

def awaitResume (st : OneshotState T E) : Option T × OneshotState T E :=
  (st.value,{ st with value := none })

end OneshotState

/-- What the sending side is in the middle of: a `send` that has left its lock and still
has `state_`, a `close` that has moved the pointer out (in a move-assignment, with the
objects it goes on with), a move-assignment that has closed its target. -/
inductive Sending
  | idle | sent (k : ℕ) | closing (next : Option (ℕ × ℕ)) | assigning (dst src : ℕ)
  deriving DecidableEq

/-- `handles k` says of the `Sender` object `k` whether it has the state of this
channel; there is no such object if it is `none`. -/
structure Sys (T E : Type) where
  st : OneshotState T E := {}
  handles : ℕ → Option Bool := fun k => if k = 0 then some true else none
  sender : Sending := .idle
  consumer : Consumer E := .running
  /-- Wakes taken out under the lock whose `wake_waiter` has not run yet. -/
  inHand : List (Wake E) := []
  posted : List (Wake E) := []
  /-- Every send with the value it returns. -/
  sends : List (T × Bool) := []
  /-- What the calls of `recv` have returned. -/
  received : List (Option T) := []
  suspensions : ℕ := 0
  handed : List ℕ := []
  resumed : List ℕ := []

namespace Sys

def accepted (s : Sys T E) : List T := (s.sends.filter Prod.snd).map Prod.fst

def leave (s : Sys T E) (r : Taken E × OneshotState T E) : Sys T E :=
  match r.1.1 with
  | none => { s with st := r.2 }
  | some h =>
    { s with st := r.2, inHand := s.inHand++[⟨h,r.1.2⟩], handed := s.handed++[h] }

/-- `h.resume()`. -/
def resume (s : Sys T E) (h : ℕ) : Sys T E :=
  { s with
    consumer := match s.consumer with
      | .suspended => if h+1 = s.suspensions then .resuming else .broken
      | _ => .broken
    resumed := s.resumed++[h] }

def setHandle (s : Sys T E) (k : ℕ) (b : Option Bool) : Sys T E :=
  { s with handles := Function.update s.handles k b }

/-- `state_ = std::move(o.state_)`. -/
def transfer (s : Sys T E) (dst src : ℕ) : Sys T E :=
  (s.setHandle src (some false)).setHandle dst (s.handles src)

end Sys

inductive Action (T E : Type)
  | construct (k : ℕ) | send (k : ℕ) (value : T) | reset | close (k : ℕ) | drop (k : ℕ)
  | moveConstruct (dst src : ℕ) | moveAssign (dst src : ℕ) | closeLocked | assign
  | wake (w : Wake E) | runPosted (w : Wake E)
  | recv (ex : Option E) | awaitSuspend | awaitResume

def send (s : Sys T E) (k : ℕ) (value : T) : Option (Sys T E) :=
  match s.sender, s.handles k with
  | .idle, some true =>
    let r := s.st.send value
    if r.1 then
      some ({ s with sends := s.sends++[(value,true)], sender := .sent k }.leave r.2)
    else some { s with sends := s.sends++[(value,false)] }
  | .idle, some false => some { s with sends := s.sends++[(value,false)] }
  | _, _ => none

/-- `close()` up to the lock, and of `~Sender` what comes before the object has gone. -/
def close (s : Sys T E) (k : ℕ) (after : Option Bool) (next : Option (ℕ × ℕ)) :
    Option (Sys T E) :=
  match s.sender, s.handles k with
  | .idle, some true => some { s.setHandle k after with sender := .closing next }
  | .idle, some false => some (s.setHandle k after)
  | _, _ => none

def moveConstruct (s : Sys T E) (dst src : ℕ) : Option (Sys T E) :=
  match s.sender, s.handles dst, s.handles src with
  | .idle, none, some _ => some (s.transfer dst src)
  | _, _, _ => none

def moveAssign (s : Sys T E) (dst src : ℕ) : Option (Sys T E) :=
  match s.sender, s.handles dst, s.handles src with
  | .idle, some attached, some _ =>
    if dst = src then some s
    else if attached then close s dst (some false) (some (dst,src))
    else some (s.transfer dst src)
  | _, _, _ => none

def step [DecidableEq E] (s : Sys T E) : Action T E → Option (Sys T E)
  | .construct k => if s.handles k = none then some (s.setHandle k (some false)) else none
  | .send k v => send s k v
  | .reset =>
    match s.sender with
    | .sent k => some { s.setHandle k (some false) with sender := .idle }
    | _ => none
  | .close k => close s k (some false) none
  | .drop k => close s k none none
  | .moveConstruct dst src => moveConstruct s dst src
  | .moveAssign dst src => moveAssign s dst src
  | .closeLocked =>
    match s.sender with
    | .closing none => some ({ s with sender := .idle }.leave s.st.closeLocked)
    | .closing (some (dst,src)) =>
      some ({ s with sender := .assigning dst src }.leave s.st.closeLocked)
    | _ => none
  | .assign =>
    match s.sender with
    | .assigning dst src => some ({ s with sender := .idle }.transfer dst src)
    | _ => none
  | .wake w =>
    if s.inHand.contains w then
      let s := { s with inHand := s.inHand.erase w }
      match w.ex with
      | some _ => some { s with posted := s.posted++[w] }
      | none => some (s.resume w.handle)
    else none
  | .runPosted w =>
    if s.posted.contains w then some ({ s with posted := s.posted.erase w }.resume w.handle)
    else none
  | .recv ex =>
    match s.consumer with
    | .running => some { s with
        consumer := if s.st.awaitReady then .resuming else .suspending ex }
    | _ => none
  | .awaitSuspend =>
    match s.consumer with
    | .suspending ex =>
      let r := s.st.awaitSuspend s.suspensions ex
      if r.1 then
        some { s with st := r.2, consumer := .suspended, suspensions := s.suspensions+1 }
      else some { s with consumer := .resuming }
    | _ => none
  | .awaitResume =>
    match s.consumer with
    | .resuming => some { s with
        st := s.st.awaitResume.2
        consumer := .running
        received := s.received++[s.st.awaitResume.1] }
    | _ => none

/-- `oneshot::channel`: the sender object 0 and a receiver. -/
def channel : Sys T E := {}

end Oneshot
end AsioQuickjs
