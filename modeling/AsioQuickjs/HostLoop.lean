import Mathlib.Logic.Function.Basic
import Mathlib.Order.Lattice
import AsioQuickjs.HostJob
import AsioQuickjs.Mailbox
import AsioQuickjs.Trace

/-! One host: its dispatcher, its jobs and timers, the counters that keep its
loop running, and the `destroy_host` that tears it down. Host-thread steps may
interleave more freely than one thread allows; `depth` counts the handlers that
have begun and not ended. -/
namespace AsioQuickjs
namespace HostLoop

open HostJob

/-- Where a job is: in `submit`, in the queue, with the dispatcher, in
`execute_job` or in what `run_one_job` does after it. -/
inductive JobStage
  | absent | submitting | queued | rejected | refused | held | spawned | loaded | calling
  | awaiting | settled (o : Outcome) | answering (r : Result) | replied | released | counted
  | finished
  deriving DecidableEq

structure Job where
  stage : JobStage := .absent
  fnName : String := ""
  args : Args := {}
  reply : Reply := {}
  answers : List Result := []
  calls : ℕ := 0
  deriving DecidableEq

def replyJob (x : Job) (r : Result) : Job :=
  if x.reply.attached then
    { x with
      reply := (x.reply.send r).2
      answers := if (x.reply.send r).1 then x.answers++[r] else x.answers }
  else x

/-- What a step adds to the host's counters. -/
structure Charge where
  pendingOps : ℤ := 0
  inFlight : ℤ := 0
  depth : ℤ := 0

inductive JobAction
  | unregister | start (cancelled : Bool) | call (found parses : Bool)
  | endCall (o : Option Outcome) | settle (o : Outcome) | resume | reply | release | count
  | forget
  deriving DecidableEq

/-- One step of a job. `start` to `reply` are `execute_job`, with the suspension of
`await_js_value` between `endCall none` and `resume`; `release` to `forget` are the
rest of `run_one_job`, where the job itself is gone. -/
def Job.advance (x : Job) (a : JobAction) : Option (Job × Charge) :=
  match a, x.stage with
  | .unregister, .rejected => some ({ x with stage := .refused },{})
  | .start true, .spawned => some ({ x with stage := .answering makeCancelled },{ depth := 1 })
  | .start false, .spawned => some ({ x with stage := .loaded },{ depth := 1 })
  | .call found parses, .loaded =>
    if found = false then
      some ({ x with stage := .answering (makeErr ("function not found: "++x.fnName)) },{})
    else if x.args.kind = .object ∧ parses = false then
      some ({ x with stage := .answering (makeErr "job args Object: JSON.parse failed") },{})
    else some ({ x with stage := .calling, calls := x.calls+1 },{})
  | .endCall (some o), .calling => some ({ x with stage := .answering o.answer },{})
  | .endCall none, .calling => some ({ x with stage := .awaiting },{ depth := -1 })
  | .settle o, .awaiting => some ({ x with stage := .settled o },{})
  | .resume, .settled o => some ({ x with stage := .answering o.answer },{ depth := 1 })
  | .reply, .answering r => some ({ replyJob x r with stage := .replied },{})
  | .release, .replied =>
    some ({ x with stage := .released, reply := x.reply.close },{ inFlight := -1 })
  | .count, .released => some ({ x with stage := .counted },{ pendingOps := -1 })
  | .forget, .counted => some ({ x with stage := .finished },{ depth := -1 })
  | _, _ => none

inductive TimerStage
  | unset | posted | armed | ready | calling | done
  deriving DecidableEq

/-- A `setTimeout` timer; `active` says that its id is in `active_timers_`, and
`owner` is the job whose code set it. -/
structure Timer where
  stage : TimerStage := .unset
  active : Bool := false
  owner : Option ℕ := none
  deriving DecidableEq

inductive TimerAction
  | body | expire | run | endCallback | clear
  deriving DecidableEq

def cancelTimer (t : Timer) : Timer :=
  if t.active then { t with active := false, stage := if t.stage = .armed then .ready else t.stage }
  else t

/-- One step of `timeout_coro`, or a `clearTimeout` from outside it. -/
def Timer.advance (stopping : Bool) (t : Timer) (a : TimerAction) : Option (Timer × Charge) :=
  match a, t.stage with
  | .body, .posted => some ({ t with stage := .armed },{})
  | .expire, .armed => some ({ t with stage := .ready },{})
  | .run, .ready =>
    if stopping = false ∧ t.active = true then
      some ({ t with stage := .calling, active := false },{ depth := 1 })
    else some ({ t with stage := .done },{ pendingOps := -1 })
  | .endCallback, .calling => some ({ t with stage := .done },{ pendingOps := -1, depth := -1 })
  | .clear, _ => some (cancelTimer t,{})
  | _, _ => none

inductive Dispatcher
  | receiving | holding (j : ℕ) | sleeping (j : ℕ) | done
  deriving DecidableEq

/-- How far the host's slot is: in `create_host`, in `hosts_`, or at some point of
`destroy_host`. -/
inductive Life
  | created | serving | erased | closed | drained | shutDown | cancelled | returned
  deriving DecidableEq

def Life.rank : Life → ℕ
  | .created => 0 | .serving => 1 | .erased => 2 | .closed => 3 | .drained => 4
  | .shutDown => 5 | .cancelled => 6 | .returned => 7

/-- A host whose dispatcher `start_job_worker` has already started. `jobTx` is the
mailbox that its mpsc channel implements; `otherOps` are the operations besides jobs
and timeouts that hold `pending_ops`; `listening` is the point of `start_http_server`
between `start()` and `http_active = true`. -/
structure Host where
  life : Life := .created
  jobTx : Mailbox.Box ℕ := {}
  dispatcher : Dispatcher := .receiving
  inFlight : ℤ := 0
  maxInFlight : ℤ := 64
  pendingOps : ℤ := 1
  otherOps : ℕ := 0
  depth : ℤ := 0
  stopping : Bool := false
  httpActive : Bool := false
  httpServer : Bool := false
  listening : Bool := false
  accepting : Bool := false
  jobs : ℕ → Job := fun _ => {}
  timers : ℕ → Timer := fun _ => {}
  nextTimer : ℕ := 1
  exited : Bool := false

def Host.stage (h : Host) (j : ℕ) : JobStage := (h.jobs j).stage

def Host.setJob (h : Host) (j : ℕ) (x : Job) : Host :=
  { h with jobs := Function.update h.jobs j x }

def Host.setTimer (h : Host) (k : ℕ) (t : Timer) : Host :=
  { h with timers := Function.update h.timers k t }

def Host.charge (h : Host) (c : Charge) : Host :=
  { h with
    pendingOps := h.pendingOps+c.pendingOps
    inFlight := h.inFlight+c.inFlight
    depth := h.depth+c.depth }

inductive Action
  | insert | register (j : ℕ) (fnName : String) (args : Args) | send (j : ℕ)
  | recv | dispatch | wake
  | job (j : ℕ) (a : JobAction) | setTimeout (owner : Option ℕ) | timer (k : ℕ) (a : TimerAction)
  | opBegin | opEnd
  | listen (bound : Bool) | activate | closeServer | acceptDone | exit
  | erase | close | drained | shutdown | cancelAllTimers | join
  deriving DecidableEq

def Action.onThread : Action → Bool
  | .recv | .dispatch | .wake | .setTimeout _ | .timer _ _ | .opBegin | .opEnd | .listen _
  | .activate | .closeServer | .acceptDone | .exit => true
  | .job _ a => a ≠ .unregister
  | _ => false

/-- The task id whose entry in `cancels_` the step erases. -/
def Action.forgets : Action → Option ℕ
  | .job j .unregister | .job j .forget => some j
  | _ => none

/-- `submit` under the lock, for the task id the manager hands out. -/
def register (h : Host) (j : ℕ) (fnName : String) (args : Args) : Option Host :=
  if h.life = .serving ∧ h.stage j = .absent then
    some (h.setJob j { stage := .submitting, fnName := fnName, args := args })
  else none

/-- `tx.send` in `submit`; a refused job is destroyed, and its sender with it. -/
def send (h : Host) (j : ℕ) : Option Host :=
  if h.stage j = .submitting then
    match Mailbox.send h.jobTx j with
    | (true,box) => some { h.setJob j { h.jobs j with stage := .queued } with jobTx := box }
    | (false,_) =>
      some (h.setJob j { h.jobs j with stage := .rejected, reply := (h.jobs j).reply.close })
  else none

def recv (h : Host) : Option Host :=
  if h.dispatcher = .receiving then
    match Mailbox.recv h.jobTx with
    | (.item j,box) =>
      some { h.setJob j { h.jobs j with stage := .held } with
        jobTx := box, dispatcher := .holding j }
    | (.ended,_) => some { h with dispatcher := .done, pendingOps := h.pendingOps-1 }
    | (.blocked,_) => none
  else none

def dispatch (h : Host) : Option Host :=
  match h.dispatcher with
  | .holding j =>
    if h.maxInFlight ≤ h.inFlight then some { h with dispatcher := .sleeping j }
    else some { (h.setJob j { h.jobs j with stage := .spawned }).charge
      { pendingOps := 1, inFlight := 1 } with dispatcher := .receiving }
  | _ => none

def wake (h : Host) : Option Host :=
  match h.dispatcher with
  | .sleeping j => some { h with dispatcher := .holding j }
  | _ => none

def advanceJob (h : Host) (j : ℕ) (a : JobAction) : Option Host :=
  match (h.jobs j).advance a with
  | some (x,c) => some ((h.setJob j x).charge c)
  | none => none

def advanceTimer (h : Host) (k : ℕ) (a : TimerAction) : Option Host :=
  if k < h.nextTimer then
    match (h.timers k).advance h.stopping a with
    | some (t,c) => some ((h.setTimer k t).charge c)
    | none => none
  else none

def setTimeout (h : Host) (owner : Option ℕ) : Host :=
  { (h.setTimer h.nextTimer { stage := .posted, active := true, owner := owner }).charge
    { pendingOps := 1 } with nextTimer := h.nextTimer+1 }

/-- `start_http_server` up to `http_server->start()`. When the port cannot be bound
that throws, but the acceptor stays open. -/
def listen (h : Host) (bound : Bool) : Option Host :=
  if h.listening = false then
    some { h with
      httpServer := true, accepting := h.accepting || bound, listening := bound }
  else none

def activate (h : Host) : Option Host :=
  if h.listening = true then some { h with httpActive := true, listening := false } else none

def closeServer (h : Host) : Option Host :=
  if h.listening = false ∧ h.httpServer = true then
    some { h with httpServer := false, httpActive := false }
  else none

/-- The accept handler runs and finds the acceptor closed, so it does not accept again. -/
def acceptDone (h : Host) : Option Host :=
  if h.listening = false ∧ h.httpServer = false ∧ h.accepting = true then
    some { h with accepting := false }
  else none

/-- The test at the head of `run_loop`, made between handlers and after `drain_jobs`, so
that no JS job is pending. -/
def exit (h : Host) : Option Host :=
  if h.pendingOps = 0 ∧ h.httpActive = false ∧ h.depth = 0 ∧ h.listening = false then
    some { h with exited := true }
  else none

def shutdown (h : Host) : Host :=
  { h with stopping := true, httpActive := false, httpServer := false }

def cancelAllTimers (h : Host) : Host :=
  { h with timers := fun k => cancelTimer (h.timers k) }

/-- `destroy_host` goes on to its next point. The drain poll ends by itself or at
its deadline, so at any time. -/
def destroy (h : Host) (before after : Life) (effect : Host → Host) : Option Host :=
  if h.life = before then some { effect h with life := after } else none

def move (h : Host) : Action → Option Host
  | .insert => if 1 ≤ h.maxInFlight then destroy h .created .serving id else none
  | .register j fnName args => register h j fnName args
  | .send j => send h j
  | .recv => recv h
  | .dispatch => dispatch h
  | .wake => wake h
  | .job j a => advanceJob h j a
  | .setTimeout owner => some (setTimeout h owner)
  | .timer k a => advanceTimer h k a
  | .opBegin => some { h with otherOps := h.otherOps+1, pendingOps := h.pendingOps+1 }
  | .opEnd =>
    if 0 < h.otherOps then some { h with otherOps := h.otherOps-1, pendingOps := h.pendingOps-1 }
    else none
  | .listen bound => listen h bound
  | .activate => activate h
  | .closeServer => closeServer h
  | .acceptDone => acceptDone h
  | .exit => exit h
  | .erase => destroy h .serving .erased id
  | .close => destroy h .erased .closed fun h => { h with jobTx := Mailbox.close h.jobTx }
  | .drained => destroy h .closed .drained id
  | .shutdown => destroy h .drained .shutDown shutdown
  | .cancelAllTimers => destroy h .shutDown .cancelled cancelAllTimers
  | .join => if h.exited then destroy h .cancelled .returned id else none

/-- A step of the host; its own thread takes none once `run_loop` has returned. -/
def step (h : Host) (a : Action) : Option Host :=
  if a.onThread && h.exited then none else move h a

def start (limit : ℤ) : Host := { maxInFlight := limit }

end HostLoop
end AsioQuickjs
