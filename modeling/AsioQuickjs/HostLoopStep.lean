import AsioQuickjs.HostLoopCounters

/-! What one step of a host can do. A step that counts or queues has one of ten
shapes; beyond that each step leaves alone all but a few parts of the host. -/
namespace AsioQuickjs
namespace HostLoop

open HostJob

/-- What the stage of a job says of its reply and of its function. -/
def Answered (x : Job) : Prop :=
  match x.stage with
  | .absent | .submitting | .queued | .held | .spawned | .loaded =>
    x.reply.Open ∧ x.answers = [] ∧ x.calls = 0
  | .rejected | .refused => x.reply.value = none ∧ x.answers = [] ∧ x.calls = 0
  | .calling | .awaiting | .settled _ | .answering _ => x.reply.Open ∧ x.answers = []
  | .replied | .released | .counted | .finished => ∃ r, x.answers = [r] ∧ x.reply.Holds r

/-- A job goes from `x` to `y` at the charge `c`, outside queue and dispatcher. -/
structure Moves (x y : Job) (c : Charge) : Prop where
  charge : c.pendingOps = y.stage.ops-x.stage.ops ∧ c.inFlight = y.stage.flight-x.stage.flight ∧
    c.depth = y.stage.depth-x.stage.depth
  answered : Answered x → Answered y
  queued : x.stage ≠ .queued ∧ y.stage ≠ .queued
  held : x.stage ≠ .held ∧ y.stage ≠ .held

theorem replyJob_open {x : Job} (h : x.reply.Open) (ha : x.answers = []) (r : Result) :
    (replyJob x r).answers = [r] ∧ (replyJob x r).reply.Holds r := by
  have hatt : x.reply.attached = true := by rw [h]
  simp [replyJob,hatt,send_open h r,ha]

theorem moves_of_advance {x y : Job} {a : JobAction} {c : Charge}
    (h : x.advance a = some (y,c)) : Moves x y c := by
  refine ⟨advance_charge h,?_,?_,?_⟩
  · revert h
    fun_cases Job.advance x a <;> rintro ⟨⟩
    case case11 r hs =>
      rintro hx
      simp only [Answered,hs] at hx ⊢
      exact ⟨r,replyJob_open hx.1 hx.2 r⟩
    case case12 hs =>
      rintro hx
      simp only [Answered,hs] at hx ⊢
      obtain ⟨r,hr,hholds⟩ := hx
      exact ⟨r,hr,by rwa [close_holds hholds]⟩
    all_goals simp_all [Answered]
  · revert h
    fun_cases Job.advance x a <;> rintro ⟨⟩ <;> simp [*]
  · revert h
    fun_cases Job.advance x a <;> rintro ⟨⟩ <;> simp [*]

/-- A step that moves no job, no timer and no message. -/
structure Still (h g : Host) : Prop where
  jobs : g.jobs = h.jobs
  queue : g.jobTx.queue = h.jobTx.queue
  closed : h.jobTx.closed = true → g.jobTx.closed = true
  dispatcher : g.dispatcher = h.dispatcher
  timers : ∀ k, (g.timers k).stage.ops = (h.timers k).stage.ops ∧
    (g.timers k).stage.depth = (h.timers k).stage.depth ∧
    ((h.timers k).stage = .unset → (g.timers k).stage = .unset)
  nextTimer : g.nextTimer = h.nextTimer
  pendingOps : g.pendingOps-h.pendingOps = g.otherOps-h.otherOps
  inFlight : g.inFlight = h.inFlight
  depth : g.depth = h.depth

inductive Shape (h : Host) : Host → Prop
  | still {g : Host} : Still h g → Shape h g
  | job {j : ℕ} {x : Job} {c : Charge} :
      Moves (h.jobs j) x c → Shape h ((h.setJob j x).charge c)
  | timer {k : ℕ} {a : TimerAction} {t : Timer} {c : Charge} : k < h.nextTimer →
      (h.timers k).advance h.stopping a = some (t,c) → Shape h ((h.setTimer k t).charge c)
  | setTimeout (owner : Option ℕ) : Shape h (setTimeout h owner)
  | send {j : ℕ} : h.stage j = .submitting → h.jobTx.closed = false →
      Shape h { h.setJob j { h.jobs j with stage := .queued } with
        jobTx := { h.jobTx with queue := h.jobTx.queue++[j] } }
  | recv {j : ℕ} {q : List ℕ} : h.dispatcher = .receiving → h.jobTx.queue = j::q →
      Shape h { h.setJob j { h.jobs j with stage := .held } with
        jobTx := { h.jobTx with queue := q }, dispatcher := .holding j }
  | ended : h.dispatcher = .receiving → h.jobTx.queue = [] → h.jobTx.closed = true →
      Shape h { h with dispatcher := .done, pendingOps := h.pendingOps-1 }
  | dispatch {j : ℕ} : h.dispatcher = .holding j →
      Shape h { (h.setJob j { h.jobs j with stage := .spawned }).charge
        { pendingOps := 1, inFlight := 1 } with dispatcher := .receiving }
  | sleep {j : ℕ} : h.dispatcher = .holding j → Shape h { h with dispatcher := .sleeping j }
  | wake {j : ℕ} : h.dispatcher = .sleeping j → Shape h { h with dispatcher := .holding j }

theorem cancelTimer_unset {t : Timer} (h : t.stage = .unset) : (cancelTimer t).stage = .unset := by
  simp only [cancelTimer]
  split <;> simp [h]

/-- `destroy_host` moves nothing but its own point, the flags and the timers' alarms. -/
theorem still_destroy {h g : Host} {p q : Life} {f : Host → Host} (hf : Still h (f h))
    (hd : destroy h p q f = some g) : Still h g := by
  simp only [destroy,Option.ite_none_right_eq_some,Option.some.injEq] at hd
  obtain ⟨-,rfl⟩ := hd
  exact ⟨hf.jobs,hf.queue,hf.closed,hf.dispatcher,hf.timers,hf.nextTimer,hf.pendingOps,hf.inFlight,
    hf.depth⟩

theorem Still.refl (h : Host) : Still h h :=
  ⟨rfl,rfl,id,rfl,fun _ => ⟨rfl,rfl,id⟩,rfl,by omega,rfl,rfl⟩

theorem still_close (h : Host) : Still h { h with jobTx := Mailbox.close h.jobTx } :=
  ⟨rfl,rfl,fun _ => rfl,rfl,fun _ => ⟨rfl,rfl,id⟩,rfl,by simp,rfl,rfl⟩

theorem still_shutdown (h : Host) : Still h (shutdown h) :=
  ⟨rfl,rfl,id,rfl,fun _ => ⟨rfl,rfl,id⟩,rfl,by simp [shutdown],rfl,rfl⟩

theorem still_cancelAllTimers (h : Host) : Still h (cancelAllTimers h) :=
  ⟨rfl,rfl,id,rfl,fun k => ⟨(cancelTimer_shares _).1,(cancelTimer_shares _).2,cancelTimer_unset⟩,
    rfl,by simp [cancelAllTimers],rfl,rfl⟩

theorem charge_none (h : Host) : h.charge {} = h := by simp [Host.charge]

theorem send_cases {h g : Host} {j : ℕ} (hs : send h j = some g) : h.stage j = .submitting ∧
    (h.jobTx.closed = false ∧ g = { h.setJob j { h.jobs j with stage := .queued } with
        jobTx := { h.jobTx with queue := h.jobTx.queue++[j] } } ∨
      h.jobTx.closed = true ∧
        g = h.setJob j { h.jobs j with stage := .rejected, reply := (h.jobs j).reply.close }) := by
  simp only [send,Option.ite_none_right_eq_some] at hs
  obtain ⟨hstage,hs⟩ := hs
  cases hc : h.jobTx.closed with
  | false =>
    simp only [Mailbox.send_open hc,Option.some.injEq] at hs
    exact ⟨hstage,.inl ⟨rfl,hs.symm⟩⟩
  | true =>
    simp only [Mailbox.send_closed hc,Option.some.injEq] at hs
    exact ⟨hstage,.inr ⟨rfl,hs.symm⟩⟩

theorem recv_cases {h g : Host} (hs : recv h = some g) : h.dispatcher = .receiving ∧
    ((∃ j q, h.jobTx.queue = j::q ∧ g = { h.setJob j { h.jobs j with stage := .held } with
        jobTx := { h.jobTx with queue := q }, dispatcher := .holding j }) ∨
      h.jobTx.queue = [] ∧ h.jobTx.closed = true ∧
        g = { h with dispatcher := .done, pendingOps := h.pendingOps-1 }) := by
  simp only [recv,Option.ite_none_right_eq_some] at hs
  obtain ⟨hd,hs⟩ := hs
  cases hq : h.jobTx.queue with
  | cons j q =>
    simp only [Mailbox.recv,hq,Option.some.injEq] at hs
    exact ⟨hd,.inl ⟨j,q,rfl,hs.symm⟩⟩
  | nil =>
    cases hc : h.jobTx.closed with
    | false => simp [Mailbox.recv,hq,hc] at hs
    | true =>
      simp only [Mailbox.recv,hq,hc,if_true,Option.some.injEq] at hs
      exact ⟨hd,.inr ⟨rfl,rfl,hs.symm⟩⟩

theorem dispatch_cases {h g : Host} (hs : dispatch h = some g) : ∃ j, h.dispatcher = .holding j ∧
    (h.maxInFlight ≤ h.inFlight ∧ g = { h with dispatcher := .sleeping j } ∨
      ¬ h.maxInFlight ≤ h.inFlight ∧ g = { (h.setJob j { h.jobs j with stage := .spawned }).charge
        { pendingOps := 1, inFlight := 1 } with dispatcher := .receiving }) := by
  revert hs
  fun_cases dispatch h <;> rintro ⟨⟩
  case case1 j hd hfull => exact ⟨j,hd,.inl ⟨hfull,rfl⟩⟩
  case case2 j hd hfull => exact ⟨j,hd,.inr ⟨hfull,rfl⟩⟩

theorem shape_send {h g : Host} {j : ℕ} (hs : send h j = some g) : Shape h g := by
  obtain ⟨hstage,⟨hc,rfl⟩ | ⟨-,rfl⟩⟩ := send_cases hs
  · exact .send hstage hc
  · have hstage' : (h.jobs j).stage = .submitting := hstage
    rw [← charge_none (h.setJob j _)]
    refine .job ⟨?_,?_,?_,?_⟩
    · simp [hstage',JobStage.ops,JobStage.flight,JobStage.depth]
    · simp only [Answered,hstage']
      rintro ⟨hopen,hans,hcalls⟩
      rw [Reply.Open] at hopen
      simp [hopen,hans,hcalls,Reply.close]
    · simp [hstage']
    · simp [hstage']

theorem shape_register {h g : Host} {j : ℕ} {fnName : String} {args : Args}
    (hs : register h j fnName args = some g) : Shape h g := by
  simp only [register,Option.ite_none_right_eq_some] at hs
  obtain ⟨⟨-,hstage⟩,hs⟩ := hs
  simp only [Option.some.injEq] at hs
  subst hs
  have hstage' : (h.jobs j).stage = .absent := hstage
  rw [← charge_none (h.setJob j _)]
  refine .job ⟨?_,?_,?_,?_⟩
  · simp [hstage',JobStage.ops,JobStage.flight,JobStage.depth]
  · simp [Answered,Reply.Open]
  · simp [hstage']
  · simp [hstage']

theorem shape_recv {h g : Host} (hs : recv h = some g) : Shape h g := by
  obtain ⟨hd,⟨j,q,hq,rfl⟩ | ⟨hq,hc,rfl⟩⟩ := recv_cases hs
  · exact .recv hd hq
  · exact .ended hd hq hc

theorem shape_dispatch {h g : Host} (hs : dispatch h = some g) : Shape h g := by
  obtain ⟨j,hd,⟨-,rfl⟩ | ⟨-,rfl⟩⟩ := dispatch_cases hs
  · exact .sleep hd
  · exact .dispatch hd

theorem shape_of_step {h g : Host} {a : Action} (hs : step h a = some g) : Shape h g := by
  simp only [step,Option.ite_none_left_eq_some] at hs
  obtain ⟨-,hs⟩ := hs
  cases a <;> simp only [move] at hs
  case insert =>
    simp only [Option.ite_none_right_eq_some] at hs
    exact .still (still_destroy (Still.refl h) hs.2)
  case register j fnName args => exact shape_register hs
  case send j => exact shape_send hs
  case recv => exact shape_recv hs
  case dispatch => exact shape_dispatch hs
  case wake =>
    revert hs
    fun_cases wake h <;> rintro ⟨⟩
    rename_i hd
    exact .wake hd
  case job j a =>
    revert hs
    fun_cases advanceJob h j a <;> rintro ⟨⟩
    rename_i hx
    exact .job (moves_of_advance hx)
  case timer k a =>
    revert hs
    fun_cases advanceTimer h k a <;> rintro ⟨⟩
    rename_i hk _ _ ht
    exact .timer hk ht
  case setTimeout owner =>
    cases hs
    exact .setTimeout owner
  case opBegin =>
    cases hs
    exact .still ⟨rfl,rfl,id,rfl,fun _ => ⟨rfl,rfl,id⟩,rfl,by simp,rfl,rfl⟩
  case opEnd =>
    simp only [Option.ite_none_right_eq_some,Option.some.injEq] at hs
    obtain ⟨hpos,rfl⟩ := hs
    exact .still ⟨rfl,rfl,id,rfl,fun _ => ⟨rfl,rfl,id⟩,rfl,by simp only; omega,rfl,rfl⟩
  case erase => exact .still (still_destroy (Still.refl h) hs)
  case close => exact .still (still_destroy (still_close h) hs)
  case drained => exact .still (still_destroy (Still.refl h) hs)
  case shutdown => exact .still (still_destroy (still_shutdown h) hs)
  case cancelAllTimers => exact .still (still_destroy (still_cancelAllTimers h) hs)
  case join =>
    simp only [Option.ite_none_right_eq_some] at hs
    exact .still (still_destroy (Still.refl h) hs.2)
  all_goals
    simp only [listen,activate,closeServer,acceptDone,exit,Option.ite_none_right_eq_some,
      Option.some.injEq] at hs
    obtain ⟨-,rfl⟩ := hs
    exact .still ⟨rfl,rfl,id,rfl,fun _ => ⟨rfl,rfl,id⟩,rfl,by simp,rfl,rfl⟩

def Action.movesJobs : Action → Bool
  | .register _ _ _ | .send _ | .recv | .dispatch | .job _ _ => true
  | _ => false

def Action.setsTimers : Action → Bool
  | .setTimeout _ | .timer _ _ | .cancelAllTimers => true
  | _ => false

def Action.serves : Action → Bool
  | .listen _ | .activate | .closeServer | .acceptDone | .shutdown => true
  | _ => false

/-- The steps of `destroy_host`, those that put the slot into `hosts_` and end the loop. -/
def Action.tearsDown : Action → Bool
  | .insert | .exit | .erase | .close | .drained | .shutdown | .cancelAllTimers | .join => true
  | _ => false

/-- The parts of the host that only some steps touch. -/
structure Frame (h g : Host) (a : Action) : Prop where
  jobs : a.movesJobs = false → g.jobs = h.jobs
  timers : a.setsTimers = false → g.timers = h.timers ∧ g.nextTimer = h.nextTimer
  server : a.serves = false → g.listening = h.listening ∧ g.accepting = h.accepting ∧
    g.httpServer = h.httpServer ∧ g.httpActive = h.httpActive
  slot : a.tearsDown = false → g.life = h.life ∧ g.jobTx.closed = h.jobTx.closed ∧
    g.exited = h.exited
  stopping : a ≠ .shutdown → g.stopping = h.stopping
  counters : a.onThread = false → g.pendingOps = h.pendingOps ∧ g.depth = h.depth

theorem advance_unregister {x y : Job} {c : Charge} (h : x.advance .unregister = some (y,c)) :
    x.stage = .rejected ∧ y = { x with stage := .refused } ∧ c = {} := by
  revert h
  cases hs : x.stage <;> simp only [Job.advance,hs] <;> rintro ⟨⟩
  exact ⟨trivial,rfl,rfl⟩

theorem frame_advanceJob {h g : Host} {j : ℕ} {a : JobAction} (hs : advanceJob h j a = some g) :
    Frame h g (.job j a) := by
  revert hs
  fun_cases advanceJob h j a <;> rintro ⟨⟩
  rename_i x c hx
  refine ⟨by simp [Action.movesJobs],fun _ => ⟨rfl,rfl⟩,fun _ => ⟨rfl,rfl,rfl,rfl⟩,
    fun _ => ⟨rfl,rfl,rfl⟩,fun _ => rfl,?_⟩
  intro ha
  obtain rfl : a = .unregister := by simpa [Action.onThread] using ha
  obtain ⟨-,-,rfl⟩ := advance_unregister hx
  simp [Host.charge,Host.setJob]

theorem frame_step {h g : Host} {a : Action} (hs : step h a = some g) : Frame h g a := by
  simp only [step,Option.ite_none_left_eq_some] at hs
  obtain ⟨-,hs⟩ := hs
  cases a <;> simp only [move] at hs
  case job j a => exact frame_advanceJob hs
  case send j =>
    have hclosed := Mailbox.send_keeps_closed h.jobTx j
    revert hs
    fun_cases send h j <;> rintro ⟨⟩
    · rename_i hbox
      rw [hbox] at hclosed
      exact ⟨by simp [Action.movesJobs],fun _ => ⟨rfl,rfl⟩,fun _ => ⟨rfl,rfl,rfl,rfl⟩,
        fun _ => ⟨rfl,hclosed,rfl⟩,fun _ => rfl,fun _ => ⟨rfl,rfl⟩⟩
    · exact ⟨by simp [Action.movesJobs],fun _ => ⟨rfl,rfl⟩,fun _ => ⟨rfl,rfl,rfl,rfl⟩,
        fun _ => ⟨rfl,rfl,rfl⟩,fun _ => rfl,fun _ => ⟨rfl,rfl⟩⟩
  case recv =>
    have hclosed := Mailbox.recv_closed h.jobTx
    revert hs
    fun_cases recv h <;> rintro ⟨⟩
    · rename_i hbox
      rw [hbox] at hclosed
      exact ⟨by simp [Action.movesJobs],fun _ => ⟨rfl,rfl⟩,fun _ => ⟨rfl,rfl,rfl,rfl⟩,
        fun _ => ⟨rfl,hclosed,rfl⟩,fun _ => rfl,by simp [Action.onThread]⟩
    · exact ⟨fun _ => rfl,fun _ => ⟨rfl,rfl⟩,fun _ => ⟨rfl,rfl,rfl,rfl⟩,
        fun _ => ⟨rfl,rfl,rfl⟩,fun _ => rfl,by simp [Action.onThread]⟩
  case dispatch =>
    revert hs
    fun_cases dispatch h <;> rintro ⟨⟩ <;>
      exact ⟨by simp [Action.movesJobs],fun _ => ⟨rfl,rfl⟩,fun _ => ⟨rfl,rfl,rfl,rfl⟩,
        fun _ => ⟨rfl,rfl,rfl⟩,fun _ => rfl,by simp [Action.onThread]⟩
  case wake =>
    revert hs
    fun_cases wake h <;> rintro ⟨⟩
    exact ⟨fun _ => rfl,fun _ => ⟨rfl,rfl⟩,fun _ => ⟨rfl,rfl,rfl,rfl⟩,
      fun _ => ⟨rfl,rfl,rfl⟩,fun _ => rfl,by simp [Action.onThread]⟩
  case timer k a =>
    revert hs
    fun_cases advanceTimer h k a <;> rintro ⟨⟩
    exact ⟨fun _ => rfl,by simp [Action.setsTimers],fun _ => ⟨rfl,rfl,rfl,rfl⟩,
      fun _ => ⟨rfl,rfl,rfl⟩,fun _ => rfl,by simp [Action.onThread]⟩
  all_goals
    simp only [register,setTimeout,listen,activate,closeServer,acceptDone,exit,destroy,shutdown,
      cancelAllTimers,Option.ite_none_right_eq_some,Option.some.injEq] at hs
    obtain ⟨-,-,rfl⟩ := hs
    constructor <;>
      simp [Action.movesJobs,Action.setsTimers,Action.serves,Action.tearsDown,Action.onThread,
        Host.setJob,Host.setTimer,Host.charge]

end HostLoop
end AsioQuickjs
