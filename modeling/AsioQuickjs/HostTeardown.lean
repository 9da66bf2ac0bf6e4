import AsioQuickjs.HostManager

/-! What `destroy_host` waits for. After `shutdown` a timer that fires drops its
callback, so a job that still awaits one is never settled: its share of
`pending_ops` keeps the loop, and the `join`, for ever. Without such a job the loop
ends as soon as nothing is left to run. -/
namespace AsioQuickjs
namespace HostLoop

/-- The callback of a timer of the job is running. -/
def CallsBack (h : Host) (j : ℕ) : Prop :=
  ∃ k < h.nextTimer, (h.timers k).stage = .calling ∧ (h.timers k).owner = some j

/-- A timer other than `k` calls the job back now. -/
def OtherCallsBack (h : Host) (k j : ℕ) : Prop :=
  ∃ i < h.nextTimer, i ≠ k ∧ (h.timers i).stage = .calling ∧ (h.timers i).owner = some j

/-- A timer other than `k` is still going to call the job back. -/
def OtherDue (h : Host) (k j : ℕ) : Prop :=
  ∃ i < h.nextTimer, i ≠ k ∧ (h.timers i).active = true ∧ (h.timers i).owner = some j

instance (h : Host) (j : ℕ) : Decidable (CallsBack h j) :=
  inferInstanceAs (Decidable (∃ k < h.nextTimer, _))

instance (h : Host) (k j : ℕ) : Decidable (OtherCallsBack h k j) :=
  inferInstanceAs (Decidable (∃ i < h.nextTimer, _))

instance (h : Host) (k j : ℕ) : Decidable (OtherDue h k j) :=
  inferInstanceAs (Decidable (∃ i < h.nextTimer, _))

/-- What a step does to callbacks: it ends them only where it says so, and begins none
while the host is stopping. -/
structure TimersGo (h g : Host) (a : Action) : Prop where
  next : h.nextTimer ≤ g.nextTimer
  owner : ∀ k < h.nextTimer, (g.timers k).owner = (h.timers k).owner
  keeps : ∀ k < h.nextTimer, (h.timers k).stage = .calling → a ≠ .timer k .endCallback →
    (g.timers k).stage = .calling
  begins : h.stopping = true → ∀ k < g.nextTimer, (g.timers k).stage = .calling →
    k < h.nextTimer ∧ (h.timers k).stage = .calling

theorem cancelTimer_calling (t : Timer) :
    ((cancelTimer t).stage = .calling ↔ t.stage = .calling) ∧ (cancelTimer t).owner = t.owner := by
  rcases t with ⟨s,a,o⟩
  cases a <;> cases s <;> simp [cancelTimer]

theorem timer_advance_calling {t u : Timer} {b : Bool} {a : TimerAction} {c : Charge}
    (h : t.advance b a = some (u,c)) :
    u.owner = t.owner ∧ (t.stage = .calling → a ≠ .endCallback → u.stage = .calling) ∧
      (b = true → u.stage = .calling → t.stage = .calling) := by
  revert h
  fun_cases Timer.advance b t a <;> rintro ⟨⟩
  case case6 =>
    have hc := (cancelTimer_calling t).1
    simpa using ⟨(cancelTimer_calling t).2,hc.mpr,fun _ => hc.mp⟩
  all_goals simp_all

theorem timersGo_advance {h g : Host} {k : ℕ} {a : TimerAction}
    (hs : advanceTimer h k a = some g) : TimersGo h g (.timer k a) := by
  revert hs
  fun_cases advanceTimer h k a <;> rintro ⟨⟩
  rename_i hk u c hu
  obtain ⟨howner,hkeeps,hbegins⟩ := timer_advance_calling hu
  refine ⟨Nat.le_refl _,?_,?_,?_⟩
  · intro i hi
    by_cases he : i = k
    · subst he
      simpa [Host.charge,Host.setTimer] using howner
    · simp [Host.charge,Host.setTimer,he]
  · intro i hi hcall hne
    by_cases he : i = k
    · subst he
      simpa [Host.charge,Host.setTimer] using hkeeps hcall (by simpa using hne)
    · simpa [Host.charge,Host.setTimer,he] using hcall
  · intro hstop i hi hcall
    refine ⟨hi,?_⟩
    by_cases he : i = k
    · subst he
      exact hbegins hstop (by simpa [Host.charge,Host.setTimer] using hcall)
    · simpa [Host.charge,Host.setTimer,he] using hcall

theorem timersGo_setTimeout (h : Host) (owner : Option ℕ) (a : Action) :
    TimersGo h (setTimeout h owner) a := by
  refine ⟨Nat.le_succ _,?_,?_,?_⟩
  · intro i hi
    simp [setTimeout,Host.charge,Host.setTimer,Nat.ne_of_lt hi]
  · intro i hi hcall _
    simpa [setTimeout,Host.charge,Host.setTimer,Nat.ne_of_lt hi] using hcall
  · intro _ i hi hcall
    by_cases he : i = h.nextTimer
    · simp [setTimeout,Host.charge,Host.setTimer,he] at hcall
    · simp only [setTimeout] at hi
      refine ⟨by omega,?_⟩
      simpa [setTimeout,Host.charge,Host.setTimer,he] using hcall

theorem timersGo {h g : Host} {a : Action} (hs : step h a = some g) : TimersGo h g a := by
  cases ha : a.setsTimers with
  | false =>
    obtain ⟨ht,hn⟩ := (frame_step hs).timers ha
    constructor <;> simp_all
  | true =>
    simp only [step,Option.ite_none_left_eq_some] at hs
    obtain ⟨-,hs⟩ := hs
    cases a <;> simp only [Action.setsTimers,Bool.false_eq_true] at ha <;> simp only [move] at hs
    case timer k a => exact timersGo_advance hs
    case setTimeout owner =>
      cases hs
      exact timersGo_setTimeout h owner _
    case cancelAllTimers =>
      simp only [destroy,Option.ite_none_right_eq_some,Option.some.injEq] at hs
      obtain ⟨-,rfl⟩ := hs
      refine ⟨Nat.le_refl _,?_,?_,?_⟩
      · exact fun k _ => (cancelTimer_calling _).2
      · exact fun k _ hcall _ => (cancelTimer_calling _).1.mpr hcall
      · exact fun _ k hk hcall => ⟨hk,(cancelTimer_calling _).1.mp hcall⟩

theorem callsBack_step {h g : Host} {a : Action} (hs : step h a = some g) {j : ℕ}
    (hc : CallsBack h j)
    (hend : ∀ k, a = .timer k .endCallback → (h.timers k).owner = some j → OtherCallsBack h k j) :
    CallsBack g j := by
  have hgo := timersGo hs
  obtain ⟨k,hk,hcall,howner⟩ := hc
  by_cases ha : a = .timer k .endCallback
  · obtain ⟨i,hi,hik,hcalli,howneri⟩ := hend k ha howner
    refine ⟨i,Nat.lt_of_lt_of_le hi hgo.next,hgo.keeps i hi hcalli ?_,
      (hgo.owner i hi).trans howneri⟩
    rw [ha]
    simpa using fun he => hik he.symm
  · exact ⟨k,Nat.lt_of_lt_of_le hk hgo.next,hgo.keeps k hk hcall ha,
      (hgo.owner k hk).trans howner⟩

theorem not_callsBack_step {h g : Host} {a : Action} (hs : step h a = some g)
    (hstop : h.stopping = true) {j : ℕ} (hc : ¬ CallsBack h j) : ¬ CallsBack g j := by
  have hgo := timersGo hs
  rintro ⟨k,hk,hcall,howner⟩
  obtain ⟨hk',hcall'⟩ := hgo.begins hstop k hk hcall
  exact hc ⟨k,hk',hcall',(hgo.owner k hk').symm.trans howner⟩

theorem callsBack_congr {h g : Host} (ht : g.timers = h.timers) (hn : g.nextTimer = h.nextTimer)
    (j : ℕ) : CallsBack g j ↔ CallsBack h j := by simp only [CallsBack,ht,hn]

theorem shutdown_leaves {h g : Host} (hs : step h .shutdown = some g) :
    g.stopping = true ∧ g.jobs = h.jobs ∧ g.timers = h.timers ∧ g.nextTimer = h.nextTimer := by
  simp only [step,Option.ite_none_left_eq_some,move,destroy,shutdown,
    Option.ite_none_right_eq_some,Option.some.injEq] at hs
  obtain ⟨-,-,rfl⟩ := hs
  exact ⟨rfl,rfl,rfl,rfl⟩

theorem stopping_step {h g : Host} {a : Action} (hs : step h a = some g) :
    g.stopping = h.stopping ∨ a = .shutdown ∧ g.stopping = true := by
  by_cases ha : a = .shutdown
  · subst ha
    exact .inr ⟨rfl,(shutdown_leaves hs).1⟩
  · exact .inl ((frame_step hs).stopping ha)

theorem endCall_leaves {h g : Host} {j : ℕ} (hs : step h (.job j (.endCall none)) = some g) :
    g.stopping = h.stopping ∧ g.stage j = .awaiting ∧ g.timers = h.timers ∧
      g.nextTimer = h.nextTimer := by
  simp only [step,Option.ite_none_left_eq_some,move,advanceJob] at hs
  obtain ⟨-,hs⟩ := hs
  cases hst : (h.jobs j).stage <;> simp only [Job.advance,hst] at hs <;> cases hs
  exact ⟨rfl,by simp [Host.stage,Host.charge,Host.setJob],rfl,rfl⟩

theorem endCallback_leaves {h g : Host} {k : ℕ} (hs : step h (.timer k .endCallback) = some g) :
    g.stopping = h.stopping ∧ g.jobs = h.jobs ∧ g.nextTimer = h.nextTimer ∧
      g.timers = Function.update h.timers k { h.timers k with stage := .done } := by
  simp only [step,Option.ite_none_left_eq_some,move,advanceTimer,
    Option.ite_none_right_eq_some] at hs
  obtain ⟨-,-,hs⟩ := hs
  cases hst : (h.timers k).stage <;> simp only [Timer.advance,hst] at hs <;> cases hs
  exact ⟨rfl,rfl,rfl,rfl⟩

/-- If the tear-down leaves no job awaiting without its callback, none is left later. -/
theorem awaiting_step {h g : Host} {a : Action} (hq : Queued h) (hs : step h a = some g)
    (hcalls : h.stopping = true → ∀ j, h.stage j = .awaiting → CallsBack h j)
    (hshutdown : a = .shutdown → ∀ j, h.stage j = .awaiting → CallsBack h j)
    (hendCall : h.stopping = true → ∀ j, a = .job j (.endCall none) → CallsBack h j)
    (hend : h.stopping = true → ∀ k j, a = .timer k .endCallback →
      (h.timers k).owner = some j → h.stage j = .awaiting → OtherCallsBack h k j)
    (hstop : g.stopping = true) (j : ℕ) (hj : g.stage j = .awaiting) : CallsBack g j := by
  rcases stays_or_goes hq hs j with ⟨hstays,-⟩ | hgoes
  · rw [hstays] at hj
    rcases stopping_step hs with hsame | ⟨rfl,-⟩
    · have hstop' : h.stopping = true := by rw [← hsame,hstop]
      exact callsBack_step hs (hcalls hstop' j hj) fun k hk ho => hend hstop' k j hk ho hj
    · exact callsBack_step hs (hshutdown rfl j hj) (by simp)
  · have ha := hgoes.awaits hj
    rcases stopping_step hs with hsame | ⟨hsd,-⟩
    · have hstop' : h.stopping = true := by rw [← hsame,hstop]
      exact callsBack_step hs (hendCall hstop' j ha) fun k hk => by simp [ha] at hk
    · simp [ha] at hsd

/-- On a stopping host a job no callback is left for stays awaiting, unless it is settled
from elsewhere. -/
theorem left_awaiting_step {h g : Host} {a : Action} (hq : Queued h) (hs : step h a = some g)
    (hstop : h.stopping = true) {j : ℕ} (hj : h.stage j = .awaiting) (hc : ¬ CallsBack h j)
    (hsettle : ∀ o, a = .job j (.settle o) → CallsBack h j) :
    g.stopping = true ∧ g.stage j = .awaiting ∧ ¬ CallsBack g j := by
  refine ⟨?_,?_,not_callsBack_step hs hstop hc⟩
  · rcases stopping_step hs with hsame | ⟨-,hg⟩
    · rw [hsame,hstop]
    · exact hg
  · rcases stays_or_goes hq hs j with ⟨hstays,-⟩ | hgoes
    · rw [hstays,hj]
    · obtain ⟨o,ho⟩ := hgoes.settles hj
      exact absurd (hsettle o ho) hc

/-- An active server accepts; between `start()` and `http_active = true` only
`shutdown` can have stopped it. -/
structure ServerOk (h : Host) : Prop where
  listening : h.listening = true → h.accepting = true ∧ (h.stopping = false → h.httpServer = true)
  active : h.httpActive = true → h.httpServer = true ∧ h.accepting = true

theorem server_step {h g : Host} {a : Action} (hok : ServerOk h) (hs : step h a = some g)
    (hactivate : a = .activate → h.stopping = true → h.httpServer = true) : ServerOk g := by
  obtain ⟨hlistening,hactive⟩ := hok
  cases ha : a.serves with
  | false =>
    obtain ⟨h1,h2,h3,h4⟩ := (frame_step hs).server ha
    have hstop := (frame_step hs).stopping fun he => by simp [he,Action.serves] at ha
    refine ⟨?_,?_⟩
    · rwa [h1,h2,h3,hstop]
    · rwa [h2,h3,h4]
  | true =>
    simp only [step,Option.ite_none_left_eq_some] at hs
    obtain ⟨-,hs⟩ := hs
    cases a <;> simp only [Action.serves,Bool.false_eq_true] at ha <;>
      simp only [move,listen,activate,closeServer,acceptDone,destroy,shutdown,
        Option.ite_none_right_eq_some,Option.some.injEq] at hs
    case listen bound =>
      obtain ⟨-,rfl⟩ := hs
      refine ⟨fun hb => ⟨?_,fun _ => rfl⟩,fun ha => ⟨rfl,?_⟩⟩
      · simp only at hb
        simp [hb]
      · simp [(hactive ha).2]
    case activate =>
      obtain ⟨hl,rfl⟩ := hs
      refine ⟨by simp,fun _ => ⟨?_,(hlistening hl).1⟩⟩
      cases hst : h.stopping with
      | false => exact (hlistening hl).2 hst
      | true => exact hactivate rfl hst
    case closeServer =>
      obtain ⟨⟨hl,-⟩,rfl⟩ := hs
      exact ⟨by simp [hl],by simp⟩
    case acceptDone =>
      obtain ⟨⟨hl,hserver,-⟩,rfl⟩ := hs
      refine ⟨by simp [hl],fun ha => ?_⟩
      simp [(hactive ha).1] at hserver
    case shutdown =>
      obtain ⟨-,rfl⟩ := hs
      exact ⟨fun hl => ⟨(hlistening hl).1,by simp⟩,by simp⟩

def JobStage.posted : JobStage → Bool
  | .spawned | .settled _ => true
  | _ => false

def TimerStage.waits : TimerStage → Bool
  | .posted | .armed | .ready => true
  | _ => false

/-- No handler runs, is ready or is pending: neither the dispatcher's, nor a job's, a
timer's, the acceptor's or another operation's. -/
structure Idle (h : Host) : Prop where
  depth : h.depth = 0
  listening : h.listening = false
  dispatcher : h.dispatcher = .done ∨ h.dispatcher = .receiving ∧ ¬ Mailbox.Ready h.jobTx
  jobs : ∀ j, (h.stage j).posted = false
  timers : ∀ k, (h.timers k).stage.waits = false
  accepting : h.accepting = false
  others : h.otherOps = 0

/-- Once the queue is closed and every awaiting job is being called back, an idle host
counts nothing. -/
theorem counters_of_idle {h : Host} (hi : Inv h) (hserver : ServerOk h)
    (hclosed : h.jobTx.closed = true) (hcalls : ∀ j, h.stage j = .awaiting → CallsBack h j)
    (hidle : Idle h) : h.pendingOps = 0 ∧ h.httpActive = false := by
  have hcountd := hi.counted.depth
  rw [hidle.depth] at hcountd
  have hdepth := hcountd.none_held (depthShare_nonneg h)
  constructor
  · refine hi.counted.pendingOps.eq_zero ?_
    rintro (j | k | _ | _)
    · have hj := hdepth (.job j)
      have hposted := hidle.jobs j
      have hawait : h.stage j ≠ .awaiting := fun ha => by
        obtain ⟨k,-,hcall,-⟩ := hcalls j ha
        simpa [depthShare,hcall,TimerStage.depth] using hdepth (.timer k)
      simp only [depthShare] at hj
      simp only [opShare]
      cases hs : h.stage j <;> simp_all [JobStage.ops,JobStage.depth,JobStage.posted]
    · have hk := hdepth (.timer k)
      have hwaits := hidle.timers k
      simp only [depthShare] at hk
      simp only [opShare]
      cases hs : (h.timers k).stage <;>
        simp_all [TimerStage.ops,TimerStage.depth,TimerStage.waits]
    · rcases hidle.dispatcher with hd | ⟨-,hready⟩
      · simp [opShare,hd]
      · exact absurd (.inr hclosed) hready
    · simp [opShare,hidle.others]
  · cases ha : h.httpActive with
    | false => rfl
    | true => simpa [hidle.accepting] using (hserver.active ha).2

end HostLoop

namespace HostManager

open HostLoop (CallsBack OtherCallsBack OtherDue)

variable {H : Type*} [DecidableEq H]

/-- The io_context of the host has no ready or pending handler and no JS job waits. -/
def Quiescent (s : Sys H) (h : H) : Prop :=
  (s.hosts h).depth = 0 ∧ (s.hosts h).listening = false ∧
    ((s.hosts h).dispatcher = .done ∨
      (s.hosts h).dispatcher = .receiving ∧ (s.hosts h).jobTx.queue = [] ∧
        (s.hosts h).jobTx.closed = false) ∧
    (∀ j < s.nextTaskId, (s.stage h j).posted = false) ∧
    (∀ k < (s.hosts h).nextTimer, ((s.hosts h).timers k).stage.waits = false) ∧
    (s.hosts h).accepting = false ∧ (s.hosts h).otherOps = 0

/-- `destroy_host` has been through `shutdown` and `cancel_all_timers`. -/
def TornDown (s : Sys H) (h : H) : Prop :=
  (s.hosts h).life = .cancelled ∨ (s.hosts h).life = .returned

/-- `run_loop` exits and the join returns, with nothing else happening. -/
def JoinReturns (s : Sys H) (h : H) : Prop :=
  ∃ as t, (∀ a ∈ as, a = .host h .exit ∨ a = .host h .join) ∧ run s as = some t ∧
    (t.hosts h).life = .returned

/-- The JavaScript of the jobs of `h` settles by their own timers: a job suspends only
with a timer due, is settled by a callback of its own, and ends or clears its last
timer only when it no longer waits. -/
def SettlesByTimers (h : H) (s : Sys H) : Action H → Prop
  | .host g (.job j (.endCall none)) =>
    g = h → ∃ k < (s.hosts h).nextTimer, ((s.hosts h).timers k).active = true ∧
      ((s.hosts h).timers k).owner = some j
  | .host g (.job j (.settle _)) => g = h → CallsBack (s.hosts h) j
  | .host g (.timer k .endCallback) | .host g (.timer k .clear) =>
    g = h → ∀ j ∈ ((s.hosts h).timers k).owner, s.stage h j = .awaiting →
      OtherDue (s.hosts h) k j ∨ OtherCallsBack (s.hosts h) k j
  | _ => True

/-- No job of `h` is left awaiting by its tear-down: at `shutdown` every awaiting job is
just being called back, after it none suspends and none is left when its callback
ends. Nor is a server announced that `shutdown` has just stopped. -/
def Drains (h : H) (s : Sys H) : Action H → Prop
  | .host g .shutdown =>
    g = h → ∀ j < s.nextTaskId, s.stage h j = .awaiting → CallsBack (s.hosts h) j
  | .host g (.job j (.endCall none)) =>
    g = h → (s.hosts h).stopping = true → CallsBack (s.hosts h) j
  | .host g (.timer k .endCallback) =>
    g = h → (s.hosts h).stopping = true → ∀ j ∈ ((s.hosts h).timers k).owner,
      s.stage h j = .awaiting → OtherCallsBack (s.hosts h) k j
  | .host g .activate =>
    g = h → (s.hosts h).stopping = true → (s.hosts h).httpServer = true
  | _ => True

instance (h : H) (s : Sys H) (a : Action H) : Decidable (SettlesByTimers h s a) := by
  unfold SettlesByTimers
  split <;> infer_instance

instance (h : H) (s : Sys H) (a : Action H) : Decidable (Drains h s a) := by
  unfold Drains
  split <;> infer_instance

instance (s : Sys H) (h : H) : Decidable (Quiescent s h) :=
  inferInstanceAs (Decidable (_ ∧ _ ∧ (_ ∨ _ ∧ _ ∧ _) ∧ (∀ j < s.nextTaskId, _) ∧
    (∀ k < (s.hosts h).nextTimer, _) ∧ _ ∧ _))

/-- What the condition keeps: the server's flags, and no job of a stopping host awaiting
without its callback. -/
structure Draining (s : Sys H) (h : H) : Prop where
  server : HostLoop.ServerOk (s.hosts h)
  awaiting : (s.hosts h).stopping = true → ∀ j, s.stage h j = .awaiting → CallsBack (s.hosts h) j

omit [DecidableEq H] in
theorem draining_init (limit : H → ℤ) (h : H) : Draining (init limit) h := by
  refine ⟨⟨?_,?_⟩,?_⟩ <;> simp [init,HostLoop.start]

theorem draining_step {s t : Sys H} {a : Action H} {h : H} (hi : Inv s) (hd : Draining s h)
    (hcond : Drains h s a) (hs : step s a = some t) : Draining t h := by
  rcases own_step hs h with he | ⟨a',ha',hown⟩
  · refine ⟨he ▸ hd.server,?_⟩
    simpa only [Sys.stage,he] using hd.awaiting
  · have hcond' : ∀ b, a' = b → (∀ j fnName args, b ≠ .register j fnName args) →
        Drains h s (.host h b) := by
      rintro b rfl hno
      rcases hown with rfl | ⟨j,fnName,args,rfl⟩
      · exact hcond
      · exact absurd rfl (hno j fnName args)
    have hq := (hi.hosts h).1.queue
    refine ⟨HostLoop.server_step hd.server ha' fun hb => ?_,?_⟩
    · exact hcond' _ hb (by simp) rfl
    · refine HostLoop.awaiting_step hq ha' hd.awaiting ?_ ?_ ?_
      · intro hb j hj
        refine hcond' _ hb (by simp) rfl j ?_ hj
        by_contra hlt
        have habsent := hi.fresh h j (Nat.le_of_not_lt hlt)
        rw [Sys.stage,hj] at habsent
        cases habsent
      · intro hstop j hb
        exact hcond' _ hb (by simp) rfl hstop
      · intro hstop k j hb howner hj
        exact hcond' _ hb (by simp) rfl hstop j howner hj

omit [DecidableEq H] in
theorem idle_of_quiescent {s : Sys H} {h : H} (hi : Inv s) (hq : Quiescent s h) :
    HostLoop.Idle (s.hosts h) := by
  obtain ⟨hdepth,hlistening,hdispatcher,hjobs,htimers,haccepting,hothers⟩ := hq
  refine ⟨hdepth,hlistening,?_,fun j => ?_,fun k => ?_,haccepting,hothers⟩
  · rcases hdispatcher with hd | ⟨hd,hqueue,hclosed⟩
    · exact .inl hd
    · exact .inr ⟨hd,by simp [Mailbox.Ready,hqueue,hclosed]⟩
  · by_cases hj : j < s.nextTaskId
    · exact hjobs j hj
    · have habsent := hi.fresh h j (by omega)
      rw [Sys.stage] at habsent
      rw [habsent]
      rfl
  · by_cases hk : k < (s.hosts h).nextTimer
    · exact htimers k hk
    · rw [(hi.hosts h).1.unset k (by omega)]
      rfl

theorem join_step {s : Sys H} {h : H} (hl : (s.hosts h).life = .cancelled)
    (hx : (s.hosts h).exited = true) : step s (.host h .join) =
      some { s with hosts := Function.update s.hosts h { s.hosts h with life := .returned } } := by
  simp [step,allows,HostLoop.step,HostLoop.Action.onThread,HostLoop.move,HostLoop.destroy,hl,hx,
    HostLoop.Action.forgets,forgetTask]

theorem exit_step {s : Sys H} {h : H} (hops : (s.hosts h).pendingOps = 0)
    (hactive : (s.hosts h).httpActive = false) (hdepth : (s.hosts h).depth = 0)
    (hlistening : (s.hosts h).listening = false) (hx : (s.hosts h).exited = false) :
    step s (.host h .exit) =
      some { s with hosts := Function.update s.hosts h { s.hosts h with exited := true } } := by
  simp [step,allows,HostLoop.step,HostLoop.move,HostLoop.exit,hops,hactive,hdepth,hlistening,hx,
    HostLoop.Action.forgets,forgetTask]

theorem joinReturns_of_zero {s : Sys H} {h : H} (ht : TornDown s h)
    (hops : (s.hosts h).pendingOps = 0) (hactive : (s.hosts h).httpActive = false)
    (hdepth : (s.hosts h).depth = 0) (hlistening : (s.hosts h).listening = false) :
    JoinReturns s h := by
  rcases ht with hl | hl
  · cases hx : (s.hosts h).exited with
    | true =>
      refine ⟨[.host h .join],_,by simp,Trace.run_cons.mpr ⟨_,join_step hl hx,rfl⟩,?_⟩
      simp
    | false =>
      refine ⟨[.host h .exit,.host h .join],_,by simp,Trace.run_cons.mpr
        ⟨_,exit_step hops hactive hdepth hlistening hx,Trace.run_cons.mpr
          ⟨_,join_step (by simpa using hl) (by simp),rfl⟩⟩,?_⟩
      simp
  · exact ⟨[],s,by simp,rfl,hl⟩

/-- In every run in which the tear-down of `h` leaves no job awaiting, whenever
`destroy_host` has cancelled the timers and the host has nothing left to run, its
counters are zero and the join returns. -/
theorem destroy_ends_of_drains {limit : H → ℤ} {as : List (Action H)} {s : Sys H} {h : H}
    (hs : run (init limit) as = some s) (hd : Trace.Meets step (Drains h) (init limit) as)
    (ht : TornDown s h) (hq : Quiescent s h) :
    (s.hosts h).pendingOps = 0 ∧ (s.hosts h).httpActive = false ∧ JoinReturns s h := by
  have hboth : Inv s ∧ Draining s h :=
    Trace.run_keeps_of_meets (I := fun s => Inv s ∧ Draining s h)
      (fun _ _ _ hI hC hstep => ⟨inv_step hI.1 hstep,draining_step hI.1 hI.2 hC hstep⟩)
      ⟨inv_init limit,draining_init limit h⟩ hd hs
  obtain ⟨hi,hdrain⟩ := hboth
  obtain ⟨hinv,hlives⟩ := hi.hosts h
  have hrank : 6 ≤ (s.hosts h).life.rank := by
    rcases ht with ht | ht <;> simp [ht,HostLoop.Life.rank]
  have hidle := idle_of_quiescent hi hq
  have hzero := HostLoop.counters_of_idle hinv hdrain.server
    (hlives.closed.mpr (by omega)) (hdrain.awaiting (hlives.stopping.mpr (by omega))) hidle
  exact ⟨hzero.1,hzero.2,joinReturns_of_zero ht hzero.1 hzero.2 hidle.depth hidle.listening⟩

theorem local_step {s t : Sys H} {h : H} {a : HostLoop.Action} (hs : step s (.host h a) = some t) :
    HostLoop.step (s.hosts h) a = some (t.hosts h) := by
  simp only [step,Option.ite_none_right_eq_some] at hs
  obtain ⟨-,hs⟩ := hs
  cases hg : HostLoop.step (s.hosts h) a with
  | none => simp [hg] at hs
  | some g =>
    simp only [hg,Option.some.injEq] at hs
    subst hs
    simp

/-- A job whose timer calls it back just while `destroy_host` shuts its host down. -/
def calledBackAtShutdown : List (Action Unit) :=
  [.host () .insert,.submit () "sleep" {},.host () (.send 1),.host () .recv,.host () .dispatch,
    .host () (.job 1 (.start false)),.host () (.job 1 (.call true true)),
    .host () (.setTimeout (some 1)),.host () (.job 1 (.endCall none)),.host () (.timer 1 .body),
    .host () (.timer 1 .expire),.host () (.timer 1 .run),.host () .erase,.host () .close,
    .host () .drained,.host () .shutdown,.host () .cancelAllTimers,
    .host () (.job 1 (.settle (.value .undefined))),.host () (.job 1 .resume),
    .host () (.job 1 .reply),.host () (.job 1 .release),.host () (.job 1 .count),
    .host () (.job 1 .forget),.host () (.timer 1 .endCallback),.host () .recv]

theorem destroy_ends_of_drains_sample :
    ∃ s, run (init fun _ : Unit => 64) calledBackAtShutdown = some s ∧
      (s.hosts ()).pendingOps = 0 ∧ (s.hosts ()).httpActive = false ∧ JoinReturns s () := by
  refine ⟨_,rfl,?_⟩
  exact destroy_ends_of_drains
    (show run (init fun _ => 64) calledBackAtShutdown = some _ from rfl) (by decide)
    (.inl (by decide)) (by decide)

theorem left_of_breach {s t : Sys H} {h : H} {a : Action H} (hs : step s a = some t)
    (hb : ¬ Drains h s a) (hne : a ≠ .host h .activate) :
    (t.hosts h).stopping = true ∧ ∃ j, t.stage h j = .awaiting ∧ ¬ CallsBack (t.hosts h) j := by
  unfold Drains at hb
  split at hb
  · simp only [Classical.not_imp,not_forall] at hb
    obtain ⟨rfl,j,-,hj,hc⟩ := hb
    obtain ⟨hstop,hjobs,htimers,hnext⟩ := HostLoop.shutdown_leaves (local_step hs)
    refine ⟨hstop,j,?_,?_⟩
    · rwa [Sys.stage,HostLoop.Host.stage,hjobs]
    · rwa [HostLoop.callsBack_congr htimers hnext]
  · simp only [Classical.not_imp] at hb
    obtain ⟨rfl,hstop,hc⟩ := hb
    obtain ⟨hsame,hj,htimers,hnext⟩ := HostLoop.endCall_leaves (local_step hs)
    refine ⟨hsame.trans hstop,_,hj,?_⟩
    rwa [HostLoop.callsBack_congr htimers hnext]
  · simp only [Classical.not_imp,not_forall] at hb
    obtain ⟨rfl,hstop,j,howner,hj,hc⟩ := hb
    obtain ⟨hsame,hjobs,hnext,htimers⟩ := HostLoop.endCallback_leaves (local_step hs)
    refine ⟨hsame.trans hstop,j,?_,?_⟩
    · rwa [Sys.stage,HostLoop.Host.stage,hjobs]
    · rintro ⟨i,hi,hcall,hown⟩
      rw [htimers] at hcall hown
      rename_i k
      by_cases hik : i = k
      · simp [hik] at hcall
      · rw [Function.update_of_ne hik] at hcall hown
        exact hc ⟨i,hnext ▸ hi,hik,hcall,hown⟩
  · simp only [Classical.not_imp] at hb
    exact absurd (by rw [hb.1]) hne
  · exact absurd trivial hb

/-- A job of a stopping host that no callback is left for is settled in no continuation
in which jobs settle by their own timers, and `destroy_host` never returns. -/
theorem hangs_of_left {limit : H → ℤ} {as bs : List (Action H)} {s t : Sys H} {h : H} {j : ℕ}
    (hs : run (init limit) as = some s) (ht : run s bs = some t)
    (hsettles : Trace.Meets step (SettlesByTimers h) s bs)
    (hstop : (s.hosts h).stopping = true) (hj : s.stage h j = .awaiting)
    (hc : ¬ CallsBack (s.hosts h) j) :
    0 < (t.hosts h).pendingOps ∧ (t.hosts h).exited = false ∧ (t.hosts h).life ≠ .returned := by
  have hleft : Inv t ∧ (t.hosts h).stopping = true ∧ t.stage h j = .awaiting ∧
      ¬ CallsBack (t.hosts h) j := by
    refine Trace.run_keeps_of_meets (I := fun t => Inv t ∧ (t.hosts h).stopping = true ∧
      t.stage h j = .awaiting ∧ ¬ CallsBack (t.hosts h) j) ?_ ⟨inv_run hs,hstop,hj,hc⟩ hsettles ht
    rintro u a v ⟨hi,hst,haw,hcb⟩ hC hstep
    refine ⟨inv_step hi hstep,?_⟩
    rcases own_step hstep h with he | ⟨a',ha',hown⟩
    · simp only [Sys.stage,he] at haw ⊢
      exact ⟨hst,haw,hcb⟩
    · refine HostLoop.left_awaiting_step (hi.hosts h).1.queue ha' hst haw hcb ?_
      rintro o rfl
      rcases hown with rfl | ⟨i,fnName,args,hne⟩
      · exact hC rfl
      · cases hne
  obtain ⟨hi,-,haw,-⟩ := hleft
  obtain ⟨hinv,hlives⟩ := hi.hosts h
  have hshare : 0 < HostLoop.opShare (t.hosts h) (.job j) := by
    rw [Sys.stage] at haw
    simp [HostLoop.opShare,haw,HostLoop.JobStage.ops]
  have hpos := hinv.counted.pendingOps.pos (HostLoop.opShare_nonneg _) hshare
  have hx : (t.hosts h).exited = false := by
    by_contra hx
    have := (hlives.exited (by simpa using hx)).1
    omega
  refine ⟨hpos,hx,fun hl => ?_⟩
  simp [hlives.returned hl] at hx

/-- The converse: a run that breaks the condition on jobs, while they settle by their own
timers, reaches no state in which `destroy_host` has returned. -/
theorem destroy_hangs_of_breach {limit : H → ℤ} {as : List (Action H)} {s : Sys H} {h : H}
    (hs : run (init limit) as = some s) (hb : ¬ Trace.Meets step (Drains h) (init limit) as)
    (hsettles : Trace.Meets step (SettlesByTimers h) (init limit) as)
    (hactivate : .host h .activate ∉ as) :
    0 < (s.hosts h).pendingOps ∧ (s.hosts h).exited = false ∧ (s.hosts h).life ≠ .returned := by
  obtain ⟨bs,a,cs,t,u,rfl,ht,-,ha,hu,hcs⟩ := Trace.exists_first_breach hs hb
  have hne : a ≠ .host h .activate := by
    rintro rfl
    simp at hactivate
  obtain ⟨hstop,j,hj,hc⟩ := left_of_breach hu ha hne
  have hrun : run (init limit) (bs++[a]) = some u :=
    Trace.run_append.mpr ⟨t,ht,Trace.run_cons.mpr ⟨u,hu,rfl⟩⟩
  have hrest := ((Trace.meets_append ht).mp hsettles).2
  exact hangs_of_left hrun hcs ((Trace.meets_cons hu).mp hrest).2 hstop hj hc

/-- In every run of jobs that settle by their own timers, a host that `destroy_host` has
torn down and that has nothing left to run counts nothing, and the join returns. -/
def NeverStuck (limit : H → ℤ) : Prop :=
  ∀ as s h, run (init limit) as = some s →
    Trace.Meets step (SettlesByTimers h) (init limit) as → TornDown s h → Quiescent s h →
      (s.hosts h).pendingOps = 0 ∧ (s.hosts h).httpActive = false ∧ JoinReturns s h

/-- A job still queued when its host is destroyed awaits a timer, and the timer finds
the host stopping. -/
def queuedAtDestroy : List (Action Unit) :=
  [.host () .insert,.submit () "sleep" {},.host () (.send 1),.host () .erase,.host () .close,
    .host () .drained,.host () .shutdown,.host () .cancelAllTimers,.host () .recv,
    .host () .dispatch,.host () .recv,.host () (.job 1 (.start false)),
    .host () (.job 1 (.call true true)),.host () (.setTimeout (some 1)),
    .host () (.job 1 (.endCall none)),.host () (.timer 1 .body),.host () (.timer 1 .expire),
    .host () (.timer 1 .run)]

theorem not_neverStuck : ¬ NeverStuck fun _ : Unit => 64 := by
  intro hpromise
  obtain ⟨s,hs,hmeets,htorn,hquiet,hops⟩ : ∃ s,
      run (init fun _ : Unit => 64) queuedAtDestroy = some s ∧
      Trace.Meets step (SettlesByTimers ()) (init fun _ : Unit => 64) queuedAtDestroy ∧
      (s.hosts ()).life = .cancelled ∧ Quiescent s () ∧ (s.hosts ()).pendingOps = 1 :=
    ⟨_,rfl,by decide,by decide,by decide,by decide⟩
  have hzero := (hpromise queuedAtDestroy s () hs hmeets (.inl htorn) hquiet).1
  rw [hops] at hzero
  cases hzero

end HostManager
end AsioQuickjs
