import AsioQuickjs.HostLoopStep

/-! What holds of a host after every step: the queue and the dispatcher know
where each job is, the hand-kept counters are right, every job has the answers
its stage says, and the tear-down is where its flags say. -/
namespace AsioQuickjs
namespace HostLoop

open HostJob

/-- The queue and the dispatcher know which jobs they have. -/
structure Queued (h : Host) : Prop where
  nodup : h.jobTx.queue.Nodup
  queued : ∀ j, h.stage j = .queued ↔ j ∈ h.jobTx.queue
  held : ∀ j, h.stage j = .held ↔ h.dispatcher = .holding j ∨ h.dispatcher = .sleeping j
  ended : h.dispatcher = .done → h.jobTx.closed = true ∧ h.jobTx.queue = []

structure Inv (h : Host) : Prop where
  queue : Queued h
  counted : Counted h
  answered : ∀ j, Answered (h.jobs j)
  unset : ∀ k, h.nextTimer ≤ k → (h.timers k).stage = .unset

@[simp] theorem setJob_dispatcher (h : Host) (j : ℕ) (x : Job) :
    (h.setJob j x).dispatcher = h.dispatcher := rfl

theorem stage_setJob (h : Host) (j : ℕ) (x : Job) (i : ℕ) :
    (h.setJob j x).stage i = if i = j then x.stage else h.stage i := by
  by_cases hi : i = j <;> simp [Host.stage,Host.setJob,hi]

theorem queued_job {h : Host} {j : ℕ} {x : Job} {c : Charge} (hq : Queued h)
    (hm : Moves (h.jobs j) x c) : Queued ((h.setJob j x).charge c) := by
  refine ⟨hq.nodup,?_,?_,hq.ended⟩
  · intro i
    have hstage : ((h.setJob j x).charge c).stage i = if i = j then x.stage else h.stage i :=
      stage_setJob h j x i
    rw [hstage]
    split
    · next hi =>
      subst hi
      exact iff_of_false hm.queued.2 fun hmem => hm.queued.1 ((hq.queued i).mpr hmem)
    · exact hq.queued i
  · intro i
    have hstage : ((h.setJob j x).charge c).stage i = if i = j then x.stage else h.stage i :=
      stage_setJob h j x i
    rw [hstage]
    split
    · next hi =>
      subst hi
      exact iff_of_false hm.held.2 fun hd => hm.held.1 ((hq.held i).mpr hd)
    · exact hq.held i

theorem queued_shape {h g : Host} (hq : Queued h) (hs : Shape h g) : Queued g := by
  cases hs with
  | still hs =>
    have hstage : ∀ j, g.stage j = h.stage j := fun j => by simp only [Host.stage,hs.jobs]
    refine ⟨hs.queue ▸ hq.nodup,?_,?_,?_⟩
    · simpa only [hstage,hs.queue] using hq.queued
    · simpa only [hstage,hs.dispatcher] using hq.held
    · intro hd
      rw [hs.dispatcher] at hd
      exact ⟨hs.closed (hq.ended hd).1,hs.queue ▸ (hq.ended hd).2⟩
  | job hm => exact queued_job hq hm
  | timer _ _ => exact ⟨hq.nodup,hq.queued,hq.held,hq.ended⟩
  | setTimeout owner => exact ⟨hq.nodup,hq.queued,hq.held,hq.ended⟩
  | @send j hstage hopen =>
    have hnot : j ∉ h.jobTx.queue := fun hmem => by
      simp [(hq.queued j).mpr hmem] at hstage
    refine ⟨?_,?_,?_,?_⟩
    · simpa [List.nodup_append] using ⟨hq.nodup,fun a ha he => hnot (he ▸ ha)⟩
    · intro i
      change (h.setJob j _).stage i = .queued ↔ i ∈ h.jobTx.queue++[j]
      rw [stage_setJob]
      by_cases hi : i = j <;> simp [hi,hq.queued]
    · intro i
      change (h.setJob j _).stage i = .held ↔ _
      rw [stage_setJob]
      by_cases hi : i = j
      · have hno := mt (hq.held i).mpr (by simp [hi,hstage])
        simpa [hi] using hno
      · simpa [hi] using hq.held i
    · intro hd
      simp [(hq.ended hd).1] at hopen
  | @recv j q hd hqueue =>
    have hnodup := hq.nodup
    rw [hqueue,List.nodup_cons] at hnodup
    refine ⟨hnodup.2,?_,?_,by simp⟩
    · intro i
      change (h.setJob j _).stage i = .queued ↔ i ∈ q
      rw [stage_setJob]
      by_cases hi : i = j
      · simpa [hi] using hnodup.1
      · simp [hi,hq.queued,hqueue]
    · intro i
      change (h.setJob j _).stage i = .held ↔ Dispatcher.holding j = .holding i ∨ _
      rw [stage_setJob]
      by_cases hi : i = j
      · simp [hi]
      · have hno : h.stage i ≠ .held := fun hh => by simpa [hd] using (hq.held i).mp hh
        simpa [hi,hno] using fun he => hi he.symm
  | ended hd hqueue hclosed =>
    refine ⟨hq.nodup,hq.queued,?_,fun _ => ⟨hclosed,hqueue⟩⟩
    intro i
    refine iff_of_false ?_ (by simp)
    intro hh
    simpa [hd] using (hq.held i).mp hh
  | @dispatch j hd =>
    have hheld : h.stage j = .held := (hq.held j).mpr (.inl hd)
    refine ⟨hq.nodup,?_,?_,by simp⟩
    · intro i
      change (h.setJob j _).stage i = .queued ↔ i ∈ h.jobTx.queue
      rw [stage_setJob]
      by_cases hi : i = j
      · subst hi
        simpa using fun hmem => by simp [(hq.queued i).mpr hmem] at hheld
      · simpa [hi] using hq.queued i
    · intro i
      change (h.setJob j _).stage i = .held ↔ _
      rw [stage_setJob]
      by_cases hi : i = j
      · simp [hi]
      · have hno : h.stage i ≠ .held := fun hh => by
          have := (hq.held i).mp hh
          simp only [hd,Dispatcher.holding.injEq,reduceCtorEq,or_false] at this
          exact hi this.symm
        simpa [hi] using hno
  | @sleep j hd =>
    refine ⟨hq.nodup,hq.queued,fun i => ?_,by simp⟩
    change h.stage i = .held ↔ _
    simpa [hd] using hq.held i
  | @wake j hd =>
    refine ⟨hq.nodup,hq.queued,fun i => ?_,by simp⟩
    change h.stage i = .held ↔ _
    simpa [hd] using hq.held i

theorem counted_shape {h g : Host} (hq : Queued h)
    (hunset : ∀ k, h.nextTimer ≤ k → (h.timers k).stage = .unset) (hc : Counted h)
    (hs : Shape h g) : Counted g := by
  cases hs with
  | still hs =>
    exact hc.still (fun j => by simp only [Host.stage,hs.jobs])
      (fun k => ⟨(hs.timers k).1,(hs.timers k).2.1⟩) (by rw [hs.dispatcher]) hs.pendingOps
      ⟨hs.inFlight,hs.depth⟩
  | @job j x c hm => exact hc.job j rfl rfl Iff.rfl rfl ⟨rfl,rfl,rfl⟩ hm.charge
  | @timer k a t c _ ht => exact hc.timer k rfl rfl rfl rfl ⟨rfl,rfl,rfl⟩ (timer_charge ht)
  | setTimeout owner =>
    refine hc.timer h.nextTimer rfl rfl rfl rfl ⟨rfl,rfl,rfl⟩ ?_
    simp [hunset h.nextTimer (Nat.le_refl _),TimerStage.ops,TimerStage.depth]
  | @send j hstage _ =>
    refine hc.job (c := {}) j rfl rfl Iff.rfl rfl (by simp [Host.setJob]) ?_
    simp [hstage,JobStage.ops,JobStage.flight,JobStage.depth]
  | @recv j q hd hqueue =>
    have hstage : h.stage j = .queued := (hq.queued j).mpr (by simp [hqueue])
    refine hc.job (c := {}) j rfl rfl (by simp [hd]) rfl (by simp [Host.setJob]) ?_
    simp [hstage,JobStage.ops,JobStage.flight,JobStage.depth]
  | ended hd hqueue hclosed =>
    refine hc.change .dispatcher ?_ ?_ ?_ ?_
    · rintro (j | k | _ | _) hy <;> simp_all [opShare,Host.stage]
    · rintro (j | k | _ | _) hy <;> simp_all [flightShare,Host.stage]
    · rintro (j | k | _ | _) hy <;> simp_all [depthShare,Host.stage]
    · simp [opShare,flightShare,depthShare,hd]
  | @dispatch j hd =>
    have hstage : h.stage j = .held := (hq.held j).mpr (.inl hd)
    refine hc.job (c := { pendingOps := 1, inFlight := 1 }) j rfl rfl (by simp [hd]) rfl
      ⟨rfl,rfl,rfl⟩ ?_
    simp [hstage,JobStage.ops,JobStage.flight,JobStage.depth]
  | @sleep j hd => exact hc.still (fun _ => rfl) (fun _ => ⟨rfl,rfl⟩) (by simp [hd]) (by simp) ⟨rfl,rfl⟩
  | @wake j hd => exact hc.still (fun _ => rfl) (fun _ => ⟨rfl,rfl⟩) (by simp [hd]) (by simp) ⟨rfl,rfl⟩

theorem answered_setJob {h : Host} {j : ℕ} {x : Job} (ha : ∀ i, Answered (h.jobs i))
    (hx : Answered x) (i : ℕ) : Answered (Function.update h.jobs j x i) := by
  by_cases hi : i = j
  · simpa [hi] using hx
  · simpa [Function.update_of_ne hi] using ha i

theorem answered_shape {h g : Host} (hq : Queued h) (ha : ∀ j, Answered (h.jobs j))
    (hs : Shape h g) (j : ℕ) : Answered (g.jobs j) := by
  cases hs with
  | still hs => simpa only [hs.jobs] using ha j
  | @job i x c hm => exact answered_setJob ha (hm.answered (ha i)) j
  | timer _ _ => exact ha j
  | setTimeout owner => exact ha j
  | @send i hstage _ =>
    refine answered_setJob ha ?_ j
    have hi := ha i
    rw [Host.stage] at hstage
    simpa only [Answered,hstage] using hi
  | @recv i q _ hqueue =>
    refine answered_setJob ha ?_ j
    have hi := ha i
    have hstage : (h.jobs i).stage = .queued := (hq.queued i).mpr (by simp [hqueue])
    simpa only [Answered,hstage] using hi
  | ended _ _ _ => exact ha j
  | @dispatch i hd =>
    refine answered_setJob ha ?_ j
    have hi := ha i
    have hstage : (h.jobs i).stage = .held := (hq.held i).mpr (.inl hd)
    simpa only [Answered,hstage] using hi
  | sleep _ => exact ha j
  | wake _ => exact ha j

theorem unset_shape {h g : Host} (hu : ∀ k, h.nextTimer ≤ k → (h.timers k).stage = .unset)
    (hs : Shape h g) (k : ℕ) (hk : g.nextTimer ≤ k) : (g.timers k).stage = .unset := by
  cases hs with
  | still hs => exact (hs.timers k).2.2 (hu k (hs.nextTimer ▸ hk))
  | @timer i a t c hi _ =>
    have hne : k ≠ i := fun he => by
      subst he
      exact Nat.lt_irrefl _ (Nat.lt_of_lt_of_le hi hk)
    simpa [Host.charge,Host.setTimer,Function.update_of_ne hne] using hu k hk
  | setTimeout owner =>
    simp only [setTimeout] at hk
    have hne : k ≠ h.nextTimer := by omega
    simpa [setTimeout,Host.charge,Host.setTimer,Function.update_of_ne hne] using hu k (by omega)
  | job _ => exact hu k hk
  | send _ _ => exact hu k hk
  | recv _ _ => exact hu k hk
  | ended _ _ _ => exact hu k hk
  | dispatch _ => exact hu k hk
  | sleep _ => exact hu k hk
  | wake _ => exact hu k hk

theorem inv_step {h g : Host} {a : Action} (hi : Inv h) (hs : step h a = some g) : Inv g :=
  have hshape := shape_of_step hs
  ⟨queued_shape hi.queue hshape,counted_shape hi.queue hi.unset hi.counted hshape,
    answered_shape hi.queue hi.answered hshape,unset_shape hi.unset hshape⟩

/-- The flags say where `destroy_host` is, and the loop ended with nothing counted. -/
structure Lives (h : Host) : Prop where
  closed : h.jobTx.closed = true ↔ 3 ≤ h.life.rank
  stopping : h.stopping = true ↔ 5 ≤ h.life.rank
  exited : h.exited = true → h.pendingOps = 0 ∧ h.depth = 0
  returned : h.life = .returned → h.exited = true

/-- A step outside `destroy_host`. Off the host's thread it leaves the counters alone,
and on it there is none once the loop has ended. -/
theorem lives_frame {h g : Host} {a : Action} (hl : Lives h) (hs : step h a = some g)
    (ha : a.tearsDown = false) : Lives g := by
  have hf := frame_step hs
  obtain ⟨hlife,hclosed,hexited⟩ := hf.slot ha
  have hstopping := hf.stopping (fun he => by simp [he,Action.tearsDown] at ha)
  refine ⟨?_,?_,?_,?_⟩
  · rw [hclosed,hlife]
    exact hl.closed
  · rw [hstopping,hlife]
    exact hl.stopping
  · intro hx
    rw [hexited] at hx
    have hoff : a.onThread = false := by
      cases hon : a.onThread with
      | false => rfl
      | true => simp [step,hx,hon] at hs
    rw [(hf.counters hoff).1,(hf.counters hoff).2]
    exact hl.exited hx
  · rw [hlife,hexited]
    exact hl.returned

theorem lives_destroy {h g : Host} {p q : Life} {f : Host → Host} (hl : Lives h)
    (hd : destroy h p q f = some g) (hcounters : (f h).pendingOps = h.pendingOps ∧
      (f h).depth = h.depth ∧ (f h).exited = h.exited)
    (hclosed : h.life = p → ((f h).jobTx.closed = true ↔ 3 ≤ q.rank))
    (hstopping : h.life = p → ((f h).stopping = true ↔ 5 ≤ q.rank))
    (hreturned : q = .returned → h.exited = true) : Lives g := by
  simp only [destroy,Option.ite_none_right_eq_some,Option.some.injEq] at hd
  obtain ⟨hp,rfl⟩ := hd
  obtain ⟨hops,hdepth,hexited⟩ := hcounters
  refine ⟨hclosed hp,hstopping hp,?_,?_⟩
  · intro hx
    simp only [hexited] at hx
    simpa only [hops,hdepth] using hl.exited hx
  · intro hq
    simpa only [hexited] using hreturned hq

theorem lives_pass {h g : Host} {p q : Life} {f : Host → Host} (hl : Lives h)
    (hd : destroy h p q f = some g) (hcounters : (f h).pendingOps = h.pendingOps ∧
      (f h).depth = h.depth ∧ (f h).exited = h.exited)
    (hflags : (f h).jobTx = h.jobTx ∧ (f h).stopping = h.stopping)
    (hrank : (3 ≤ p.rank ↔ 3 ≤ q.rank) ∧ (5 ≤ p.rank ↔ 5 ≤ q.rank))
    (hreturned : q = .returned → h.exited = true) : Lives g := by
  refine lives_destroy hl hd hcounters (fun hp => ?_) (fun hp => ?_) hreturned
  · rw [hflags.1,hl.closed,hp,hrank.1]
  · rw [hflags.2,hl.stopping,hp,hrank.2]

theorem lives_step {h g : Host} {a : Action} (hl : Lives h) (hs : step h a = some g) :
    Lives g := by
  cases ha : a.tearsDown with
  | false => exact lives_frame hl hs ha
  | true =>
    simp only [step,Option.ite_none_left_eq_some] at hs
    obtain ⟨-,hs⟩ := hs
    cases a <;> simp only [Action.tearsDown,Bool.false_eq_true] at ha <;> simp only [move] at hs
    case insert =>
      simp only [Option.ite_none_right_eq_some] at hs
      exact lives_pass hl hs.2 ⟨rfl,rfl,rfl⟩ ⟨rfl,rfl⟩ (by decide) (by simp)
    case erase => exact lives_pass hl hs ⟨rfl,rfl,rfl⟩ ⟨rfl,rfl⟩ (by decide) (by simp)
    case close =>
      refine lives_destroy hl hs ⟨rfl,rfl,rfl⟩ (fun _ => ?_) (fun hp => ?_) (by simp)
      · simp [Mailbox.close,Life.rank]
      · simpa [hp,Life.rank] using hl.stopping
    case drained => exact lives_pass hl hs ⟨rfl,rfl,rfl⟩ ⟨rfl,rfl⟩ (by decide) (by simp)
    case shutdown =>
      refine lives_destroy hl hs ⟨rfl,rfl,rfl⟩ (fun hp => ?_) (fun _ => ?_) (by simp)
      · simpa [hp,Life.rank,shutdown] using hl.closed
      · simp [Life.rank,shutdown]
    case cancelAllTimers =>
      exact lives_pass hl hs ⟨rfl,rfl,rfl⟩ ⟨rfl,rfl⟩ (by decide) (by simp)
    case join =>
      simp only [Option.ite_none_right_eq_some] at hs
      exact lives_pass hl hs.2 ⟨rfl,rfl,rfl⟩ ⟨rfl,rfl⟩ (by decide) (fun _ => hs.1)
    case exit =>
      simp only [exit,Option.ite_none_right_eq_some,Option.some.injEq] at hs
      obtain ⟨⟨hops,-,hdepth,-⟩,rfl⟩ := hs
      exact ⟨hl.closed,hl.stopping,fun _ => ⟨hops,hdepth⟩,fun _ => rfl⟩

theorem inv_start (limit : ℤ) : Inv (start limit) := by
  refine ⟨⟨List.nodup_nil,?_,?_,by simp [start]⟩,⟨⟨{.dispatcher},?_,?_⟩,.none ?_,.none ?_⟩,
    fun _ => ⟨rfl,rfl,rfl⟩,fun _ _ => rfl⟩
  · intro j
    simp [start,Host.stage]
  · intro j
    simp [start,Host.stage]
  · rintro (j | k | _ | _) hx <;>
      simp_all [start,opShare,Host.stage,JobStage.ops,TimerStage.ops]
  · simp [start,opShare]
  · rintro (j | k | _ | _) <;> simp [start,flightShare,Host.stage,JobStage.flight]
  · rintro (j | k | _ | _) <;>
      simp [start,depthShare,Host.stage,JobStage.depth,TimerStage.depth]

theorem lives_start (limit : ℤ) : Lives (start limit) := by
  constructor <;> simp [start,Life.rank]

/-- No entry in `cancels_` any more. -/
def JobStage.ended : JobStage → Bool
  | .refused | .finished => true
  | _ => false

/-- `submit` has returned a handle for the job, or is about to: its send was accepted. -/
def JobStage.accepted : JobStage → Bool
  | .absent | .submitting | .rejected | .refused => false
  | _ => true

/-- The action `a` takes the job `j` from stage `p` to stage `q`. -/
structure Goes (a : Action) (j : ℕ) (p q : JobStage) : Prop where
  absent : p = .absent → ∃ fnName args, a = .register j fnName args
  present : q ≠ .absent
  ended : p.ended = false ∧ (q.ended = true ↔ a.forgets = some j)
  accepted : p.accepted = true → q.accepted = true
  awaits : q = .awaiting → a = .job j (.endCall none)
  settles : p = .awaiting → ∃ o, a = .job j (.settle o)

theorem goes_advance {x y : Job} {a : JobAction} {c : Charge} (j : ℕ)
    (h : x.advance a = some (y,c)) : Goes (.job j a) j x.stage y.stage := by
  revert h
  fun_cases Job.advance x a <;> rintro ⟨⟩ <;>
    constructor <;> simp_all [JobStage.ended,JobStage.accepted,Action.forgets]

theorem stays_or_goes_setJob {h : Host} {a : Action} {i j : ℕ} {x : Job}
    (hj : Goes a i (h.stage i) x.stage) (hforgets : a.forgets = some j → j = i) :
    (h.setJob i x).stage j = h.stage j ∧ a.forgets ≠ some j ∨
      Goes a j (h.stage j) ((h.setJob i x).stage j) := by
  rw [stage_setJob]
  by_cases he : j = i
  · subst he
    simpa using .inr hj
  · left
    exact ⟨by simp [he],fun hf => he (hforgets hf)⟩

theorem stays_or_goes_moved {h g : Host} {a : Action} (hq : Queued h) (hs : step h a = some g)
    (ha : a.movesJobs = true) (j : ℕ) :
    g.stage j = h.stage j ∧ a.forgets ≠ some j ∨ Goes a j (h.stage j) (g.stage j) := by
  simp only [step,Option.ite_none_left_eq_some] at hs
  obtain ⟨-,hs⟩ := hs
  cases a <;> simp only [Action.movesJobs,Bool.false_eq_true] at ha <;> simp only [move] at hs
  case register i fnName args =>
    simp only [register,Option.ite_none_right_eq_some,Option.some.injEq] at hs
    obtain ⟨⟨-,hstage⟩,rfl⟩ := hs
    refine stays_or_goes_setJob ?_ (by simp [Action.forgets])
    rw [hstage]
    constructor <;> simp [JobStage.ended,JobStage.accepted,Action.forgets]
  case send i =>
    obtain ⟨hstage,⟨-,rfl⟩ | ⟨-,rfl⟩⟩ := send_cases hs <;>
    · refine stays_or_goes_setJob ?_ (by simp [Action.forgets])
      rw [hstage]
      constructor <;> simp [JobStage.ended,JobStage.accepted,Action.forgets]
  case recv =>
    obtain ⟨-,⟨i,q,hqueue,rfl⟩ | ⟨-,-,rfl⟩⟩ := recv_cases hs
    · have hstage : h.stage i = .queued := (hq.queued i).mpr (by simp [hqueue])
      refine stays_or_goes_setJob ?_ (by simp [Action.forgets])
      rw [hstage]
      constructor <;> simp [JobStage.ended,JobStage.accepted,Action.forgets]
    · exact .inl ⟨rfl,by simp [Action.forgets]⟩
  case dispatch =>
    obtain ⟨i,hd,⟨-,rfl⟩ | ⟨-,rfl⟩⟩ := dispatch_cases hs
    · exact .inl ⟨rfl,by simp [Action.forgets]⟩
    · have hstage : h.stage i = .held := (hq.held i).mpr (.inl hd)
      refine stays_or_goes_setJob ?_ (by simp [Action.forgets])
      rw [hstage]
      constructor <;> simp [JobStage.ended,JobStage.accepted,Action.forgets]
  case job i a =>
    revert hs
    fun_cases advanceJob h i a <;> rintro ⟨⟩
    rename_i hx
    refine stays_or_goes_setJob (goes_advance i hx) ?_
    cases a <;> simp [Action.forgets,eq_comm]

theorem stays_or_goes {h g : Host} {a : Action} (hq : Queued h) (hs : step h a = some g) (j : ℕ) :
    g.stage j = h.stage j ∧ a.forgets ≠ some j ∨ Goes a j (h.stage j) (g.stage j) := by
  cases ha : a.movesJobs with
  | false =>
    refine .inl ⟨by rw [Host.stage,(frame_step hs).jobs ha,Host.stage],fun hf => ?_⟩
    cases a <;> simp_all [Action.movesJobs,Action.forgets]
  | true => exact stays_or_goes_moved hq hs ha j

end HostLoop
end AsioQuickjs
