import AsioQuickjs.JobAnswers

/-! Backpressure and the order of starts. The dispatcher takes the jobs out of the queue in
the order their sends were accepted and spawns each only below the bound; what happens
to a job on the way is marked, and the marks are read against its stage. -/
namespace AsioQuickjs
namespace HostLoop

open HostJob

/-- Its send was accepted, `job_worker_loop` spawned it, `execute_job` began,
`run_one_job` passed its decrement. -/
inductive Mark
  | accepted | spawned | begun | released
  deriving DecidableEq

structure Event where
  mark : Mark
  job : ℕ
  deriving DecidableEq

def events (h : Host) : Action → List Event
  | .send j => if (Mailbox.send h.jobTx j).1 then [⟨.accepted,j⟩] else []
  | .dispatch =>
    match h.dispatcher with
    | .holding j => if h.maxInFlight ≤ h.inFlight then [] else [⟨.spawned,j⟩]
    | _ => []
  | .job j (.start _) => [⟨.begun,j⟩]
  | .job j .release => [⟨.released,j⟩]
  | _ => []

def jobsAt (m : Mark) (l : List Event) : List ℕ := (l.filter (·.mark = m)).map Event.job

def JobStage.has : Mark → JobStage → Bool
  | .accepted, s => s.accepted
  | .spawned, s =>
    match s with
    | .spawned | .loaded | .calling | .awaiting | .settled _ | .answering _ | .replied
    | .released | .counted | .finished => true
    | _ => false
  | .begun, s =>
    match s with
    | .loaded | .calling | .awaiting | .settled _ | .answering _ | .replied | .released
    | .counted | .finished => true
    | _ => false
  | .released, s =>
    match s with
    | .released | .counted | .finished => true
    | _ => false

def Dispatcher.held : Dispatcher → List ℕ
  | .holding j | .sleeping j => [j]
  | _ => []

def Host.pending (h : Host) : List ℕ := h.dispatcher.held++h.jobTx.queue

@[simp] theorem jobsAt_append (m : Mark) (l k : List Event) :
    jobsAt m (l++k) = jobsAt m l++jobsAt m k := by
  simp [jobsAt]

theorem mem_jobsAt {m : Mark} {l : List Event} {j : ℕ} : j ∈ jobsAt m l ↔ ⟨m,j⟩ ∈ l := by
  simp only [jobsAt,List.mem_map,List.mem_filter,decide_eq_true_eq]
  constructor
  · rintro ⟨⟨n,i⟩,⟨hmem,rfl⟩,rfl⟩
    exact hmem
  · exact fun hmem => ⟨⟨m,j⟩,⟨hmem,rfl⟩,rfl⟩

theorem jobsAt_nodup {l : List Event} (h : l.Nodup) (m : Mark) : (jobsAt m l).Nodup := by
  refine List.Nodup.map_on ?_ (h.filter _)
  rintro ⟨n,i⟩ hi ⟨n',i'⟩ hi' rfl
  simp only [List.mem_filter,decide_eq_true_eq] at hi hi'
  rw [hi.2,hi'.2]

/-- The step marks the jobs that come to have a mark, and the dispatcher keeps the order. -/
structure Marks (h g : Host) (l : List Event) : Prop where
  has : ∀ m j, (g.stage j).has m = true ↔ (h.stage j).has m = true ∨ ⟨m,j⟩ ∈ l
  fresh : ∀ m j, ⟨m,j⟩ ∈ l → (h.stage j).has m = false
  nodup : l.Nodup
  order : h.pending++jobsAt .accepted l = jobsAt .spawned l++g.pending

theorem marks_none {h g : Host} (hjobs : g.jobs = h.jobs) (hpending : g.pending = h.pending) :
    Marks h g [] :=
  ⟨fun m j => by simp [Host.stage,hjobs],by simp,.nil,by simp [jobsAt,hpending]⟩

theorem marks_setJob {h g : Host} {i : ℕ} {x : Job} {l : List Event}
    (hjobs : g.jobs = Function.update h.jobs i x)
    (hhas : ∀ m, x.stage.has m = true ↔ (h.stage i).has m = true ∨ ⟨m,i⟩ ∈ l)
    (hfresh : ∀ e ∈ l, e.job = i ∧ (h.stage i).has e.mark = false) (hnodup : l.Nodup)
    (horder : h.pending++jobsAt .accepted l = jobsAt .spawned l++g.pending) : Marks h g l := by
  refine ⟨fun m j => ?_,?_,hnodup,horder⟩
  · by_cases hj : j = i
    · subst hj
      simpa [Host.stage,hjobs] using hhas m
    · have hnot : ⟨m,j⟩ ∉ l := fun hmem => hj (hfresh _ hmem).1
      simp [Host.stage,hjobs,Function.update_of_ne hj,hnot]
  · intro m j hmem
    obtain ⟨rfl,hold⟩ := hfresh _ hmem
    exact hold

theorem marks_advance {x y : Job} {a : JobAction} {c : Charge} (h : Host) (i : ℕ)
    (hx : x.advance a = some (y,c)) :
    (∀ m, y.stage.has m = true ↔ x.stage.has m = true ∨ ⟨m,i⟩ ∈ events h (.job i a)) ∧
      (∀ e ∈ events h (.job i a), e.job = i ∧ x.stage.has e.mark = false) ∧
      (events h (.job i a)).Nodup ∧ jobsAt .accepted (events h (.job i a)) = [] ∧
      jobsAt .spawned (events h (.job i a)) = [] := by
  revert hx
  fun_cases Job.advance x a <;> rintro ⟨⟩ <;>
    simp [*,events,jobsAt,JobStage.has] <;> rintro (_ | _) <;>
    simp [*,JobStage.accepted]

theorem marks_step {h g : Host} {a : Action} (hq : Queued h) (hs : step h a = some g) :
    Marks h g (events h a) := by
  simp only [step,Option.ite_none_left_eq_some] at hs
  obtain ⟨-,hs⟩ := hs
  cases a <;> simp only [move] at hs
  case register i fnName args =>
    simp only [register,Option.ite_none_right_eq_some,Option.some.injEq] at hs
    obtain ⟨⟨-,habsent⟩,rfl⟩ := hs
    refine marks_setJob rfl ?_ (by simp [events]) .nil
      (by simp [events,jobsAt,Host.pending,Host.setJob])
    rintro (_ | _) <;> simp [events,habsent,JobStage.has,JobStage.accepted]
  case send i =>
    obtain ⟨hstage,⟨hc,rfl⟩ | ⟨hc,rfl⟩⟩ := send_cases hs
    · have hevents : events h (.send i) = [⟨.accepted,i⟩] := by
        simp [events,Mailbox.send_open hc]
      rw [hevents]
      refine marks_setJob rfl ?_ (by simp [hstage,JobStage.has,JobStage.accepted])
        (List.nodup_singleton _) (by simp [jobsAt,Host.pending])
      rintro (_ | _) <;> simp [hstage,JobStage.has,JobStage.accepted]
    · have hevents : events h (.send i) = [] := by simp [events,Mailbox.send_closed hc]
      rw [hevents]
      refine marks_setJob rfl ?_ (by simp) .nil (by simp [jobsAt,Host.pending,Host.setJob])
      rintro (_ | _) <;> simp [hstage,JobStage.has,JobStage.accepted]
  case recv =>
    obtain ⟨hd,⟨i,q,hqueue,rfl⟩ | ⟨hqueue,-,rfl⟩⟩ := recv_cases hs
    · have hstage : h.stage i = .queued := (hq.queued i).mpr (by simp [hqueue])
      refine marks_setJob rfl ?_ (by simp [events]) .nil
        (by simp [jobsAt,events,Host.pending,hd,hqueue,Dispatcher.held])
      rintro (_ | _) <;> simp [events,hstage,JobStage.has,JobStage.accepted]
    · exact marks_none rfl (by simp [Host.pending,hd,Dispatcher.held])
  case dispatch =>
    obtain ⟨i,hd,⟨hfull,rfl⟩ | ⟨hfull,rfl⟩⟩ := dispatch_cases hs
    · have hevents : events h .dispatch = [] := by simp [events,hd,hfull]
      rw [hevents]
      exact marks_none rfl (by simp [Host.pending,hd,Dispatcher.held])
    · have hstage : h.stage i = .held := (hq.held i).mpr (.inl hd)
      have hevents : events h .dispatch = [⟨.spawned,i⟩] := by simp [events,hd,hfull]
      rw [hevents]
      refine marks_setJob rfl ?_ (by simp [hstage,JobStage.has]) (List.nodup_singleton _)
        (by simp [jobsAt,Host.pending,hd,Dispatcher.held,Host.charge,Host.setJob])
      rintro (_ | _) <;> simp [hstage,JobStage.has,JobStage.accepted]
  case wake =>
    revert hs
    fun_cases wake h <;> rintro ⟨⟩
    rename_i i hd
    exact marks_none rfl (by simp [Host.pending,hd,Dispatcher.held])
  case job i a =>
    revert hs
    fun_cases advanceJob h i a <;> rintro ⟨⟩
    rename_i x c hx
    obtain ⟨hhas,hfresh,hnodup,hacc,hspawned⟩ := marks_advance h i hx
    refine marks_setJob rfl hhas hfresh hnodup ?_
    simp [hacc,hspawned,Host.pending,Host.charge,Host.setJob]
  all_goals
    refine marks_none ?_ ?_ <;>
    simp only [listen,activate,closeServer,acceptDone,exit,destroy,setTimeout,Host.setTimer,
      Host.charge,shutdown,cancelAllTimers,advanceTimer,id,Option.ite_none_right_eq_some,
      Option.some.injEq,Host.pending,Mailbox.close] at hs ⊢ <;>
    grind

theorem advance_flight {x y : Job} {a : JobAction} {c : Charge} (h : x.advance a = some (y,c)) :
    c.inFlight ≤ 0 := by
  revert h
  fun_cases Job.advance x a <;> rintro ⟨⟩ <;> simp

theorem flight_step {h g : Host} {a : Action} (hs : step h a = some g) :
    g.maxInFlight = h.maxInFlight ∧
      (g.inFlight ≤ h.inFlight ∨ h.inFlight < h.maxInFlight ∧ g.inFlight = h.inFlight+1) := by
  simp only [step,Option.ite_none_left_eq_some] at hs
  obtain ⟨-,hs⟩ := hs
  cases a <;> simp only [move] at hs
  case dispatch =>
    obtain ⟨-,-,⟨-,rfl⟩ | ⟨hfull,rfl⟩⟩ := dispatch_cases hs
    · exact ⟨rfl,.inl (Int.le_refl _)⟩
    · exact ⟨rfl,.inr ⟨by omega,by simp [Host.charge,Host.setJob]⟩⟩
  case send i =>
    obtain ⟨-,⟨-,rfl⟩ | ⟨-,rfl⟩⟩ := send_cases hs <;> exact ⟨rfl,.inl (Int.le_refl _)⟩
  case recv =>
    obtain ⟨-,⟨-,-,-,rfl⟩ | ⟨-,-,rfl⟩⟩ := recv_cases hs <;> exact ⟨rfl,.inl (Int.le_refl _)⟩
  case wake =>
    revert hs
    fun_cases wake h <;> rintro ⟨⟩
    exact ⟨rfl,.inl (Int.le_refl _)⟩
  case job i a =>
    revert hs
    fun_cases advanceJob h i a <;> rintro ⟨⟩
    rename_i x c hx
    have hc := advance_flight hx
    exact ⟨rfl,.inl (by simpa [Host.charge,Host.setJob] using hc)⟩
  case timer k a =>
    revert hs
    fun_cases advanceTimer h k a <;> rintro ⟨⟩
    rename_i t c hx
    have hc := (timer_charge hx).2.1
    exact ⟨rfl,.inl (by simp [Host.charge,Host.setTimer,hc])⟩
  all_goals
    simp only [register,listen,activate,closeServer,acceptDone,exit,destroy,setTimeout,
      Host.setTimer,Host.setJob,Host.charge,shutdown,cancelAllTimers,id,
      Option.ite_none_right_eq_some,Option.some.injEq] at hs
    grind

/-- What a step of a host does to its marks and to `in_flight`. -/
structure Follows (h g : Host) (l : List Event) : Prop extends Marks h g l where
  limited : g.maxInFlight = h.maxInFlight
  flight : g.inFlight ≤ h.inFlight ∨ h.inFlight < h.maxInFlight ∧ g.inFlight = h.inFlight+1

theorem follows_step {h g : Host} {a : Action} (hq : Queued h) (hs : step h a = some g) :
    Follows h g (events h a) :=
  ⟨marks_step hq hs,(flight_step hs).1,(flight_step hs).2⟩

theorem follows_self (h : Host) : Follows h h [] :=
  ⟨marks_none rfl rfl,rfl,.inl (Int.le_refl _)⟩

theorem has_flight (q : JobStage) :
    q.flight = if q.has .spawned = true ∧ q.has .released = false then 1 else 0 := by
  cases q <;> rfl

end HostLoop

namespace HostManager

open HostLoop (Event Mark Holder jobsAt JobStage)

variable {H : Type*} [DecidableEq H]

/-- What a step marks at the host `h`. -/
def events (h : H) (s : Sys H) : Action H → List Event
  | .host g a => if g = h then HostLoop.events (s.hosts h) a else []
  | _ => []

/-- What the marks of a run say of the host it leads to. -/
structure Marked (limit : ℤ) (s : Sys H) (h : H) (l : List Event) : Prop where
  inv : Inv s
  limited : (s.hosts h).maxInFlight = limit
  bound : 1 ≤ limit → (s.hosts h).inFlight ≤ limit
  has : ∀ m j, (s.stage h j).has m = true ↔ ⟨m,j⟩ ∈ l
  nodup : l.Nodup
  order : jobsAt .accepted l = jobsAt .spawned l++(s.hosts h).pending

theorem follows_events {s t : Sys H} {a : Action H} (hi : Inv s) (hs : step s a = some t)
    (h : H) : HostLoop.Follows (s.hosts h) (t.hosts h) (events h s a) := by
  have hsame : t.hosts h = s.hosts h → events h s a = [] →
      HostLoop.Follows (s.hosts h) (t.hosts h) (events h s a) := fun ht he => by
    rw [ht,he]
    exact HostLoop.follows_self _
  have hmoves : ∀ a', HostLoop.step (s.hosts h) a' = some (t.hosts h) →
      events h s a = HostLoop.events (s.hosts h) a' →
      HostLoop.Follows (s.hosts h) (t.hosts h) (events h s a) := fun a' hg he => by
    rw [he]
    exact HostLoop.follows_step (hi.hosts h).1.queue hg
  rcases step_cases hs with ⟨i,g,fnName,args,rfl,hg,rfl⟩ | ⟨hhosts,-,-,hno⟩ | ⟨i,g,a',rfl,-,hg,rfl⟩
  · by_cases hih : h = i
    · subst hih
      exact hmoves _ (by simpa using hg) rfl
    · exact hsame (by simp [Function.update_of_ne hih]) rfl
  · refine hsame (by rw [hhosts]) ?_
    cases a <;> simp_all [events]
  · by_cases hih : h = i
    · subst hih
      exact hmoves a' (by simpa using hg) (by simp [events])
    · exact hsame (by simp [Function.update_of_ne hih]) (by simp [events,Ne.symm hih])

theorem marked_step {limit : ℤ} {s t : Sys H} {a : Action H} {h : H} {l : List Event}
    (hm : Marked limit s h l) (hs : step s a = some t) : Marked limit t h (l++events h s a) := by
  obtain ⟨hi,hlimited,hbound,hhas,hnodup,horder⟩ := hm
  obtain ⟨hmarks,hmax,hflight⟩ := follows_events hi hs h
  refine ⟨inv_step hi hs,hmax.trans hlimited,fun hlimit => ?_,fun m j => ?_,?_,?_⟩
  · have := hbound hlimit
    omega
  · rw [List.mem_append,← hhas]
    exact hmarks.has m j
  · refine List.nodup_append.mpr ⟨hnodup,hmarks.nodup,?_⟩
    rintro ⟨m,j⟩ hold e hnew rfl
    exact Bool.false_ne_true ((hmarks.fresh m j hnew).symm.trans ((hhas m j).mpr hold))
  · rw [HostLoop.jobsAt_append,HostLoop.jobsAt_append,horder,List.append_assoc,hmarks.order,
      List.append_assoc]

theorem marked_run {limit : H → ℤ} {s : Sys H} {as : List (Action H)}
    (hs : run (init limit) as = some s) (h : H) :
    Marked (limit h) s h (Trace.log step (events h) (init limit) as) := by
  refine Trace.run_keeps_log (l := []) (fun _ _ _ _ hm hstep => marked_step hm hstep) ?_ hs
  refine ⟨inv_init limit,rfl,?_,?_,.nil,rfl⟩
  · intro hlimit
    change (0 : ℤ) ≤ limit h
    omega
  · rintro (_ | _) j <;>
      simp [init,Sys.stage,HostLoop.Host.stage,HostLoop.start,HostLoop.JobStage.has,
        JobStage.accepted]

omit [DecidableEq H] in
theorem Marked.inFlight {limit : ℤ} {s : Sys H} {h : H} {l : List Event}
    (hm : Marked limit s h l) : (s.hosts h).inFlight =
      ((jobsAt .spawned l).filter (· ∉ jobsAt .released l)).length := by
  have hcounts := (hm.inv.hosts h).1.counted.inFlight
  have hnodup : ((jobsAt .spawned l).filter (· ∉ jobsAt .released l)).Nodup :=
    (HostLoop.jobsAt_nodup hm.nodup _).filter _
  have hholders := hnodup.map (f := Holder.job) fun i j he => Holder.job.inj he
  rw [hcounts.eq_length hholders,List.length_map]
  rintro (j | k | _ | _)
  · have hmem : Holder.job j ∈ ((jobsAt .spawned l).filter (· ∉ jobsAt .released l)).map
        Holder.job ↔ (s.stage h j).has .spawned = true ∧ (s.stage h j).has .released = false := by
      rw [← Bool.not_eq_true,hm.has,hm.has]
      simp [HostLoop.mem_jobsAt]
    simp only [HostLoop.flightShare,hmem]
    exact HostLoop.has_flight (s.stage h j)
  all_goals simp [HostLoop.flightShare]

/-- At any time of any run `in_flight` counts what is between its spawn and its
decrement, and stays between zero and the bound that `create_host` has checked. When the
executor begins what was posted to it in the order of the posts, `execute_job` begins the
jobs in the order their sends were accepted, each once, and by the end of `destroy_host`
all of them. -/
theorem backpressure {limit : H → ℤ} {s : Sys H} {as : List (Action H)}
    (hs : run (init limit) as = some s) (h : H) :
    let l := Trace.log step (events h) (init limit) as
    (s.hosts h).inFlight = ((jobsAt .spawned l).filter (· ∉ jobsAt .released l)).length ∧
    0 ≤ (s.hosts h).inFlight ∧ (1 ≤ limit h → (s.hosts h).inFlight ≤ limit h) ∧
    (jobsAt .begun l <+: jobsAt .spawned l →
      jobsAt .begun l <+: jobsAt .accepted l ∧ (jobsAt .begun l).Nodup ∧
        ((s.hosts h).life = .returned → jobsAt .begun l = jobsAt .accepted l)) := by
  intro l
  have hm : Marked (limit h) s h l := marked_run hs h
  have hcount := hm.inFlight
  refine ⟨hcount,by omega,hm.bound,fun hfifo => ?_⟩
  have hinitial : jobsAt .begun l <+: jobsAt .accepted l :=
    hfifo.trans (by rw [hm.order]; exact List.prefix_append _ _)
  refine ⟨hinitial,HostLoop.jobsAt_nodup hm.nodup _,fun hreturned => ?_⟩
  obtain ⟨hinv,hlives⟩ := hm.inv.hosts h
  have hall : jobsAt .accepted l ⊆ jobsAt .begun l := by
    intro j hj
    rw [HostLoop.mem_jobsAt,← hm.has] at hj ⊢
    have hfin := HostLoop.finished_of_exited hinv hlives (hlives.returned hreturned) j hj
    rw [Sys.stage,hfin]
    rfl
  have hlength := (List.subperm_of_subset (HostLoop.jobsAt_nodup hm.nodup _) hall).length_le
  exact hinitial.eq_of_length_le hlength

/-- Two jobs behind a bound of one: the second waits for the decrement of the first. -/
def sampleTwo : List (Action Unit) :=
  [.host () .insert,.submit () "onJob" {},.submit () "onJob" {},.host () (.send 2),
    .host () (.send 1),.host () .recv,.host () .dispatch,.host () .recv,.host () .dispatch,
    .host () (.job 2 (.start false)),.host () (.job 2 (.call false true)),
    .host () (.job 2 .reply),.host () (.job 2 .release),.host () .wake,.host () .dispatch,
    .host () (.job 1 (.start false))]

theorem backpressure_sample :
    ∃ s, run (init fun _ => 1) sampleTwo = some s ∧ (s.hosts ()).inFlight ≤ 1 ∧
      jobsAt .begun (Trace.log step (events ()) (init fun _ => 1) sampleTwo) <+:
        jobsAt .accepted (Trace.log step (events ()) (init fun _ => 1) sampleTwo) := by
  refine ⟨_,rfl,?_⟩
  have hall := backpressure (show run (init fun _ => 1) sampleTwo = some _ from rfl) ()
  have hfifo : jobsAt .begun (Trace.log step (events ()) (init fun _ => 1) sampleTwo) <+:
      jobsAt .spawned (Trace.log step (events ()) (init fun _ => 1) sampleTwo) := by decide
  exact ⟨hall.2.2.1 (by decide),(hall.2.2.2 hfifo).1⟩

end HostManager
end AsioQuickjs
