import AsioQuickjs.JobRuns

/-! Cancelling one task leaves the others alone: whatever happens to the other jobs of
a run also happens to them in the run without any `cancel` of that task. -/
namespace AsioQuickjs
namespace HostLoop

open HostJob

/-- The same point behind the answer of a job. -/
inductive JobStage.Level : JobStage → JobStage → Prop
  | answering (r q : Result) : Level (.answering r) (.answering q)
  | replied : Level .replied .replied
  | released : Level .released .released
  | counted : Level .counted .counted
  | finished : Level .finished .finished

/-- The same job, or two that differ in their answer alone. -/
def Alike (x y : Job) : Prop := x = y ∨ JobStage.Level x.stage y.stage

theorem alike_absent {x y : Job} (h : Alike x y) : x.stage = .absent ↔ y.stage = .absent := by
  rcases h with rfl | h
  · exact Iff.rfl
  · generalize x.stage = p at h ⊢
    generalize y.stage = q at h ⊢
    cases h <;> simp

theorem alike_waits {x y : Job} (h : Alike x y) : x = y ∨ x.stage.waits = false := by
  rcases h with rfl | h
  · exact .inl rfl
  · generalize x.stage = p at h ⊢
    generalize y.stage = q at h
    cases h <;> exact .inr rfl

theorem alike_advance {x y z : Job} {a : JobAction} {c : Charge} (h : Alike x y)
    (hx : x.advance a = some (z,c)) : ∃ w, y.advance a = some (w,c) ∧ Alike z w := by
  rcases h with rfl | h
  · exact ⟨z,hx,.inl rfl⟩
  · generalize hp : x.stage = p at h
    generalize hq : y.stage = q at h
    revert hx
    cases h <;> fun_cases Job.advance x a <;> rintro ⟨⟩ <;> simp_all [Job.advance]
    case inr.answering.case11 => exact .inr .replied
    case inr.replied.case12 => exact .inr .released
    case inr.released.case13 => exact .inr .counted
    case inr.counted.case14 => exact .inr .finished

theorem setJob_comm (h : Host) {i j : ℕ} (hij : i ≠ j) (x y : Job) :
    (h.setJob j y).setJob i x = (h.setJob i x).setJob j y := by
  simp [Host.setJob,Function.update_comm hij]

theorem setJob_self (h : Host) (j : ℕ) : h.setJob j (h.jobs j) = h := by
  simp [Host.setJob]

/-- A step that is none of the job's own goes the same way with another job in its place. -/
theorem step_setJob {h g : Host} {a : Action} {j : ℕ} (y : Job) (hq : Queued h)
    (hs : step h a = some g) (hj : (h.stage j).waits = false) (ha : ∀ b, a ≠ .job j b) :
    step (h.setJob j y) a = some (g.setJob j y) := by
  have hwaits : ∀ i, (h.stage i).waits = true → i ≠ j := fun i hi he => by
    rw [he,hj] at hi
    cases hi
  have hjobs : ∀ i, i ≠ j → (h.setJob j y).jobs i = h.jobs i := fun i hi =>
    Function.update_of_ne hi _ _
  simp only [step,Option.ite_none_left_eq_some] at hs ⊢
  obtain ⟨hx,hs⟩ := hs
  refine ⟨hx,?_⟩
  cases a <;> simp only [move] at hs ⊢
  case register i fnName args =>
    simp only [register,Option.ite_none_right_eq_some,Option.some.injEq] at hs ⊢
    obtain ⟨⟨hlife,habsent⟩,rfl⟩ := hs
    have hij := hwaits i (by rw [habsent]; rfl)
    refine ⟨⟨hlife,?_⟩,setJob_comm h hij _ _⟩
    rwa [Host.stage,hjobs i hij]
  case send i =>
    simp only [send,Option.ite_none_right_eq_some] at hs ⊢
    obtain ⟨hstage,hs⟩ := hs
    have hij := hwaits i (by rw [hstage]; rfl)
    refine ⟨by rwa [Host.stage,hjobs i hij],?_⟩
    have hbox : (h.setJob j y).jobTx = h.jobTx := rfl
    rw [hbox,hjobs i hij]
    cases hc : h.jobTx.closed with
    | false =>
      simp only [Mailbox.send_open hc,Option.some.injEq] at hs ⊢
      subst hs
      rw [setJob_comm h hij]
      rfl
    | true =>
      simp only [Mailbox.send_closed hc,Option.some.injEq] at hs ⊢
      subst hs
      rw [setJob_comm h hij]
  case recv =>
    simp only [recv,Option.ite_none_right_eq_some] at hs ⊢
    obtain ⟨hd,hs⟩ := hs
    refine ⟨hd,?_⟩
    have hbox : (h.setJob j y).jobTx = h.jobTx := rfl
    rw [hbox]
    cases hqueue : h.jobTx.queue with
    | cons i q =>
      simp only [Mailbox.recv,hqueue,Option.some.injEq] at hs ⊢
      subst hs
      have hstage : h.stage i = .queued := (hq.queued i).mpr (by simp [hqueue])
      have hij := hwaits i (by rw [hstage]; rfl)
      rw [hjobs i hij,setJob_comm h hij]
      rfl
    | nil =>
      cases hc : h.jobTx.closed <;> simp only [Mailbox.recv,hqueue,hc] at hs ⊢ <;> cases hs
      rfl
  case dispatch =>
    have hd : (h.setJob j y).dispatcher = h.dispatcher := rfl
    cases hdisp : h.dispatcher <;> simp only [dispatch,hd,hdisp,reduceCtorEq] at hs ⊢
    case holding i =>
      have hstage : h.stage i = .held := (hq.held i).mpr (.inl hdisp)
      have hij := hwaits i (by rw [hstage]; rfl)
      rw [hjobs i hij,setJob_comm h hij]
      by_cases hfull : h.maxInFlight ≤ h.inFlight
      · simp only [hfull,if_true,Option.some.injEq] at hs
        subst hs
        simp [Host.setJob,hfull]
      · simp only [hfull,if_false,Option.some.injEq] at hs
        subst hs
        simp [Host.setJob,Host.charge,hfull]
  case wake =>
    have hd : (h.setJob j y).dispatcher = h.dispatcher := rfl
    cases hdisp : h.dispatcher <;> simp only [wake,hd,hdisp] at hs ⊢ <;> cases hs
    rfl
  case job i a =>
    have hij : i ≠ j := fun he => ha a (by rw [he])
    simp only [advanceJob,hjobs i hij] at hs ⊢
    cases hadv : (h.jobs i).advance a with
    | none => simp [hadv] at hs
    | some r =>
      simp only [hadv,Option.some.injEq] at hs ⊢
      subst hs
      rw [setJob_comm h hij]
      rfl
  case timer k a =>
    simp only [advanceTimer,Option.ite_none_right_eq_some] at hs ⊢
    obtain ⟨hk,hs⟩ := hs
    refine ⟨hk,?_⟩
    have htimers : (h.setJob j y).timers = h.timers ∧
      (h.setJob j y).stopping = h.stopping := ⟨rfl,rfl⟩
    rw [htimers.1,htimers.2]
    cases hadv : (h.timers k).advance h.stopping a with
    | none => simp [hadv] at hs
    | some r =>
      simp only [hadv,Option.some.injEq] at hs ⊢
      subst hs
      rfl
  all_goals
    simp only [listen,activate,closeServer,acceptDone,exit,destroy,setTimeout,Host.setJob,
      Host.setTimer,Host.charge,shutdown,cancelAllTimers,id,Option.ite_none_right_eq_some,
      Option.some.injEq] at hs ⊢
    grind

theorem step_alike {h g : Host} {a : Action} {j : ℕ} {y : Job} (hq : Queued h)
    (hs : step h a = some g) (hy : Alike (h.jobs j) y) :
    ∃ z, step (h.setJob j y) a = some (g.setJob j z) ∧ Alike (g.jobs j) z := by
  rcases alike_waits hy with rfl | hj
  · exact ⟨g.jobs j,by rwa [setJob_self,setJob_self],.inl rfl⟩
  · rcases own_step hq hs hj with ⟨b,rfl,-⟩ | ⟨hno,hsame⟩
    · simp only [step,Option.ite_none_left_eq_some,move,advanceJob] at hs
      obtain ⟨hx,hs⟩ := hs
      cases hadv : (h.jobs j).advance b with
      | none => simp [hadv] at hs
      | some r =>
        obtain ⟨x,c⟩ := r
        simp only [hadv,Option.some.injEq] at hs
        subst hs
        obtain ⟨z,hz,halike⟩ := alike_advance hy hadv
        refine ⟨z,?_,by simpa [Host.charge,Host.setJob] using halike⟩
        have hx' : ¬ ((Action.job j b).onThread && (h.setJob j y).exited) = true := hx
        simp only [step,move,advanceJob]
        rw [if_neg hx']
        simp [Host.setJob,Host.charge,hz]
    · exact ⟨y,step_setJob y hq hs hj hno,by rwa [hsame]⟩

theorem register_none {h : Host} {i : ℕ} {fnName : String} {args : Args} :
    step h (.register i fnName args) = none ↔ ¬ (h.life = .serving ∧ h.stage i = .absent) := by
  simp [step,Action.onThread,move,register]

/-- Its flag unset and its function not found, a spawned job is as far as when its flag
was set. -/
theorem start_alike {h g : Host} {j : ℕ} {y : Job}
    (hs : step h (.job j (.start true)) = some g) (hy : Alike (h.jobs j) y) :
    ∃ m z, step (h.setJob j y) (.job j (.start false)) = some m ∧
      step m (.job j (.call false true)) = some (g.setJob j z) ∧ Alike (g.jobs j) z := by
  simp only [step,Option.ite_none_left_eq_some,move,advanceJob] at hs
  obtain ⟨hx,hs⟩ := hs
  cases hst : (h.jobs j).stage <;> simp only [Job.advance,hst] at hs <;> cases hs
  have hexited : h.exited = false := by simpa [Action.onThread] using hx
  obtain rfl : h.jobs j = y := by
    rcases hy with he | hl
    · exact he
    · rw [hst] at hl
      generalize y.stage = q at hl
      cases hl
  rw [setJob_self]
  refine ⟨(h.setJob j { h.jobs j with stage := .loaded }).charge { depth := 1 },
    { h.jobs j with stage := .answering (makeErr ("function not found: "++(h.jobs j).fnName)) },
    ?_,?_,.inr ?_⟩
  · simp [step,Action.onThread,hexited,move,advanceJob,Job.advance,hst]
  · simp [step,Action.onThread,hexited,move,advanceJob,Job.advance,Host.charge,Host.setJob]
  · simpa [Host.charge,Host.setJob] using .answering _ _

end HostLoop

namespace HostManager

open HostJob
open HostLoop (Host Alike)

variable {H : Type*}

/-- The run without any `cancel` of the task `k`: where its job found its flag set, it
goes on and finds no function to call. -/
def uncancel (k : ℕ) (as : List (Action H)) : List (Action H) :=
  as.flatMap fun
    | .cancel j => if j = k then [] else [.cancel j]
    | .host h (.job j (.start true)) =>
      if j = k then [.host h (.job j (.start false)),.host h (.job j (.call false true))]
      else [.host h (.job j (.start true))]
    | a => [a]

theorem cancel_not_mem_uncancel (k : ℕ) (as : List (Action H)) : .cancel k ∉ uncancel k as := by
  simp only [uncancel,List.mem_flatMap,not_exists,not_and]
  rintro a - ha
  grind

theorem uncancel_host {k : ℕ} {h : H} {a : HostLoop.Action} (ha : a ≠ .job k (.start true)) :
    uncancel k [.host h a] = [.host h a] := by
  simp only [uncancel,List.flatMap_singleton]
  grind

/-- The same but for the flag of the task `k` and for what its job answers. -/
structure Masked (k : ℕ) (s t : Sys H) : Prop where
  nextTaskId : t.nextTaskId = s.nextTaskId
  cancels : t.cancels = s.cancels
  flags : ∀ j, j ≠ k → t.flags j = s.flags j
  unset : t.flags k = false
  hosts : ∀ h, ∃ y, t.hosts h = (s.hosts h).setJob k y ∧ Alike ((s.hosts h).jobs k) y

theorem masked_init (k : ℕ) (limit : H → ℤ) : Masked k (init limit) (init limit) :=
  ⟨rfl,rfl,fun _ _ => rfl,rfl,fun _ => ⟨_,(HostLoop.setJob_self _ k).symm,.inl rfl⟩⟩

theorem Masked.other {k : ℕ} {s t : Sys H} (hm : Masked k s t) (h : H) {i : ℕ} (hi : i ≠ k) :
    (t.hosts h).jobs i = (s.hosts h).jobs i := by
  obtain ⟨y,hy,-⟩ := hm.hosts h
  rw [hy]
  exact Function.update_of_ne hi _ _

theorem masked_allows {k : ℕ} {s t : Sys H} (hm : Masked k s t) {a : HostLoop.Action}
    (ha : a ≠ .job k (.start true)) (hs : allows s a = true) : allows t a = true := by
  revert hs
  fun_cases HostManager.allows s a
  case case1 => simp
  case case2 j c =>
    intro hc
    simp only [HostManager.allows]
    by_cases hj : j = k
    · subst hj
      have hfalse : c = false := by
        rw [← Bool.not_eq_true]
        rintro rfl
        exact ha rfl
      simp [hfalse,hm.unset]
    · rwa [hm.flags j hj]
  case case3 hno hstart =>
    intro _
    cases a <;> simp_all [HostManager.allows]

theorem Masked.cancel {k : ℕ} {s t : Sys H} (hm : Masked k s t) {j : ℕ} (hj : j ≠ k) :
    Masked k (cancel s j) (cancel t j) := by
  simp only [HostManager.cancel,hm.cancels]
  split
  · refine ⟨hm.nextTaskId,rfl,?_,?_,hm.hosts⟩
    · intro i hi
      by_cases hij : i = j
      · simp [hij]
      · simp [Function.update_of_ne hij,hm.flags i hi]
    · simp [Function.update_of_ne hj.symm,hm.unset]
  · exact hm

variable [DecidableEq H]

theorem Masked.host {k : ℕ} {s t : Sys H} (hm : Masked k s t) (h : H) {g g' : Host}
    (hg : ∃ z, g' = g.setJob k z ∧ Alike (g.jobs k) z) (o : Option ℕ) :
    Masked k (forgetTask { s with hosts := Function.update s.hosts h g } o)
      (forgetTask { t with hosts := Function.update t.hosts h g' } o) := by
  have hhosts : ∀ i, ∃ y, Function.update t.hosts h g' i =
      (Function.update s.hosts h g i).setJob k y ∧
        Alike ((Function.update s.hosts h g i).jobs k) y := by
    intro i
    by_cases hi : i = h
    · subst hi
      simpa using hg
    · simpa [Function.update_of_ne hi] using hm.hosts i
  cases o with
  | none => exact ⟨hm.nextTaskId,hm.cancels,hm.flags,hm.unset,hhosts⟩
  | some j =>
    refine ⟨hm.nextTaskId,?_,hm.flags,hm.unset,hhosts⟩
    simp only [forgetTask,hm.cancels]

theorem Masked.submit {k : ℕ} {s t : Sys H} (hi : Inv s) (hm : Masked k s t) (h : H)
    (fnName : String) (args : Args) :
    Masked k (submit s h fnName args) (submit t h fnName args) := by
  obtain ⟨y,hy,halike⟩ := hm.hosts h
  cases hg : HostLoop.step (s.hosts h) (.register s.nextTaskId fnName args) with
  | none =>
    have hnone : HostLoop.step (t.hosts h) (.register t.nextTaskId fnName args) = none := by
      rw [HostLoop.register_none] at hg ⊢
      rw [hm.nextTaskId,hy]
      rintro ⟨hlife,habsent⟩
      refine hg ⟨hlife,?_⟩
      rw [HostLoop.stage_setJob] at habsent
      split at habsent
      · next he => rwa [he,HostLoop.Host.stage,HostLoop.alike_absent halike]
      · exact habsent
    simpa only [HostManager.submit,hg,hnone] using hm
  | some g =>
    obtain ⟨z,hz,hzalike⟩ := HostLoop.step_alike (hi.hosts h).1.queue hg halike
    have hsome : HostLoop.step (t.hosts h) (.register t.nextTaskId fnName args) =
        some (g.setJob k z) := by rw [hm.nextTaskId,hy,hz]
    simp only [HostManager.submit,hg,hsome]
    have hhost := hm.host h ⟨z,rfl,hzalike⟩ none
    refine ⟨by rw [hm.nextTaskId],by rw [hm.cancels,hm.nextTaskId],?_,?_,hhost.hosts⟩
    · intro j hj
      simp only [hm.nextTaskId]
      by_cases hn : j = s.nextTaskId
      · simp [hn]
      · simp [Function.update_of_ne hn,hm.flags j hj]
    · simp only [hm.nextTaskId]
      by_cases hn : k = s.nextTaskId
      · simp [hn]
      · simp [Function.update_of_ne hn,hm.unset]

theorem Masked.step {k : ℕ} {s t u : Sys H} {a : Action H} (hi : Inv s) (hm : Masked k s t)
    (hs : step s a = some u) : ∃ v, run t (uncancel k [a]) = some v ∧ Masked k u v := by
  cases a with
  | submit h fnName args =>
    cases hs
    exact ⟨_,rfl,hm.submit hi h fnName args⟩
  | cancel j =>
    cases hs
    by_cases hj : j = k
    · subst hj
      refine ⟨t,by simp [uncancel,run],?_⟩
      simp only [HostManager.cancel]
      split
      · refine ⟨hm.nextTaskId,hm.cancels,fun i hne => ?_,hm.unset,hm.hosts⟩
        rw [hm.flags i hne]
        exact (Function.update_of_ne hne _ _).symm
      · exact hm
    · exact ⟨_,by simp only [uncancel,List.flatMap_singleton,hj,if_false]; rfl,hm.cancel hj⟩
  | host h a =>
    simp only [HostManager.step,Option.ite_none_right_eq_some] at hs
    obtain ⟨hallows,hs⟩ := hs
    cases hg : HostLoop.step (s.hosts h) a with
    | none => simp [hg] at hs
    | some g =>
      simp only [hg,Option.some.injEq] at hs
      subst hs
      obtain ⟨y,hy,halike⟩ := hm.hosts h
      by_cases ha : a = .job k (.start true)
      · subst ha
        obtain ⟨m,z,hm₁,hm₂,hz⟩ := HostLoop.start_alike hg halike
        refine ⟨_,?_,hm.host h ⟨z,rfl,hz⟩ none⟩
        rw [← hy] at hm₁
        simp [uncancel,run,Trace.run,HostManager.step,HostManager.allows,hm.unset,hm₁,hm₂,
          HostLoop.Action.forgets,forgetTask]
      · obtain ⟨z,hz,hzalike⟩ := HostLoop.step_alike (hi.hosts h).1.queue hg halike
        refine ⟨_,?_,hm.host h ⟨z,rfl,hzalike⟩ a.forgets⟩
        rw [← hy] at hz
        rw [uncancel_host ha]
        simp [run,Trace.run,HostManager.step,masked_allows hm ha hallows,hz]

theorem uncancel_run {limit : H → ℤ} {s : Sys H} {as : List (Action H)} (k : ℕ)
    (hs : run (init limit) as = some s) :
    ∃ t, run (init limit) (uncancel k as) = some t ∧
      ∀ h i, i ≠ k → (t.hosts h).jobs i = (s.hosts h).jobs i := by
  have hmasked : ∀ {u v : Sys H} {bs : List (Action H)}, Inv u → Masked k u v →
      run u bs = some s → ∃ t, run v (uncancel k bs) = some t ∧ Masked k s t := by
    intro u v bs hi hm hr
    induction bs generalizing u v with
    | nil =>
      obtain rfl : u = s := by simpa [run] using hr
      exact ⟨v,rfl,hm⟩
    | cons b bs ih =>
      obtain ⟨w,hw,hrest⟩ := Trace.run_cons.mp hr
      obtain ⟨x,hx,hmx⟩ := hm.step hi hw
      obtain ⟨t,ht,hmt⟩ := ih (inv_step hi hw) hmx hrest
      refine ⟨t,?_,hmt⟩
      have happ : uncancel k (b::bs) = uncancel k [b]++uncancel k bs := by simp [uncancel]
      rw [happ]
      exact Trace.run_append.mpr ⟨x,hx,ht⟩
  obtain ⟨t,ht,hm⟩ := hmasked (inv_init limit) (masked_init k limit) hs
  exact ⟨t,ht,fun h i => hm.other h⟩

end HostManager
end AsioQuickjs
