import AsioQuickjs.CancelApart
import AsioQuickjs.CancelReports
import AsioQuickjs.JobAnswers

/-! The soft cancel. What decides is the load of the flag at the head of `execute_job`:
a `cancel` that succeeded before it keeps the job's function from being called, and one
that comes after it finds nobody who looks. -/
namespace AsioQuickjs
namespace HostLoop

open HostJob

def Job.shows (x : Job) : JobAction → Option Result
  | .call found parses =>
    if found = false then some (makeErr ("function not found: "++x.fnName))
    else if x.args.kind = .object ∧ parses = false then
      some (makeErr "job args Object: JSON.parse failed")
    else none
  | .endCall (some o) => some o.answer
  | .settle o => some o.answer
  | _ => none

def Job.result (x : Job) (as : List JobAction) : Option Result := as.findSome? x.shows

theorem shows_kind {x : Job} {a : JobAction} {r : Result} (h : x.shows a = some r) :
    r.kind ≠ .cancelled := by
  revert h
  fun_cases Job.shows x a <;> rintro ⟨⟩
  case case1 => simp [makeErr]
  case case2 => simp [makeErr]
  all_goals exact answer_kind _

theorem result_kind {x : Job} {as : List JobAction} {r : Result} (h : x.result as = some r) :
    r.kind ≠ .cancelled := by
  obtain ⟨a,-,ha⟩ := List.exists_of_findSome?_eq_some h
  exact shows_kind ha

/-- Where a job is whose function has shown `r` so far, with what it has been called for
and answered. -/
def Shown (r : Option Result) (y : Job) : Prop :=
  match y.stage with
  | .loaded => r = none ∧ y.calls = 0
  | .calling | .awaiting => r = none ∧ y.calls = 1
  | .settled o => r = some o.answer ∧ y.calls = 1
  | .answering q => r = some q ∧ y.calls ≤ 1
  | .replied | .released | .counted | .finished => y.answers = r.toList ∧ y.calls ≤ 1
  | _ => False

/-- Where the steps `as` lead a job `x` that has loaded an unset flag. -/
structure Executing (x : Job) (as : List JobAction) (y : Job) : Prop where
  same : y.fnName = x.fnName ∧ y.args = x.args
  answered : Answered y
  shown : Shown (x.result as) y

theorem result_snoc (x : Job) (as : List JobAction) (a : JobAction) :
    x.result (as++[a]) = (x.result as).or (x.shows a) := by
  simp [Job.result,List.findSome?_append]

theorem shows_same {x y : Job} (h : y.fnName = x.fnName ∧ y.args = x.args) (a : JobAction) :
    x.shows a = y.shows a := by
  fun_cases Job.shows x a <;> simp [Job.shows,h] <;> simp_all

theorem same_advance {x y : Job} {a : JobAction} {c : Charge} (h : x.advance a = some (y,c)) :
    y.fnName = x.fnName ∧ y.args = x.args := by
  revert h
  fun_cases Job.advance x a <;> rintro ⟨⟩ <;> simp [replyJob,apply_ite]

@[simp] theorem replyJob_calls (x : Job) (r : Result) : (replyJob x r).calls = x.calls := by
  simp only [replyJob]
  split <;> rfl

theorem shown_advance {x y : Job} {a : JobAction} {c : Charge} {r : Option Result}
    (hx : Answered x) (hr : Shown r x) (h : x.advance a = some (y,c)) :
    Shown (r.or (x.shows a)) y := by
  revert h
  fun_cases Job.advance x a <;> rintro ⟨⟩ <;> rename_i hs
  case case11 =>
    simp only [Shown,hs,Answered] at hr hx
    simp [Shown,Job.shows,hr,replyJob_open hx.1 hx.2,replyJob_calls]
  all_goals simp_all [Shown,Job.shows]

theorem executing_next {x y z : Job} {as : List JobAction} {a : JobAction}
    (hy : Executing x as y) (h : y.next a = some z) : Executing x (as++[a]) z := by
  simp only [Job.next,Option.map_eq_some_iff] at h
  obtain ⟨⟨w,c⟩,hadv,rfl⟩ := h
  have hsame := same_advance hadv
  refine ⟨⟨hsame.1.trans hy.same.1,hsame.2.trans hy.same.2⟩,
    (moves_of_advance hadv).answered hy.answered,?_⟩
  rw [result_snoc,shows_same hy.same]
  exact shown_advance hy.answered hy.shown hadv

theorem executing_run {x y z : Job} {as bs : List JobAction} (hy : Executing x as y)
    (h : Trace.run Job.next y bs = some z) : Executing x (as++bs) z := by
  induction bs generalizing y as with
  | nil =>
    obtain rfl : y = z := by simpa using h
    simpa using hy
  | cons b bs ih =>
    obtain ⟨w,hw,hr⟩ := Trace.run_cons.mp h
    simpa using ih (executing_next hy hw) hr

/-- Where a job is that has loaded a set flag. -/
structure Spared (y : Job) : Prop where
  answered : Answered y
  calls : y.calls = 0
  shown : Shown (some makeCancelled) y

theorem spared_next {y z : Job} {a : JobAction} (hy : Spared y) (h : y.next a = some z) :
    Spared z := by
  simp only [Job.next,Option.map_eq_some_iff] at h
  obtain ⟨⟨w,c⟩,hadv,rfl⟩ := h
  refine ⟨(moves_of_advance hadv).answered hy.answered,?_,?_⟩
  · obtain ⟨-,hcalls,hshown⟩ := hy
    revert hadv
    fun_cases Job.advance y a <;> rintro ⟨⟩ <;> simp_all [Shown,replyJob_calls]
  · simpa using shown_advance hy.answered hy.shown hadv

theorem start_next {x y : Job} {c : Bool} (ha : Answered x) (h : x.next (.start c) = some y) :
    if c then Spared y else Executing y [] y := by
  simp only [Job.next,Option.map_eq_some_iff] at h
  obtain ⟨⟨w,d⟩,hadv,rfl⟩ := h
  have hmoved := (moves_of_advance hadv).answered ha
  cases hst : x.stage <;> cases c <;> simp only [Job.advance,hst] at hadv <;> cases hadv
  case spawned.false =>
    simp only [Answered,hst] at ha
    exact ⟨⟨rfl,rfl⟩,hmoved,by simp [Shown,Job.result,ha.2.2]⟩
  case spawned.true =>
    simp only [Answered,hst] at ha
    exact ⟨hmoved,ha.2.2,by simp [Shown,ha.2.2]⟩

end HostLoop
namespace HostManager

open HostJob
open HostLoop (JobStage)

variable {H : Type*}

/-- The task whose `cancel` returns true here. -/
def granted (s : Sys H) : Action H → List ℕ
  | .cancel j => if cancelAnswer s j then [j] else []
  | _ => []

/-- The flags set are those of the tasks whose `cancel` returned true. -/
structure Flagged (s : Sys H) (canceled : List ℕ) : Prop where
  inv : Inv s
  known : Known s
  flags : ∀ j, s.flags j = true ↔ j ∈ canceled
  old : ∀ j ∈ canceled, j < s.nextTaskId

/-- The answer of the job `j` is `r` once it is out, and it is out when the host's
`destroy_host` returns. -/
def AnsweredBy (s : Sys H) (h : H) (j : ℕ) (r : Option Result) : Prop :=
  (((s.hosts h).jobs j).answers = [] ∨ ∃ q, r = some q ∧ ((s.hosts h).jobs j).answers = [q]) ∧
    ((s.hosts h).life = .returned → ((s.hosts h).jobs j).answers ≠ [])

variable [DecidableEq H]

theorem flagged_step {s t : Sys H} {a : Action H} {l : List ℕ} (hf : Flagged s l)
    (hs : step s a = some t) : Flagged t (l++granted s a) := by
  obtain ⟨hi,hk,hflags,hold⟩ := hf
  suffices hnew : (∀ j, t.flags j = true ↔ j ∈ l++granted s a) ∧
      ∀ j ∈ l++granted s a, j < t.nextTaskId from
    ⟨inv_step hi hs,known_step hi hk hs,hnew.1,hnew.2⟩
  cases a with
  | submit h fnName args =>
    simp only [step,Option.some.injEq] at hs
    subst hs
    simp only [granted,List.append_nil]
    cases hg : HostLoop.step (s.hosts h) (.register s.nextTaskId fnName args) with
    | none => simpa only [submit,hg] using ⟨hflags,hold⟩
    | some g =>
      simp only [submit,hg]
      refine ⟨fun j => ?_,fun j hj => Nat.lt_succ_of_lt (hold j hj)⟩
      by_cases hj : j = s.nextTaskId
      · subst hj
        simpa using fun hmem => (hold _ hmem).ne rfl
      · rw [Function.update_of_ne hj,hflags j]
  | cancel k =>
    simp only [step,Option.some.injEq] at hs
    subst hs
    cases hc : s.cancels k with
    | false => simpa [cancel,granted,cancelAnswer,hc] using ⟨hflags,hold⟩
    | true =>
      simp only [cancel,granted,cancelAnswer,hc,if_true,List.mem_append,List.mem_singleton]
      refine ⟨fun j => ?_,?_⟩
      · by_cases hj : j = k
        · simp [hj]
        · simp [hflags j,hj]
      · rintro j (hj | rfl)
        · exact hold j hj
        · obtain ⟨h,hh⟩ := hk j hc
          exact Nat.lt_of_not_le fun hle => hh (hi.fresh h j hle)
  | host h a =>
    simp only [step,Option.ite_none_right_eq_some] at hs
    obtain ⟨-,hs⟩ := hs
    cases hg : HostLoop.step (s.hosts h) a <;> simp only [hg] at hs <;> cases hs
    simpa [granted] using ⟨hflags,hold⟩

theorem flagged_run {limit : H → ℤ} {s : Sys H} {as : List (Action H)}
    (hs : run (init limit) as = some s) : Flagged s (Trace.log step granted (init limit) as) := by
  refine Trace.run_keeps_log (l := []) (fun _ _ _ _ hf hstep => flagged_step hf hstep) ?_ hs
  exact ⟨inv_init limit,known_run (Trace.run_nil _),by simp [init],by simp⟩

theorem start_step {s u : Sys H} {h : H} {j : ℕ} {c : Bool}
    (hs : step s (.host h (.job j (.start c))) = some u) : c = s.flags j ∧
      ((s.hosts h).jobs j).next (.start c) = some ((u.hosts h).jobs j) := by
  simp only [step,Option.ite_none_right_eq_some,allows,decide_eq_true_eq] at hs
  obtain ⟨hc,hs⟩ := hs
  refine ⟨hc,?_⟩
  cases hg : HostLoop.step (s.hosts h) (.job j (.start c)) with
  | none => simp [hg] at hs
  | some g =>
    simp only [hg,Option.some.injEq] at hs
    subst hs
    simp only [HostLoop.step,Option.ite_none_left_eq_some,HostLoop.move,
      HostLoop.advanceJob] at hg
    obtain ⟨-,hg⟩ := hg
    cases hadv : ((s.hosts h).jobs j).advance (.start c) with
    | none => simp [hadv] at hg
    | some r =>
      simp only [hadv,Option.some.injEq] at hg
      subst hg
      simp [HostLoop.Job.next,hadv,HostLoop.Host.charge,HostLoop.Host.setJob]

omit [DecidableEq H] in
theorem answeredBy_of_shown {s : Sys H} (hi : Inv s) {h : H} {j : ℕ} {r : Option Result}
    (hr : HostLoop.Shown r ((s.hosts h).jobs j)) : AnsweredBy s h j r := by
  obtain ⟨hinv,hlives⟩ := hi.hosts h
  have ha := hinv.answered j
  have hacc : ((s.hosts h).stage j).accepted = true := by
    cases hst : ((s.hosts h).jobs j).stage <;> simp only [HostLoop.Shown,hst] at hr <;>
      simp [HostLoop.Host.stage,hst,JobStage.accepted]
  constructor
  · cases hst : ((s.hosts h).jobs j).stage <;>
      simp_all [HostLoop.Shown,HostLoop.Answered] <;> grind
  · intro hreturned
    have hfin := HostLoop.finished_of_exited hinv hlives (hlives.returned hreturned) j hacc
    rw [HostLoop.Host.stage] at hfin
    simp only [HostLoop.Answered,hfin] at ha
    obtain ⟨q,hq,-⟩ := ha
    simp [hq]

/-- Wherever a run lets `execute_job` load the flag of its job: if a `cancel` of it has
returned true by then, the function is never called and the answer is the cancelled one;
otherwise the job goes on by its own steps alone, calls the function at most once and
answers what they show. And the other jobs fare as in the run without any `cancel` of
that task. -/
theorem soft_cancel {limit : H → ℤ} {as bs : List (Action H)} {s u t : Sys H} {h : H} {j : ℕ}
    {c : Bool} (hs : run (init limit) as = some s)
    (hstart : step s (.host h (.job j (.start c))) = some u) (ht : run u bs = some t) :
    (j ∈ Trace.log step granted (init limit) as →
      ((t.hosts h).jobs j).calls = 0 ∧ AnsweredBy t h j (some makeCancelled)) ∧
    (j ∉ Trace.log step granted (init limit) as →
      Trace.run HostLoop.Job.next ((u.hosts h).jobs j) (ownSteps h j bs) =
        some ((t.hosts h).jobs j) ∧
      ((t.hosts h).jobs j).calls ≤ 1 ∧
      AnsweredBy t h j (((u.hosts h).jobs j).result (ownSteps h j bs)) ∧
      ∀ r ∈ ((t.hosts h).jobs j).answers, r.kind ≠ .cancelled) ∧
    ∀ k, .cancel k ∉ uncancel k (as++.host h (.job j (.start c))::bs) ∧
      ∃ v, run (init limit) (uncancel k (as++.host h (.job j (.start c))::bs)) = some v ∧
        ∀ g i, i ≠ k → (v.hosts g).jobs i = (t.hosts g).jobs i := by
  have hf := flagged_run hs
  obtain ⟨hflag,hnext⟩ := start_step hstart
  have hiu := inv_step hf.inv hstart
  have hit := Trace.run_keeps (fun _ _ _ hi => inv_step hi) hiu ht
  have hown := own_run hiu ht (h := h) (j := j) (HostLoop.waits_next hnext)
  have hloaded := HostLoop.start_next ((hf.inv.hosts h).1.answered j) hnext
  refine ⟨fun hmem => ?_,fun hmem => ?_,fun k => ⟨cancel_not_mem_uncancel k _,?_⟩⟩
  · have htrue : c = true := hflag.trans ((hf.flags j).mpr hmem)
    rw [if_pos htrue] at hloaded
    have hend := Trace.run_keeps (fun _ _ _ hy hn => HostLoop.spared_next hy hn) hloaded hown
    exact ⟨hend.calls,answeredBy_of_shown hit hend.shown⟩
  · have hfalse : ¬ c = true := fun hc => hmem ((hf.flags j).mp (hflag.symm.trans hc))
    rw [if_neg hfalse] at hloaded
    have hend := HostLoop.executing_run hloaded hown
    have hanswer := answeredBy_of_shown hit hend.shown
    refine ⟨hown,?_,hanswer,?_⟩
    · have hshown := hend.shown
      cases hst : ((t.hosts h).jobs j).stage <;> simp only [HostLoop.Shown,hst] at hshown <;>
        omega
    · intro r hr
      rcases hanswer.1 with he | ⟨q,hq,he⟩
      · simp [he] at hr
      · obtain rfl : r = q := by simpa [he] using hr
        exact HostLoop.result_kind hq
  · have hall : run (init limit) (as++.host h (.job j (.start c))::bs) = some t :=
      Trace.run_append.mpr ⟨s,hs,Trace.run_cons.mpr ⟨u,hstart,ht⟩⟩
    exact uncancel_run k hall

/-- A job up to where the host may begin it, and from its `cancel` to its reply. -/
def sampleQueued : List (Action Unit) :=
  [.host () .insert,.submit () "onJob" {},.host () (.send 1),.host () .recv,.host () .dispatch]

theorem soft_cancel_sample :
    ∃ s u t, run (init fun _ => 64) (sampleQueued++[.cancel 1]) = some s ∧
      step s (.host () (.job 1 (.start true))) = some u ∧
      run u [.host () (.job 1 .reply)] = some t ∧
      ((t.hosts ()).jobs 1).calls = 0 ∧ ((t.hosts ()).jobs 1).answers = [makeCancelled] := by
  refine ⟨_,_,_,rfl,rfl,rfl,?_⟩
  have hall := (soft_cancel (h := ()) (j := 1) (c := true)
    (show run (init fun _ => 64) (sampleQueued++[.cancel 1]) = some _ from rfl)
    (show step _ _ = some _ from rfl) (show run _ [.host () (.job 1 .reply)] = some _ from rfl)).1
    (by decide)
  obtain ⟨hcalls,hanswers,-⟩ := hall
  refine ⟨hcalls,?_⟩
  rcases hanswers with he | ⟨q,hq,he⟩
  · exact absurd he (by decide)
  · rw [he,Option.some.inj hq]

end HostManager
end AsioQuickjs
