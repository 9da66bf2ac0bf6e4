import AsioQuickjs.JobRuns

/-! What the answer of `cancel` says. An id is in `cancels_` from the lock of `submit`
to `forget_task`: so also while `submit` may still fail, and at the end, when the reply
is already out. -/
namespace AsioQuickjs
namespace HostLoop

/-- The id is in `cancels_` although `submit` failed, or although the reply is out. -/
def JobStage.lingers : JobStage → Bool
  | .rejected | .replied | .released | .counted => true
  | _ => false

/-- `submit` does not return the id. -/
def JobStage.unreturned : JobStage → Bool
  | .absent | .rejected | .refused => true
  | _ => false

theorem rejected_next {x y : Job} {a : JobAction} (hx : x.stage = .rejected ∨ x.stage = .refused)
    (h : x.next a = some y) : y.stage = .rejected ∨ y.stage = .refused := by
  simp only [Job.next,Option.map_eq_some_iff] at h
  obtain ⟨⟨z,c⟩,hz,rfl⟩ := h
  revert hz
  fun_cases Job.advance x a <;> rintro ⟨⟩ <;> simp_all

theorem replied_of_answers {x : Job} (ha : Answered x) (hne : x.answers ≠ []) :
    x.stage.lingers = true ∧ x.stage ≠ .rejected ∨ x.stage = .finished := by
  cases hs : x.stage <;> simp_all [Answered,JobStage.lingers]

theorem answers_of_lingers {x : Job} (ha : Answered x) (hx : x.stage.lingers = true)
    (hrej : x.stage ≠ .rejected) : x.answers ≠ [] := by
  cases hs : x.stage <;> simp_all [JobStage.lingers,Answered] <;> grind

theorem JobStage.lingers_entered {x : JobStage} (h : x.lingers = true) :
    x.ended = false ∧ x ≠ .absent := by
  cases x <;> simp_all [JobStage.lingers,JobStage.ended]

end HostLoop

namespace HostManager

open HostLoop (Job JobStage)

variable {H : Type*}

/-- The reply of the job has been sent. -/
def Replied (s : Sys H) (j : ℕ) : Prop := ∃ h, ((s.hosts h).jobs j).answers ≠ []

/-- No `submit` has returned the id and none under way is going to. -/
def NeverReturned (s : Sys H) (j : ℕ) : Prop := ∀ h, (s.stage h j).unreturned = true

/-- Neither was the send refused, now or by `later`, nor is the reply out with
`forget_task` still to come. -/
def OutsideWindows (s later : Sys H) (j : ℕ) : Prop :=
  ∀ h, (s.stage h j).lingers = false ∧
    (s.stage h j = .submitting → (later.stage h j).unreturned = false)

/-- What is in `cancels_` has been handed out. -/
def Known (s : Sys H) : Prop := ∀ j, s.cancels j = true → ∃ h, s.stage h j ≠ .absent

variable [DecidableEq H]

theorem present_step {s t : Sys H} {a : Action H} (hi : Inv s) (hs : step s a = some t) {h : H}
    {j : ℕ} (hj : s.stage h j ≠ .absent) : t.stage h j ≠ .absent := by
  rcases own_step hs h with he | ⟨a',ha,-⟩
  · simpa only [Sys.stage,he] using hj
  · rcases HostLoop.stays_or_goes (hi.hosts h).1.queue ha j with ⟨hstays,-⟩ | hgoes
    · rw [Sys.stage,hstays]
      exact hj
    · exact hgoes.present

theorem known_step {s t : Sys H} {a : Action H} (hi : Inv s) (hk : Known s)
    (hs : step s a = some t) : Known t := by
  intro j hj
  have hold : s.cancels j = true → ∃ h, t.stage h j ≠ .absent := fun hc => by
    obtain ⟨h,hh⟩ := hk j hc
    exact ⟨h,present_step hi hs hh⟩
  rcases step_cases hs with
    ⟨h,g,fnName,args,-,hg,rfl⟩ | ⟨-,-,hcancels,-⟩ | ⟨h,g,a',-,-,-,rfl⟩
  · by_cases hjn : j = s.nextTaskId
    · subst hjn
      refine ⟨h,?_⟩
      simp [Sys.stage,(submitted_stage hg _).2]
    · exact hold (by simpa [Function.update_of_ne hjn] using hj)
  · exact hold (by rwa [hcancels] at hj)
  · rw [forgetTask_cancels] at hj
    refine hold ?_
    by_contra hc
    simp [hc] at hj

theorem known_run {limit : H → ℤ} {s : Sys H} {as : List (Action H)}
    (hs : run (init limit) as = some s) : Known s :=
  (Trace.run_keeps (I := fun s => Inv s ∧ Known s)
    (fun _ _ _ hi hstep => ⟨inv_step hi.1 hstep,known_step hi.1 hi.2 hstep⟩)
    ⟨inv_init limit,fun j hj => by simp [init] at hj⟩ hs).2

theorem present_run {s t : Sys H} {as : List (Action H)} (hi : Inv s) (hs : run s as = some t)
    {h : H} {j : ℕ} (hj : s.stage h j ≠ .absent) : Inv t ∧ t.stage h j ≠ .absent :=
  Trace.run_keeps (I := fun t => Inv t ∧ t.stage h j ≠ .absent)
    (fun _ _ _ hu hstep => ⟨inv_step hu.1 hstep,present_step hu.1 hstep hu.2⟩) ⟨hi,hj⟩ hs

theorem rejected_run {s t : Sys H} {as : List (Action H)} (hi : Inv s) (hs : run s as = some t)
    {h : H} {j : ℕ} (hj : s.stage h j = .rejected) :
    t.stage h j = .rejected ∨ t.stage h j = .refused := by
  have hown := own_run hi hs (h := h) (j := j) (by rw [hj]; rfl)
  exact Trace.run_keeps (I := fun x : Job => x.stage = .rejected ∨ x.stage = .refused)
    (fun _ _ _ hx hnext => HostLoop.rejected_next hx hnext) (.inl hj) hown

theorem neverReturned_of_stage {s t : Sys H} {as : List (Action H)} (hi : Inv s)
    (hs : run s as = some t) {h : H} {j : ℕ} (hne : s.stage h j ≠ .absent)
    (hun : (t.stage h j).unreturned = true) : NeverReturned t j := by
  intro g
  obtain ⟨hit,hth⟩ := present_run hi hs hne
  by_cases hg : t.stage g j = .absent
  · rw [hg]
    rfl
  · rw [hit.owner g h j hg hth]
    exact hun

theorem reported_of_lingers {s t : Sys H} {as : List (Action H)} (hi : Inv s)
    (hs : run s as = some t) {h : H} {j : ℕ} (hl : (s.stage h j).lingers = true) :
    Replied s j ∨ NeverReturned t j := by
  by_cases hrej : s.stage h j = .rejected
  · have hun : (t.stage h j).unreturned = true := by
      rcases rejected_run hi hs hrej with he | he <;> rw [he] <;> rfl
    exact .inr (neverReturned_of_stage hi hs (JobStage.lingers_entered hl).2 hun)
  · exact .inl ⟨h,HostLoop.answers_of_lingers ((hi.hosts h).1.answered j) hl hrej⟩

omit [DecidableEq H] in
theorem ended_of_replied {s : Sys H} (hi : Inv s) {h : H} {j : ℕ} (hne : s.stage h j ≠ .absent)
    (hl : (s.stage h j).lingers = false) (hr : Replied s j) : (s.stage h j).ended = true := by
  obtain ⟨g,hg⟩ := hr
  have hga := HostLoop.replied_of_answers ((hi.hosts g).1.answered j) hg
  have hpresent : s.stage g j ≠ .absent := fun he => by
    rw [Sys.stage,HostLoop.Host.stage] at he
    simp [he,JobStage.lingers] at hga
  obtain rfl := hi.owner g h j hpresent hne
  rw [Sys.stage,HostLoop.Host.stage] at hl ⊢
  rcases hga with ⟨hlingers,-⟩ | hfinished
  · rw [hlingers] at hl
    cases hl
  · rw [hfinished]
    rfl

/-- A job whose id `submit` never returns is refused, or `submit` is still on its way. -/
theorem ended_of_unreturned {s t : Sys H} {as : List (Action H)} (hi : Inv s)
    (hs : run s as = some t) {h : H} {j : ℕ} (hne : s.stage h j ≠ .absent)
    (hl : (s.stage h j).lingers = false) (hun : (t.stage h j).unreturned = true) :
    (s.stage h j).ended = true ∨ s.stage h j = .submitting := by
  cases hacc : (s.stage h j).accepted with
  | true =>
    have hkept := ((verdict_run hi hs h j).2.1) hacc
    cases hst : t.stage h j <;> simp_all [JobStage.accepted,JobStage.unreturned]
  | false =>
    cases hst : s.stage h j <;> simp_all [JobStage.accepted,JobStage.ended,JobStage.lingers]

/-- Wherever a run issues a `cancel`, it returns false for a job that has been answered
and for an id that `submit` never returns, exactly if the entry in `cancels_` has gone:
neither is the refused `submit` about to erase it nor `run_one_job`. -/
theorem cancel_reports_iff {limit : H → ℤ} {as bs : List (Action H)} {s t : Sys H}
    (hs : run (init limit) as = some s) (ht : run s bs = some t) (j : ℕ) :
    (Replied s j ∨ NeverReturned t j → cancelAnswer s j = false) ↔ OutsideWindows s t j := by
  have hi := inv_run hs
  have hentry : ∀ h, s.stage h j ≠ .absent →
      (cancelAnswer s j = true ↔ (s.stage h j).ended = false) := fun h => hi.cancels h j
  constructor
  · intro hpromise h
    constructor
    · by_contra hl
      rw [Bool.not_eq_false] at hl
      obtain ⟨hend,hne⟩ := JobStage.lingers_entered hl
      have hfalse := hpromise (reported_of_lingers hi ht hl)
      rw [(hentry h hne).mpr hend] at hfalse
      cases hfalse
    · intro hsub
      by_contra hun
      rw [Bool.not_eq_false] at hun
      have hne : s.stage h j ≠ .absent := by simp [hsub]
      have hfalse := hpromise (.inr (neverReturned_of_stage hi ht hne hun))
      rw [(hentry h hne).mpr (by rw [hsub]; rfl)] at hfalse
      cases hfalse
  · intro hcond hcase
    by_contra htrue
    rw [Bool.not_eq_false] at htrue
    obtain ⟨h,hne⟩ := known_run hs j htrue
    have hend := (hentry h hne).mp htrue
    obtain ⟨hl,hsubmitting⟩ := hcond h
    rcases hcase with hreplied | hnever
    · rw [ended_of_replied hi hne hl hreplied] at hend
      cases hend
    · rcases ended_of_unreturned hi ht hne hl (hnever h) with hended | hsub
      · rw [hended] at hend
        cases hend
      · have hreturned := hsubmitting hsub
        rw [hnever h] at hreturned
        cases hreturned

def untilReply : List (Action Unit) :=
  [.host () .insert,.submit () "onJob" {},.host () (.send 1),.host () .recv,.host () .dispatch,
    .host () (.job 1 (.start false)),.host () (.job 1 (.call false true)),.host () (.job 1 .reply)]

/-- What `run_one_job` does after it. -/
def untilForgotten : List (Action Unit) :=
  [.host () (.job 1 .release),.host () (.job 1 .count),.host () (.job 1 .forget)]

theorem cancel_reports_iff_sample :
    ∃ s, run (init fun _ => 64) (untilReply++untilForgotten) = some s ∧ Replied s 1 ∧
      cancelAnswer s 1 = false := by
  refine ⟨_,rfl,⟨(),by decide⟩,?_⟩
  refine (cancel_reports_iff (show run (init fun _ => 64) (untilReply++untilForgotten) = some _
    from rfl) (show run _ [] = some _ from rfl) 1).mpr ?_ (.inl ⟨(),by decide⟩)
  rintro ⟨⟩
  exact ⟨by decide,by decide⟩

/-- What the answer is to mean: no `cancel` after the reply, and none of an id that is never
returned, finds anything. -/
def ReportsCompletion (limit : H → ℤ) : Prop :=
  ∀ as bs s t j, run (init limit) as = some s → run s bs = some t →
    Replied s j ∨ NeverReturned t j → cancelAnswer s j = false

/-- Between the reply and `forget_task` the answered job can still be cancelled. -/
theorem not_reportsCompletion : ¬ ReportsCompletion fun _ : Unit => 64 := by
  intro hpromise
  obtain ⟨s,hs,hreplied,htrue⟩ : ∃ s, run (init fun _ : Unit => 64) untilReply = some s ∧
      ((s.hosts ()).jobs 1).answers ≠ [] ∧ cancelAnswer s 1 = true :=
    ⟨_,rfl,by decide,by decide⟩
  have hfalse := hpromise untilReply [] s s 1 hs rfl (.inl ⟨(),hreplied⟩)
  rw [htrue] at hfalse
  cases hfalse

end HostManager
end AsioQuickjs
