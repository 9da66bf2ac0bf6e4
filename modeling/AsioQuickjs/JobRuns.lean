import AsioQuickjs.HostManager

/-! What a run does with one job. Once the dispatcher has spawned it, or `submit` has
given it up, a job goes on by its own steps alone: the rest of the run passes it by. -/
namespace AsioQuickjs
namespace HostLoop

open HostJob

/-- `submit` or the dispatcher still has to move the job on. -/
def JobStage.waits : JobStage → Bool
  | .absent | .submitting | .queued | .held => true
  | _ => false

def Job.next (x : Job) (a : JobAction) : Option Job := (x.advance a).map Prod.fst

theorem waits_next {x y : Job} {a : JobAction} (h : x.next a = some y) :
    y.stage.waits = false := by
  simp only [Job.next,Option.map_eq_some_iff] at h
  obtain ⟨⟨z,c⟩,hx,rfl⟩ := h
  revert hx
  fun_cases Job.advance x a <;> rintro ⟨⟩ <;> rfl

/-- The step is one of the job's own, or it leaves the job as it is. -/
def Own (h g : Host) (a : Action) (j : ℕ) : Prop :=
  (∃ b, a = .job j b ∧ (h.jobs j).next b = some (g.jobs j)) ∨
    (∀ b, a ≠ .job j b) ∧ g.jobs j = h.jobs j

theorem own_setJob {h : Host} {a : Action} {i j : ℕ} (x : Job) (hi : (h.stage i).waits = true)
    (hj : (h.stage j).waits = false) (ha : ∀ b, a ≠ .job j b) :
    (∀ b, a ≠ .job j b) ∧ Function.update h.jobs i x j = h.jobs j := by
  have hne : j ≠ i := fun he => by
    rw [he,hi] at hj
    cases hj
  exact ⟨ha,Function.update_of_ne hne _ _⟩

theorem own_step {h g : Host} {a : Action} (hq : Queued h) (hs : step h a = some g) {j : ℕ}
    (hj : (h.stage j).waits = false) : Own h g a j := by
  cases hm : a.movesJobs with
  | false =>
    refine .inr ⟨?_,by rw [(frame_step hs).jobs hm]⟩
    rintro b rfl
    simp [Action.movesJobs] at hm
  | true =>
    simp only [step,Option.ite_none_left_eq_some] at hs
    obtain ⟨-,hs⟩ := hs
    cases a <;> simp only [Action.movesJobs,Bool.false_eq_true] at hm <;> simp only [move] at hs
    case register i fnName args =>
      simp only [register,Option.ite_none_right_eq_some,Option.some.injEq] at hs
      obtain ⟨⟨-,habsent⟩,rfl⟩ := hs
      exact .inr (own_setJob _ (by rw [habsent]; rfl) hj (by simp))
    case send i =>
      obtain ⟨hstage,hs⟩ := send_cases hs
      have hwaits : (h.stage i).waits = true := by rw [hstage]; rfl
      obtain ⟨-,rfl⟩ | ⟨-,rfl⟩ := hs <;> exact .inr (own_setJob _ hwaits hj (by simp))
    case recv =>
      obtain ⟨-,⟨i,q,hqueue,rfl⟩ | ⟨-,-,rfl⟩⟩ := recv_cases hs
      · have hstage : h.stage i = .queued := (hq.queued i).mpr (by simp [hqueue])
        exact .inr (own_setJob _ (by rw [hstage]; rfl) hj (by simp))
      · exact .inr ⟨by simp,rfl⟩
    case dispatch =>
      obtain ⟨i,hd,⟨-,rfl⟩ | ⟨-,rfl⟩⟩ := dispatch_cases hs
      · exact .inr ⟨by simp,rfl⟩
      · have hstage : h.stage i = .held := (hq.held i).mpr (.inl hd)
        exact .inr (own_setJob _ (by rw [hstage]; rfl) hj (by simp))
    case job i a =>
      revert hs
      fun_cases advanceJob h i a <;> rintro ⟨⟩
      rename_i x c hx
      by_cases hi : j = i
      · subst hi
        exact .inl ⟨a,rfl,by simp [Job.next,hx,Host.charge,Host.setJob]⟩
      · refine .inr ⟨fun b hb => hi ?_,?_⟩
        · cases hb
          rfl
        · exact Function.update_of_ne hi _ _

theorem accepted_step {h g : Host} {a : Action} (hi : Inv h) (hs : step h a = some g) {j : ℕ}
    (hj : (h.stage j).accepted = true) : (g.stage j).accepted = true := by
  rcases stays_or_goes hi.queue hs j with ⟨hstays,-⟩ | hgoes
  · rwa [hstays]
  · exact hgoes.accepted hj

theorem refused_step {h g : Host} {a : Action} (hi : Inv h) (hs : step h a = some g) {j : ℕ}
    (hj : h.stage j = .refused) : g.stage j = .refused := by
  rcases stays_or_goes hi.queue hs j with ⟨hstays,-⟩ | hgoes
  · rwa [hstays]
  · have := hgoes.ended.1
    simp [hj,JobStage.ended] at this

end HostLoop

namespace HostManager

open HostJob
open HostLoop (Job JobStage JobAction)

variable {H : Type*} [DecidableEq H]

/-- The steps of the job `j` of `h` among those of a run. -/
def ownSteps (h : H) (j : ℕ) (as : List (Action H)) : List JobAction :=
  as.filterMap fun
    | .host g (.job i a) => if g = h ∧ i = j then some a else none
    | _ => none

theorem own_job_step {s t : Sys H} {a : Action H} (hi : Inv s) (hs : step s a = some t) {h : H}
    {j : ℕ} (hj : (s.stage h j).waits = false) :
    (∃ b, a = .host h (.job j b) ∧ ((s.hosts h).jobs j).next b = some ((t.hosts h).jobs j)) ∨
      (∀ b, a ≠ .host h (.job j b)) ∧ (t.hosts h).jobs j = (s.hosts h).jobs j := by
  rcases step_cases hs with ⟨i,g,fnName,args,rfl,hg,rfl⟩ | ⟨hhosts,-,-,hno⟩ | ⟨i,g,a',rfl,-,hg,rfl⟩
  · refine .inr ⟨by simp,?_⟩
    by_cases hih : h = i
    · subst hih
      rcases HostLoop.own_step (hi.hosts h).1.queue hg hj with ⟨b,hb,-⟩ | ⟨-,hsame⟩
      · cases hb
      · simpa using hsame
    · simp [Function.update_of_ne hih]
  · exact .inr ⟨fun b => hno _ _,by rw [hhosts]⟩
  · by_cases hih : h = i
    · subst hih
      rcases HostLoop.own_step (hi.hosts h).1.queue hg hj with ⟨b,rfl,hnext⟩ | ⟨hno,hsame⟩
      · exact .inl ⟨b,rfl,by simpa using hnext⟩
      · refine .inr ⟨fun b hb => hno b ?_,by simpa using hsame⟩
        cases hb
        rfl
    · refine .inr ⟨fun b hb => hih ?_,by simp [Function.update_of_ne hih]⟩
      cases hb
      rfl

theorem own_run {s t : Sys H} {as : List (Action H)} (hi : Inv s) (hs : run s as = some t) {h : H}
    {j : ℕ} (hj : (s.stage h j).waits = false) :
    Trace.run Job.next ((s.hosts h).jobs j) (ownSteps h j as) = some ((t.hosts h).jobs j) := by
  induction as generalizing s with
  | nil =>
    obtain rfl : s = t := by simpa [run] using hs
    rfl
  | cons a as ih =>
    obtain ⟨u,hu,hr⟩ := Trace.run_cons.mp hs
    have hiu := inv_step hi hu
    rcases own_job_step hi hu hj with ⟨b,rfl,hnext⟩ | ⟨hno,hsame⟩
    · have hrest := ih hiu hr (HostLoop.waits_next hnext)
      have hown : ownSteps h j (.host h (.job j b)::as) = b::ownSteps h j as := by
        simp [ownSteps]
      rw [hown]
      exact Trace.run_cons.mpr ⟨_,hnext,hrest⟩
    · have hown : ownSteps h j (a::as) = ownSteps h j as := by
        rw [ownSteps,List.filterMap_cons_none]
        · rfl
        · split
          · next g i b =>
            rw [if_neg]
            rintro ⟨rfl,rfl⟩
            exact hno b rfl
          · rfl
      rw [hown,← hsame]
      refine ih hiu hr ?_
      rwa [Sys.stage,HostLoop.Host.stage,hsame]

theorem verdict_step {s t : Sys H} {a : Action H} (hi : Inv s) (hs : step s a = some t) (h : H)
    (j : ℕ) : ((s.stage h j).accepted = true → (t.stage h j).accepted = true) ∧
      (s.stage h j = .refused → t.stage h j = .refused) := by
  have hinv := (hi.hosts h).1
  rcases own_step hs h with he | ⟨a',ha,-⟩
  · simp only [Sys.stage,he]
    exact ⟨id,id⟩
  · exact ⟨HostLoop.accepted_step hinv ha,HostLoop.refused_step hinv ha⟩

theorem verdict_run {s t : Sys H} {as : List (Action H)} (hi : Inv s) (hs : run s as = some t)
    (h : H) (j : ℕ) : Inv t ∧ ((s.stage h j).accepted = true → (t.stage h j).accepted = true) ∧
      (s.stage h j = .refused → t.stage h j = .refused) := by
  refine Trace.run_keeps (I := fun t => Inv t ∧
    ((s.stage h j).accepted = true → (t.stage h j).accepted = true) ∧
      (s.stage h j = .refused → t.stage h j = .refused)) ?_ ⟨hi,id,id⟩ hs
  rintro u a v ⟨hu,hacc,href⟩ hv
  obtain ⟨hacc',href'⟩ := verdict_step hu hv h j
  exact ⟨inv_step hu hv,hacc' ∘ hacc,href' ∘ href⟩

end HostManager
end AsioQuickjs
