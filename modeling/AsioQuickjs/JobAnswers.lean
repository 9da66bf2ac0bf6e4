import AsioQuickjs.JobRuns

/-! Every accepted job is answered once: no interleaving and no behaviour of a
job answers it twice, and when `destroy_host` returns none of its jobs waits. -/
namespace AsioQuickjs
namespace HostLoop

theorem finished_of_exited {h : Host} (hi : Inv h) (hl : Lives h) (hx : h.exited = true) (j : ℕ)
    (ha : (h.stage j).accepted = true) : h.stage j = .finished := by
  obtain ⟨hops,hdepth⟩ := hl.exited hx
  have hcounts := hi.counted.pendingOps
  have hcountd := hi.counted.depth
  rw [hops] at hcounts
  rw [hdepth] at hcountd
  have hops0 := hcounts.none_held (opShare_nonneg h)
  have hdepth0 := hcountd.none_held (depthShare_nonneg h)
  have hdone : h.dispatcher = .done := by simpa [opShare] using hops0 .dispatcher
  have hqueue := (hi.queue.ended hdone).2
  have hnotq : h.stage j ≠ .queued := fun hq => by
    simpa [hqueue] using (hi.queue.queued j).mp hq
  have hnoth : h.stage j ≠ .held := fun hh => by
    simpa [hdone] using (hi.queue.held j).mp hh
  have hjob := hops0 (.job j)
  have hjobd := hdepth0 (.job j)
  simp only [opShare,depthShare] at hjob hjobd
  cases hs : h.stage j <;>
    simp_all [JobStage.ops,JobStage.depth,JobStage.accepted]

theorem answers_le_one {h : Host} (hi : Inv h) (j : ℕ) : (h.jobs j).answers.length ≤ 1 := by
  have ha := hi.answered j
  have hor : (h.jobs j).answers = [] ∨ ∃ r, (h.jobs j).answers = [r] := by
    cases hs : (h.jobs j).stage <;> simp only [Answered,hs] at ha <;> grind
  rcases hor with he | ⟨r,he⟩ <;> simp [he]

end HostLoop

namespace HostManager

open HostJob
open HostLoop (JobStage)

variable {H : Type*} [DecidableEq H]

theorem submit_nullopt (s : Sys H) (h : H) (fnName : String) (args : Args)
    (hlife : (s.hosts h).life ≠ .serving) :
    step s (.submit h fnName args) = some s := by
  have hnone : HostLoop.step (s.hosts h) (.register s.nextTaskId fnName args) = none := by
    simp [HostLoop.step,HostLoop.Action.onThread,HostLoop.move,HostLoop.register,hlife]
  simp [step,submit,hnone]

/-- At any time of any run no job has two answers; a job accepted by then is
answered and forgotten when its host's `destroy_host` returns, and a job refused by
then has no entry in `cancels_` and is never called. -/
theorem one_answer {limit : H → ℤ} {as bs : List (Action H)} {s t : Sys H}
    (hs : run (init limit) as = some s) (ht : run s bs = some t) (h : H) (j : ℕ) :
    ((t.hosts h).jobs j).answers.length ≤ 1 ∧
    ((s.stage h j).accepted = true → (t.hosts h).life = .returned →
      (∃ r, ((t.hosts h).jobs j).answers = [r] ∧ ((t.hosts h).jobs j).reply.Holds r) ∧
        t.cancels j = false) ∧
    (s.stage h j = .refused → t.cancels j = false ∧ ((t.hosts h).jobs j).calls = 0) ∧
    ∀ fnName args, (t.hosts h).life ≠ .serving → step t (.submit h fnName args) = some t := by
  obtain ⟨hi,hacc,href⟩ := verdict_run (inv_run hs) ht h j
  obtain ⟨hinv,hlives⟩ := hi.hosts h
  refine ⟨HostLoop.answers_le_one hinv j,?_,?_,fun _ _ => submit_nullopt t h _ _⟩
  · intro haccepted hreturned
    have hfin := HostLoop.finished_of_exited hinv hlives (hlives.returned hreturned) j
      (hacc haccepted)
    have hentry := hi.cancels h j (by simp [Sys.stage,hfin])
    have hanswered := hinv.answered j
    have hfin' : ((t.hosts h).jobs j).stage = .finished := hfin
    simp only [HostLoop.Answered,hfin'] at hanswered
    refine ⟨hanswered,?_⟩
    simpa [Sys.stage,hfin,JobStage.ended] using hentry
  · intro hrefused
    have hj := href hrefused
    have hentry := hi.cancels h j (by simp [hj])
    have hanswered := hinv.answered j
    have hj' : ((t.hosts h).jobs j).stage = .refused := hj
    simp only [HostLoop.Answered,hj'] at hanswered
    refine ⟨?_,hanswered.2.2⟩
    simpa [hj,JobStage.ended] using hentry

def sampleSubmit : List (Action Unit) :=
  [.host () .insert,.submit () "onJob" {},.host () (.send 1)]

def sampleAnswer : List (Action Unit) :=
  [.host () .recv,.host () .dispatch,.host () (.job 1 (.start false)),
    .host () (.job 1 (.call true true)),
    .host () (.job 1 (.endCall (some (.value (.string (some "ok")))))),
    .host () (.job 1 .reply),.host () (.job 1 .release),.host () (.job 1 .count),
    .host () (.job 1 .forget)]

def sampleDestroy : List (Action Unit) :=
  [.host () .erase,.host () .close,.host () .recv,.host () .drained,.host () .shutdown,
    .host () .exit,.host () .cancelAllTimers,.host () .join]

/-- One job, called and answered before its host is destroyed. -/
theorem one_answer_sample :
    ∃ s t, run (init fun _ => 64) sampleSubmit = some s ∧
      run s (sampleAnswer++sampleDestroy) = some t ∧
      (∃ r, ((t.hosts ()).jobs 1).answers = [r] ∧ ((t.hosts ()).jobs 1).reply.Holds r) ∧
      t.cancels 1 = false := by
  refine ⟨_,_,rfl,rfl,?_⟩
  have hall := one_answer (show run (init fun _ => 64) sampleSubmit = some _ from rfl)
    (show run _ (sampleAnswer++sampleDestroy) = some _ from rfl) () 1
  exact hall.2.1 (by decide) (by decide)

end HostManager
end AsioQuickjs
