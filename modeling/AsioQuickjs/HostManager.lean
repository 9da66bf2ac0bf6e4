import AsioQuickjs.HostLoopInvariant

/-! The manager: task ids, the `cancels_` table and the hosts, one for each slot
`create_host` makes. Any thread may submit, cancel or destroy between any two
steps of the hosts. -/
namespace AsioQuickjs
namespace HostManager

open HostJob
open HostLoop (Host JobStage)

variable {H : Type*}

/-- `cancels` are the keys of `cancels_`; the flags themselves are shared with the
jobs and outlive their entries. -/
structure Sys (H : Type*) where
  hosts : H → Host
  nextTaskId : ℕ := 1
  cancels : ℕ → Bool := fun _ => false
  flags : ℕ → Bool := fun _ => false

/-- Before anything is submitted, with the `max_in_flight` of each slot. -/
def init (limit : H → ℤ) : Sys H := { hosts := fun h => HostLoop.start (limit h) }

inductive Action (H : Type*)
  | submit (h : H) (fnName : String) (args : Args)
  | cancel (taskId : ℕ)
  | host (h : H) (a : HostLoop.Action)

def Sys.stage (s : Sys H) (h : H) (j : ℕ) : JobStage := (s.hosts h).stage j

/-- Ids come from `submit` alone, and `execute_job` loads the flag of its own job. -/
def allows (s : Sys H) : HostLoop.Action → Bool
  | .register _ _ _ => false
  | .job j (.start cancelled) => cancelled = s.flags j
  | _ => true

def forgetTask (s : Sys H) : Option ℕ → Sys H
  | some j => { s with cancels := Function.update s.cancels j false }
  | none => s

@[simp] theorem forgetTask_hosts (s : Sys H) (o : Option ℕ) :
    (forgetTask s o).hosts = s.hosts := by cases o <;> rfl

@[simp] theorem forgetTask_nextTaskId (s : Sys H) (o : Option ℕ) :
    (forgetTask s o).nextTaskId = s.nextTaskId := by cases o <;> rfl

@[simp] theorem forgetTask_flags (s : Sys H) (o : Option ℕ) :
    (forgetTask s o).flags = s.flags := by cases o <;> rfl

theorem forgetTask_cancels (s : Sys H) (o : Option ℕ) (j : ℕ) :
    (forgetTask s o).cancels j = if o = some j then false else s.cancels j := by
  cases o with
  | none => rfl
  | some i => simp [forgetTask,Function.update_apply,eq_comm]

def cancel (s : Sys H) (taskId : ℕ) : Sys H :=
  if s.cancels taskId then { s with flags := Function.update s.flags taskId true } else s

/-- What that call of `cancel` returns. -/
def cancelAnswer (s : Sys H) (taskId : ℕ) : Bool := s.cancels taskId

section

variable [DecidableEq H]

/-- The part of `submit` under the lock. Without a serving host it returns `nullopt`. -/
def submit (s : Sys H) (h : H) (fnName : String) (args : Args) : Sys H :=
  match HostLoop.step (s.hosts h) (.register s.nextTaskId fnName args) with
  | some g =>
    { hosts := Function.update s.hosts h g
      nextTaskId := s.nextTaskId+1
      cancels := Function.update s.cancels s.nextTaskId true
      flags := Function.update s.flags s.nextTaskId false }
  | none => s

def step (s : Sys H) : Action H → Option (Sys H)
  | .submit h fnName args => some (submit s h fnName args)
  | .cancel taskId => some (cancel s taskId)
  | .host h a =>
    if allows s a then
      match HostLoop.step (s.hosts h) a with
      | some g => some (forgetTask { s with hosts := Function.update s.hosts h g } a.forgets)
      | none => none
    else none

def run (s : Sys H) (as : List (Action H)) : Option (Sys H) := Trace.run step s as

/-- A step is a submission that found its host, one that did not or a cancel, or a
step of one host. -/
theorem step_cases {s t : Sys H} {a : Action H} (hs : step s a = some t) :
    (∃ h g fnName args, a = .submit h fnName args ∧
      HostLoop.step (s.hosts h) (.register s.nextTaskId fnName args) = some g ∧
      t = { hosts := Function.update s.hosts h g
            nextTaskId := s.nextTaskId+1
            cancels := Function.update s.cancels s.nextTaskId true
            flags := Function.update s.flags s.nextTaskId false }) ∨
    (t.hosts = s.hosts ∧ t.nextTaskId = s.nextTaskId ∧ t.cancels = s.cancels ∧
      ∀ h a', a ≠ .host h a') ∨
    (∃ h g a', a = .host h a' ∧ (∀ j fnName args, a' ≠ .register j fnName args) ∧
      HostLoop.step (s.hosts h) a' = some g ∧
      t = forgetTask { s with hosts := Function.update s.hosts h g } a'.forgets) := by
  cases a with
  | submit h fnName args =>
    simp only [step,Option.some.injEq] at hs
    subst hs
    cases hg : HostLoop.step (s.hosts h) (.register s.nextTaskId fnName args) with
    | some g => exact .inl ⟨h,g,fnName,args,rfl,hg,by simp [submit,hg]⟩
    | none => exact .inr (.inl (by simp [submit,hg]))
  | cancel taskId =>
    simp only [step,Option.some.injEq] at hs
    subst hs
    refine .inr (.inl ?_)
    simp only [cancel]
    split <;> simp
  | host h a =>
    simp only [step,Option.ite_none_right_eq_some] at hs
    obtain ⟨hallows,hs⟩ := hs
    cases hg : HostLoop.step (s.hosts h) a with
    | none => simp [hg] at hs
    | some g =>
      simp only [hg,Option.some.injEq] at hs
      refine .inr (.inr ⟨h,g,a,rfl,?_,hg,hs.symm⟩)
      rintro j fnName args rfl
      simp [allows] at hallows

theorem own_step {s t : Sys H} {a : Action H} (hs : step s a = some t) (h : H) :
    t.hosts h = s.hosts h ∨ ∃ a', HostLoop.step (s.hosts h) a' = some (t.hosts h) ∧
      (a = .host h a' ∨ ∃ j fnName args, a' = .register j fnName args) := by
  rcases step_cases hs with ⟨i,g,fnName,args,-,hg,rfl⟩ | ⟨hhosts,-⟩ | ⟨i,g,a',ha,-,hg,rfl⟩
  · by_cases hi : h = i
    · subst hi
      exact .inr ⟨_,by simpa using hg,.inr ⟨_,_,_,rfl⟩⟩
    · exact .inl (by simp [Function.update_of_ne hi])
  · exact .inl (by rw [hhosts])
  · by_cases hi : h = i
    · subst hi
      exact .inr ⟨a',by simpa using hg,.inl ha⟩
    · exact .inl (by simp [Function.update_of_ne hi])

end

structure Inv (s : Sys H) : Prop where
  hosts : ∀ h, HostLoop.Inv (s.hosts h) ∧ HostLoop.Lives (s.hosts h)
  fresh : ∀ h j, s.nextTaskId ≤ j → s.stage h j = .absent
  owner : ∀ h g j, s.stage h j ≠ .absent → s.stage g j ≠ .absent → h = g
  cancels : ∀ h j, s.stage h j ≠ .absent → (s.cancels j = true ↔ (s.stage h j).ended = false)

theorem inv_init (limit : H → ℤ) : Inv (init limit) :=
  ⟨fun _ => ⟨HostLoop.inv_start _,HostLoop.lives_start _⟩,fun _ _ _ => rfl,
    fun _ _ _ hne => absurd rfl hne,fun _ _ hne => absurd rfl hne⟩

theorem stage_update [DecidableEq H] {s t : Sys H} {h : H} {g : Host}
    (ht : t.hosts = Function.update s.hosts h g) (i : H) (j : ℕ) :
    t.stage i j = if i = h then g.stage j else s.stage i j := by
  by_cases hi : i = h
  · subst hi
    simp [Sys.stage,ht]
  · simp [Sys.stage,ht,hi]

theorem hosts_step [DecidableEq H] {s t : Sys H} {a : Action H} (hi : Inv s)
    (hs : step s a = some t) (h : H) : HostLoop.Inv (t.hosts h) ∧ HostLoop.Lives (t.hosts h) := by
  obtain ⟨hinv,hlives⟩ := hi.hosts h
  rcases own_step hs h with he | ⟨a',ha,-⟩
  · rw [he]
    exact ⟨hinv,hlives⟩
  · exact ⟨HostLoop.inv_step hinv ha,HostLoop.lives_step hlives ha⟩

theorem submitted_stage {g h : Host} {j : ℕ} {fnName : String} {args : Args}
    (hs : HostLoop.step h (.register j fnName args) = some g) (i : ℕ) :
    h.stage j = .absent ∧ g.stage i = if i = j then .submitting else h.stage i := by
  simp only [HostLoop.step,HostLoop.Action.onThread,Bool.false_and,Bool.false_eq_true,if_false,
    HostLoop.move,HostLoop.register,Option.ite_none_right_eq_some,Option.some.injEq] at hs
  obtain ⟨⟨-,habsent⟩,rfl⟩ := hs
  exact ⟨habsent,HostLoop.stage_setJob h j _ i⟩

theorem inv_submit [DecidableEq H] {s t : Sys H} {h : H} {g : Host} {fnName : String}
    {args : Args} (hi : Inv s)
    (hg : HostLoop.step (s.hosts h) (.register s.nextTaskId fnName args) = some g)
    (ht : t = { hosts := Function.update s.hosts h g
                nextTaskId := s.nextTaskId+1
                cancels := Function.update s.cancels s.nextTaskId true
                flags := Function.update s.flags s.nextTaskId false })
    (hhosts : ∀ i, HostLoop.Inv (t.hosts i) ∧ HostLoop.Lives (t.hosts i)) : Inv t := by
  have hstage : ∀ i j, t.stage i j =
      if i = h ∧ j = s.nextTaskId then .submitting else s.stage i j := by
    intro i j
    have hupdate : t.hosts = Function.update s.hosts h g := by rw [ht]
    rw [stage_update hupdate,(submitted_stage hg j).2]
    by_cases hih : i = h
    · subst hih
      simp [Sys.stage]
    · simp [hih]
  have hnew : ∀ i, s.stage i s.nextTaskId = .absent := fun i => hi.fresh i _ (Nat.le_refl _)
  have hnext : t.nextTaskId = s.nextTaskId+1 := by rw [ht]
  have hcancels : ∀ j, t.cancels j = if j = s.nextTaskId then true else s.cancels j := fun j => by
    rw [ht]
    exact Function.update_apply _ _ _ j
  refine ⟨hhosts,?_,?_,?_⟩
  · intro i j hj
    rw [hnext] at hj
    rw [hstage,if_neg (by omega)]
    exact hi.fresh i j (by omega)
  · intro i k j hij hkj
    rw [hstage] at hij hkj
    by_cases hj : j = s.nextTaskId
    · subst hj
      simp only [hnew,and_true,ite_eq_right_iff,reduceCtorEq,imp_false,not_not,ne_eq] at hij hkj
      rw [hij,hkj]
    · simp only [hj,and_false,if_false] at hij hkj
      exact hi.owner i k j hij hkj
  · intro i j hij
    rw [hstage] at hij ⊢
    rw [hcancels]
    by_cases hj : j = s.nextTaskId
    · subst hj
      simp only [hnew,and_true,ite_eq_right_iff,reduceCtorEq,imp_false,not_not,ne_eq] at hij
      simp [hij,JobStage.ended]
    · simp only [hj,and_false,if_false] at hij ⊢
      exact hi.cancels i j hij

theorem inv_host [DecidableEq H] {s t : Sys H} {h : H} {g : Host} {a : HostLoop.Action}
    (hi : Inv s) (hno : ∀ j fnName args, a ≠ .register j fnName args)
    (hg : HostLoop.step (s.hosts h) a = some g)
    (ht : t = forgetTask { s with hosts := Function.update s.hosts h g } a.forgets)
    (hhosts : ∀ i, HostLoop.Inv (t.hosts i) ∧ HostLoop.Lives (t.hosts i)) : Inv t := by
  have hstage : ∀ i j, t.stage i j = if i = h then g.stage j else s.stage i j := fun i j =>
    stage_update (by rw [ht,forgetTask_hosts]) i j
  have hcases := HostLoop.stays_or_goes (hi.hosts h).1.queue hg
  -- the step brings no job into being and none back
  have habsent : ∀ i j, t.stage i j = .absent ↔ s.stage i j = .absent := by
    intro i j
    rw [hstage]
    split
    · next he =>
      subst he
      rcases hcases j with ⟨hstays,-⟩ | hgoes
      · rw [hstays,Sys.stage]
      · refine iff_of_false hgoes.present fun hab => ?_
        obtain ⟨fnName,args,rfl⟩ := hgoes.absent hab
        exact hno j fnName args rfl
    · exact Iff.rfl
  refine ⟨hhosts,?_,?_,?_⟩
  · intro i j hj
    rw [habsent]
    refine hi.fresh i j ?_
    simpa [ht] using hj
  · intro i k j hij hkj
    rw [ne_eq,habsent] at hij hkj
    exact hi.owner i k j hij hkj
  · intro i j hij
    have hij' : s.stage i j ≠ .absent := fun hab => hij ((habsent i j).mpr hab)
    rw [ht,forgetTask_cancels,← ht,hstage]
    have hold := hi.cancels i j hij'
    by_cases he : i = h
    · subst he
      rw [if_pos rfl]
      rcases hcases j with ⟨hstays,hforgets⟩ | hgoes
      · rw [if_neg hforgets,hstays]
        exact hold
      · by_cases hf : a.forgets = some j
        · simp [hf,hgoes.ended.2.mpr hf]
        · have hend : (g.stage j).ended = false := by
            rw [← Bool.not_eq_true,hgoes.ended.2]
            exact hf
          rw [if_neg hf,hold]
          exact iff_of_true hgoes.ended.1 hend
    · rw [if_neg he]
      -- the entry erased is that of a job of `h`, so not that of `j`
      have hf : a.forgets ≠ some j := by
        intro hf
        rcases hcases j with ⟨-,hforgets⟩ | hgoes
        · exact hforgets hf
        · refine he (hi.owner i h j hij' fun hab => ?_)
          obtain ⟨fnName,args,rfl⟩ := hgoes.absent hab
          exact hno j fnName args rfl
      rw [if_neg hf]
      exact hold

theorem inv_step [DecidableEq H] {s t : Sys H} {a : Action H} (hi : Inv s)
    (hs : step s a = some t) : Inv t := by
  have hhosts := hosts_step hi hs
  rcases step_cases hs with
    ⟨h,g,fnName,args,-,hg,ht⟩ | ⟨hsame,hnext,hcancels,-⟩ | ⟨h,g,a',-,hno,hg,ht⟩
  · exact inv_submit hi hg ht hhosts
  · refine ⟨hhosts,?_,?_,?_⟩
    · simpa only [Sys.stage,hsame,hnext] using hi.fresh
    · simpa only [Sys.stage,hsame] using hi.owner
    · simpa only [Sys.stage,hsame,hcancels] using hi.cancels
  · exact inv_host hi hno hg ht hhosts

theorem inv_run [DecidableEq H] {limit : H → ℤ} {s : Sys H} {as : List (Action H)}
    (hs : run (init limit) as = some s) : Inv s :=
  Trace.run_keeps (fun _ _ _ hi => inv_step hi) (inv_init limit) hs

end HostManager
end AsioQuickjs
