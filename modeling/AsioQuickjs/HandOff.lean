import AsioQuickjs.Trace
import Mathlib.Data.List.Perm.Basic

/-! A thread that hands functions to a pool of threads, and waits for what they return in a
promise. Nothing catches what a function throws there: the exception leaves the run loop of its
thread, and that ends the process. -/
namespace AsioQuickjs
namespace HandOff

variable {E V : Type}

/-- What the calling thread has to do: return or throw, or hand over a function, which is given
by what it returns or throws, and go on with what it returns. -/
inductive Program (E V : Type)
  | done (r : Except E V)
  | handOff (fn : Except E V) (rest : V → Program E V)

/-- A program, called for its result or for the promise of it, with what it is to come to by
those that its functions work on: a result, or a failure. -/
structure Call (E V : Type) where
  promises : Bool
  program : Program E V
  outcome : Option V

inductive Answer (E V : Type)
  | returned (v : V)
  | thrown (e : E)
  | resolved (v : V)
  | rejected (e : E)

def Call.answer (c : Call E V) : Except E V → Answer E V
  | .ok v => if c.promises then .resolved v else .returned v
  | .error e => if c.promises then .rejected e else .thrown e

def Answer.told : Answer E V → Option V
  | .returned v => some v
  | .resolved v => some v
  | .thrown _ => none
  | .rejected _ => none

/-- What is posted to the pool: a function that is waited for, or one that is not. -/
structure Job (E V : Type) where
  awaited : Bool
  fn : Except E V

inductive Caller (E V : Type)
  | idle
  | waiting (c : Call E V) (fn : Except E V) (rest : V → Program E V)

structure Sys (E V : Type) where
  queue : List (Job E V)
  running : List (Job E V)
  promise : Option V
  caller : Caller E V
  obtained : List (Except E V × V)
  answers : List (Call E V × Answer E V)
  terminated : Bool

def Sys.init : Sys E V := ⟨[],[],none,.idle,[],[],false⟩

def poolSize : ℕ := 4

/-- The calling thread goes on up to its next wait, or to its answer. -/
def Sys.proceed (s : Sys E V) (c : Call E V) : Program E V → Sys E V
  | .done r => {s with caller := .idle, answers := s.answers++[(c,c.answer r)]}
  | .handOff fn rest => {s with caller := .waiting c fn rest, queue := s.queue++[⟨true,fn⟩]}

inductive Action (E V : Type)
  | call (c : Call E V)
  | post (fn : Except E V)
  | take
  | finish (i : ℕ)
  | get

/-- The steps that answer a call, as opposed to those that begin something. -/
def Action.answers : Action E V → Bool
  | .call _ => false
  | .post _ => false
  | _ => true

def step (s : Sys E V) (a : Action E V) : Option (Sys E V) :=
  if s.terminated then none
  else
    match a with
    | .call c =>
      match s.caller with
      | .idle => some (s.proceed c c.program)
      | .waiting .. => none
    | .post fn =>
      match s.caller with
      | .idle => some {s with queue := s.queue++[⟨false,fn⟩]}
      | .waiting .. => none
    | .take =>
      match s.queue with
      | [] => none
      | job::queue =>
        if s.running.length < poolSize then
          some {s with queue := queue, running := s.running++[job]}
        else none
    | .finish i =>
      match s.running[i]? with
      | none => none
      | some job =>
        match job.fn with
        -- `promise.set_value(fn())`
        | .ok v => some {s with
            running := s.running.eraseIdx i
            promise := if job.awaited then some v else s.promise}
        | .error _ => some {s with terminated := true}
    | .get =>
      match s.caller,s.promise with
      | .waiting c fn rest,some v =>
        some ({s with promise := none, obtained := s.obtained++[(fn,v)]}.proceed c (rest v))
      | _,_ => none

namespace Program

/-- What a program comes to if every function brings its result or its exception to the caller. -/
def eval : Program E V → Except E V
  | .done r => r
  | .handOff (.ok v) rest => (rest v).eval
  | .handOff (.error e) _ => .error e

/-- No function that it comes to hand over throws. -/
def Quiet : Program E V → Prop
  | .done _ => True
  | .handOff (.ok v) rest => (rest v).Quiet
  | .handOff (.error _) _ => False

def length : Program E V → ℕ
  | .done _ => 0
  | .handOff (.ok v) rest => (rest v).length+1
  | .handOff (.error _) _ => 1

end Program

/-- The functions that are waited for, on their way through the pool. -/
def Sys.pending (s : Sys E V) : List (Job E V) := (s.queue++s.running).filter Job.awaited

def Sys.work (s : Sys E V) : ℕ :=
  2*s.queue.length+s.running.length+
    match s.caller with
    | .idle => 0
    | .waiting _ (.ok v) rest => 3*(rest v).length+1
    | .waiting _ (.error _) _ => 0

/-- The answer is that of the program, and it tells the outcome. -/
structure Call.Told (c : Call E V) (a : Answer E V) : Prop where
  answer : a = c.answer c.program.eval
  outcome : a.told = c.outcome

/-- The process lives, what was handed over brought its result, the answers tell the outcomes,
and a call that is under way is answered once the pool has run. -/
structure Reaches (s : Sys E V) : Prop where
  alive : s.terminated = false
  obtained : ∀ x ∈ s.obtained, x.1 = .ok x.2
  answered : ∀ x ∈ s.answers, x.1.Told x.2
  goesOn : s.caller ≠ .idle → ∃ a t, a.answers = true ∧ step s a = some t
  ends : ∀ as t, (∀ a ∈ as, a.answers = true) → Trace.run step s as = some t →
    as.length ≤ s.work

/-- What holds of the pool and of the past, whatever the caller is at. -/
structure Base (s : Sys E V) : Prop where
  alive : s.terminated = false
  returns : ∀ job ∈ s.queue++s.running, ∃ v, job.fn = .ok v
  obtained : ∀ x ∈ s.obtained, x.1 = .ok x.2
  answered : ∀ x ∈ s.answers, x.1.Told x.2

/-- The caller waits for one function, which is in the pool or has left its result in the
promise; and what is left to do comes to the same as the whole program. -/
structure Inv (s : Sys E V) : Prop extends Base s where
  idle : s.caller = .idle → s.pending = [] ∧ s.promise = none
  waiting : ∀ c fn rest, s.caller = .waiting c fn rest → ∃ v, fn = .ok v ∧ (rest v).Quiet ∧
    (rest v).eval = c.program.eval ∧ c.program.eval.toOption = c.outcome ∧
    (s.pending = [⟨true,fn⟩] ∧ s.promise = none ∨ s.pending = [] ∧ s.promise = some v)

theorem init_inv : Inv (.init : Sys E V) := by
  refine ⟨⟨rfl,?_,?_,?_⟩,fun _ => ⟨rfl,rfl⟩,?_⟩
  · simp [Sys.init]
  · simp [Sys.init]
  · simp [Sys.init]
  · intro c fn rest h
    cases h

theorem base_append {s : Sys E V} (h : Base s) (awaited : Bool) (v : V) :
    ∀ job ∈ s.queue++[⟨awaited,.ok v⟩]++s.running, ∃ v, job.fn = .ok v := by
  intro job hjob
  simp only [List.append_assoc,List.mem_append,List.mem_singleton] at hjob
  rcases hjob with hjob | rfl | hjob
  · exact h.returns job (List.mem_append_left _ hjob)
  · exact ⟨v,rfl⟩
  · exact h.returns job (List.mem_append_right _ hjob)

theorem told_answer (c : Call E V) (r : Except E V) : (c.answer r).told = r.toOption := by
  unfold Call.answer
  cases r <;> cases c.promises <;> rfl

theorem proceed_inv {s : Sys E V} {c : Call E V} {p : Program E V} (h : Base s)
    (hpending : s.pending = []) (hpromise : s.promise = none) (hquiet : p.Quiet)
    (heval : p.eval = c.program.eval) (houtcome : c.program.eval.toOption = c.outcome) :
    Inv (s.proceed c p) := by
  cases p with
  | done r =>
    refine ⟨⟨h.alive,h.returns,h.obtained,fun x hx => ?_⟩,fun _ => ⟨hpending,hpromise⟩,?_⟩
    · rcases List.mem_append.mp hx with hx | hx
      · exact h.answered x hx
      · rw [List.mem_singleton.mp hx]
        have hr : r = c.program.eval := heval
        exact ⟨congrArg c.answer hr,by rw [told_answer,hr,houtcome]⟩
    · intro c fn rest hcaller
      cases hcaller
  | handOff fn rest =>
    cases fn with
    | error e => cases hquiet
    | ok v =>
      refine ⟨⟨h.alive,base_append h true v,h.obtained,h.answered⟩,fun hidle => ?_,?_⟩
      · cases hidle
      · intro c' fn rest' hcaller
        cases hcaller
        refine ⟨v,rfl,hquiet,heval,houtcome,.inl ⟨?_,hpromise⟩⟩
        have hnone := hpending
        simp only [Sys.pending,List.filter_append,List.append_eq_nil_iff] at hnone
        simp [Sys.pending,Sys.proceed,hnone.1,hnone.2]

theorem pending_take {job : Job E V} {queue running : List (Job E V)} :
    ((queue++(running++[job])).filter Job.awaited).Perm
      ((job::queue++running).filter Job.awaited) := by
  apply List.Perm.filter
  rw [← List.append_assoc,List.cons_append]
  exact List.perm_append_singleton job (queue++running)

theorem pending_finish (queue : List (Job E V)) {running : List (Job E V)} {i : ℕ}
    (hi : i < running.length) :
    ((running[i]::(queue++running.eraseIdx i)).filter Job.awaited).Perm
      ((queue++running).filter Job.awaited) := by
  apply List.Perm.filter
  refine List.perm_middle.symm.trans ?_
  exact (List.getElem_cons_eraseIdx_perm hi).append_left queue

/-- What a step of a living process does. -/
inductive Steps (s : Sys E V) : Action E V → Sys E V → Prop
  | call (c : Call E V) (hidle : s.caller = .idle) : Steps s (.call c) (s.proceed c c.program)
  | post (fn : Except E V) (hidle : s.caller = .idle) :
      Steps s (.post fn) {s with queue := s.queue++[⟨false,fn⟩]}
  | take {job : Job E V} {queue : List (Job E V)} (hqueue : s.queue = job::queue)
      (hfree : s.running.length < poolSize) :
      Steps s .take {s with queue := queue, running := s.running++[job]}
  | finish {i : ℕ} (hi : i < s.running.length) {v : V} (hfn : s.running[i].fn = .ok v) :
      Steps s (.finish i) {s with
        running := s.running.eraseIdx i
        promise := if s.running[i].awaited then some v else s.promise}
  | terminate {i : ℕ} (hi : i < s.running.length) {e : E} (hfn : s.running[i].fn = .error e) :
      Steps s (.finish i) {s with terminated := true}
  | get {c : Call E V} {fn : Except E V} {rest : V → Program E V} {v : V}
      (hcaller : s.caller = .waiting c fn rest) (hpromise : s.promise = some v) :
      Steps s .get ({s with promise := none, obtained := s.obtained++[(fn,v)]}.proceed c (rest v))

theorem step_cases {s t : Sys E V} {a : Action E V} (h : step s a = some t) :
    s.terminated = false ∧ Steps s a t := by
  unfold step at h
  split at h
  · cases h
  · next halive =>
    refine ⟨by simpa using halive,?_⟩
    cases a with
    | call c =>
      cases hcaller : s.caller with
      | waiting => simp [hcaller] at h
      | idle =>
        obtain rfl : s.proceed c c.program = t := by simpa [hcaller] using h
        exact .call c hcaller
    | post fn =>
      cases hcaller : s.caller with
      | waiting => simp [hcaller] at h
      | idle =>
        simp only [hcaller,Option.some.injEq] at h
        rw [← h,← hcaller]
        exact .post fn hcaller
    | take =>
      cases hqueue : s.queue with
      | nil => simp [hqueue] at h
      | cons job queue =>
        simp only [hqueue,Option.ite_none_right_eq_some,Option.some.injEq] at h
        obtain ⟨hfree,rfl⟩ := h
        exact .take hqueue hfree
    | finish i =>
      by_cases hi : i < s.running.length
      · simp only [List.getElem?_eq_getElem hi] at h
        cases hfn : s.running[i].fn with
        | ok v =>
          simp only [hfn,Option.some.injEq] at h
          rw [← h]
          exact .finish hi hfn
        | error e =>
          simp only [hfn,Option.some.injEq] at h
          rw [← h]
          exact .terminate hi hfn
      · simp [List.getElem?_eq_none (Nat.not_lt.mp hi)] at h
    | get =>
      cases hcaller : s.caller with
      | idle => simp [hcaller] at h
      | waiting c fn rest =>
        cases hpromise : s.promise with
        | none => simp [hcaller,hpromise] at h
        | some v =>
          simp only [hcaller,hpromise,Option.some.injEq] at h
          rw [← h,← hcaller]
          exact .get hcaller hpromise

theorem step_of_steps {s t : Sys E V} {a : Action E V} (halive : s.terminated = false)
    (h : Steps s a t) : step s a = some t := by
  unfold step
  rw [if_neg (by simp [halive])]
  cases h with
  | call c hidle => simp [hidle]
  | post fn hidle => simp [hidle]
  | take hqueue hfree => simp [hqueue,hfree]
  | finish hi hfn => simp [hi,hfn]
  | terminate hi hfn => simp [hi,hfn]
  | get hcaller hpromise => simp [hcaller,hpromise]

/-- The actions of an environment that hands over only what returns, by programs that come to
the outcomes of their calls. -/
def Harmless : Action E V → Prop
  | .call c => c.program.Quiet ∧ c.program.eval.toOption = c.outcome
  | .post fn => ∃ v, fn = .ok v
  | _ => True

theorem mem_of_mem_eraseIdx {job : Job E V} {queue running : List (Job E V)} {i : ℕ}
    (h : job ∈ queue++running.eraseIdx i) : job ∈ queue++running := by
  rcases List.mem_append.mp h with h | h
  · exact List.mem_append_left _ h
  · exact List.mem_append_right _ (List.mem_of_mem_eraseIdx h)

theorem inv_of_pending {s t : Sys E V} (h : Inv s) (hbase : Base t)
    (hcaller : t.caller = s.caller) (hpromise : t.promise = s.promise)
    (hperm : t.pending.Perm s.pending) : Inv t := by
  refine ⟨hbase,fun hidle => ?_,fun c fn rest hwaiting => ?_⟩
  · obtain ⟨hpending,hnone⟩ := h.idle (hcaller.symm.trans hidle)
    rw [hpending] at hperm
    exact ⟨List.perm_nil.mp hperm,hpromise.trans hnone⟩
  · obtain ⟨v,hfn,hquiet,heval,houtcome,hplace⟩ :=
      h.waiting c fn rest (hcaller.symm.trans hwaiting)
    refine ⟨v,hfn,hquiet,heval,houtcome,?_⟩
    rcases hplace with ⟨hpending,hnone⟩ | ⟨hpending,hsome⟩
    · rw [hpending] at hperm
      exact .inl ⟨List.perm_singleton.mp hperm,hpromise.trans hnone⟩
    · rw [hpending] at hperm
      exact .inr ⟨List.perm_nil.mp hperm,hpromise.trans hsome⟩

/-- The function that the caller waits for has returned, and its result is in the promise. -/
theorem finish_awaited_inv {s : Sys E V} (h : Inv s) {i : ℕ} (hi : i < s.running.length) {v : V}
    (hfn : s.running[i].fn = .ok v) (hawaited : s.running[i].awaited = true) :
    Inv {s with running := s.running.eraseIdx i, promise := some v} := by
  have hperm : (_ : List (Job E V)).Perm s.pending := pending_finish s.queue hi
  rw [List.filter_cons_of_pos hawaited] at hperm
  refine ⟨⟨h.alive,fun job hjob => h.returns job (mem_of_mem_eraseIdx hjob),h.obtained,
    h.answered⟩,fun hidle => ?_,fun c fn rest hcaller => ?_⟩
  · rw [(h.idle hidle).1] at hperm
    exact absurd (List.perm_nil.mp hperm) (List.cons_ne_nil _ _)
  · obtain ⟨w,hw,hquiet,heval,houtcome,hplace⟩ := h.waiting c fn rest hcaller
    refine ⟨w,hw,hquiet,heval,houtcome,.inr ?_⟩
    rcases hplace with ⟨hpending,-⟩ | ⟨hpending,-⟩
    · rw [hpending] at hperm
      obtain ⟨hjob,hrest⟩ := List.cons.inj (List.perm_singleton.mp hperm)
      rw [hjob,hw] at hfn
      exact ⟨hrest,congrArg some (Except.ok.inj hfn).symm⟩
    · rw [hpending] at hperm
      exact absurd (List.perm_nil.mp hperm) (List.cons_ne_nil _ _)

theorem step_inv {s t : Sys E V} {a : Action E V} (h : Inv s) (ha : Harmless a)
    (hstep : step s a = some t) : Inv t := by
  obtain ⟨-,hsteps⟩ := step_cases hstep
  cases hsteps with
  | call c hidle =>
    obtain ⟨hpending,hpromise⟩ := h.idle hidle
    exact proceed_inv h.toBase hpending hpromise ha.1 rfl ha.2
  | post fn hidle =>
    obtain ⟨v,rfl⟩ := ha
    refine inv_of_pending h ⟨h.alive,base_append h.toBase false v,h.obtained,h.answered⟩ rfl rfl ?_
    simp [Sys.pending]
  | @take job queue hqueue hfree =>
    refine inv_of_pending h ⟨h.alive,fun j hj => h.returns j ?_,h.obtained,h.answered⟩ rfl rfl ?_
    · rw [hqueue]
      simp only [List.mem_append,List.mem_cons] at hj ⊢
      tauto
    · rw [Sys.pending,Sys.pending,hqueue]
      exact pending_take
  | @finish i hi v hfn =>
    by_cases hawaited : s.running[i].awaited = true
    · rw [if_pos hawaited]
      exact finish_awaited_inv h hi hfn hawaited
    · have hperm := pending_finish s.queue hi
      rw [List.filter_cons_of_neg hawaited] at hperm
      exact inv_of_pending h ⟨h.alive,fun job hjob => h.returns job (mem_of_mem_eraseIdx hjob),
        h.obtained,h.answered⟩ rfl (if_neg hawaited) hperm
  | @terminate i hi e hfn =>
    obtain ⟨v,hv⟩ := h.returns _ (List.mem_append_right _ (List.getElem_mem hi))
    rw [hfn] at hv
    cases hv
  | @get c fn rest v hcaller hpromise =>
    obtain ⟨w,hw,hquiet,heval,houtcome,hplace⟩ := h.waiting c fn rest hcaller
    rcases hplace with ⟨-,hnone⟩ | ⟨hpending,hsome⟩
    · rw [hpromise] at hnone
      cases hnone
    · obtain rfl : v = w := Option.some.inj (hpromise.symm.trans hsome)
      refine proceed_inv ⟨h.alive,h.returns,fun x hx => ?_,h.answered⟩ hpending rfl hquiet heval
        houtcome
      rcases List.mem_append.mp hx with hx | hx
      · exact h.obtained x hx
      · rw [List.mem_singleton.mp hx]
        exact hw

theorem goesOn_of_inv {s : Sys E V} (h : Inv s) (hcaller : s.caller ≠ .idle) :
    ∃ a t, a.answers = true ∧ step s a = some t := by
  cases hc : s.caller with
  | idle => exact absurd hc hcaller
  | waiting c fn rest =>
    obtain ⟨v,-,-,-,-,hplace⟩ := h.waiting c fn rest hc
    rcases hplace with ⟨hpending,-⟩ | ⟨-,hpromise⟩
    · cases hrunning : s.running with
      | cons job running =>
        have hi : 0 < s.running.length := by simp [hrunning]
        obtain ⟨w,hw⟩ := h.returns _ (List.mem_append_right _ (List.getElem_mem hi))
        exact ⟨.finish 0,_,rfl,step_of_steps h.alive (.finish hi hw)⟩
      | nil =>
        cases hqueue : s.queue with
        | nil => simp [Sys.pending,hrunning,hqueue] at hpending
        | cons job queue =>
          have hfree : s.running.length < poolSize := by simp [hrunning,poolSize]
          exact ⟨.take,_,rfl,step_of_steps h.alive (.take hqueue hfree)⟩
    · exact ⟨.get,_,rfl,step_of_steps h.alive (.get hc hpromise)⟩

theorem work_proceed_lt {s : Sys E V} {c : Call E V} {p : Program E V} (hquiet : p.Quiet) :
    (s.proceed c p).work < 2*s.queue.length+s.running.length+3*p.length+1 := by
  cases p with
  | done r =>
    simp only [Sys.proceed,Sys.work,Program.length]
    omega
  | handOff fn rest =>
    cases fn with
    | error e => cases hquiet
    | ok v =>
      simp only [Sys.proceed,Sys.work,Program.length,List.length_append,List.length_singleton]
      omega

theorem work_lt {s t : Sys E V} {a : Action E V} (h : Inv s) (ha : a.answers = true)
    (hstep : step s a = some t) : t.work < s.work := by
  obtain ⟨-,hsteps⟩ := step_cases hstep
  cases hsteps with
  | call => cases ha
  | post => cases ha
  | @take job queue hqueue hfree =>
    simp only [Sys.work,hqueue,List.length_cons,List.length_append,List.length_nil]
    omega
  | @finish i hi v hfn =>
    simp only [Sys.work,List.length_eraseIdx_of_lt hi]
    omega
  | @terminate i hi e hfn =>
    obtain ⟨v,hv⟩ := h.returns _ (List.mem_append_right _ (List.getElem_mem hi))
    rw [hfn] at hv
    cases hv
  | @get c fn rest v hcaller hpromise =>
    obtain ⟨w,rfl,hquiet,-,-,hplace⟩ := h.waiting c fn rest hcaller
    rcases hplace with ⟨-,hnone⟩ | ⟨-,hsome⟩
    · rw [hpromise] at hnone
      cases hnone
    · obtain rfl : v = w := Option.some.inj (hpromise.symm.trans hsome)
      refine Nat.lt_of_lt_of_eq (work_proceed_lt hquiet) ?_
      simp only [Sys.work,hcaller]
      omega

theorem harmless_of_answers {a : Action E V} (h : a.answers = true) : Harmless a := by
  cases a with
  | call => cases h
  | post => cases h
  | _ => trivial

theorem ends_of_inv {s t : Sys E V} {as : List (Action E V)} (h : Inv s)
    (has : ∀ a ∈ as, a.answers = true) (hrun : Trace.run step s as = some t) :
    as.length ≤ s.work := by
  induction as generalizing s with
  | nil => exact Nat.zero_le _
  | cons a as ih =>
    obtain ⟨u,hstep,hrun⟩ := Trace.run_cons.mp hrun
    have ha := has a List.mem_cons_self
    have hrest := ih (step_inv h (harmless_of_answers ha) hstep)
      (fun b hb => has b (List.mem_cons_of_mem a hb)) hrun
    exact Nat.lt_of_le_of_lt hrest (work_lt h ha hstep)

theorem reaches_of_inv {s : Sys E V} (h : Inv s) : Reaches s :=
  ⟨h.alive,h.obtained,h.answered,goesOn_of_inv h,fun _ _ => ends_of_inv h⟩

theorem run_inv {s t : Sys E V} {as : List (Action E V)} (h : Inv s)
    (has : ∀ a ∈ as, Harmless a) (hrun : Trace.run step s as = some t) : Inv t := by
  refine Trace.run_keeps_of_meets (C := fun _ a => Harmless a) ?_ h
    (Trace.meets_of_forall (fun a ha _ => has a ha) s) hrun
  exact fun _ _ _ hs ha hstep => step_inv hs ha hstep

def resting (caller : Caller E V) (obtained : List (Except E V × V))
    (answers : List (Call E V × Answer E V)) : Sys E V :=
  ⟨[],[],none,caller,obtained,answers,false⟩

theorem answers_round_append {as : List (Action E V)} (has : ∀ a ∈ as, a.answers = true) :
    ∀ a ∈ [.take,.finish 0,.get]++as, a.answers = true := by
  intro a ha
  rcases List.mem_append.mp ha with ha | ha
  · simp only [List.mem_cons,List.not_mem_nil,or_false] at ha
    rcases ha with rfl | rfl | rfl <;> rfl
  · exact has a ha

theorem terminates {p : Program E V} (h : ¬ p.Quiet) (c : Call E V) (caller : Caller E V)
    (obtained : List (Except E V × V)) (answers : List (Call E V × Answer E V)) :
    ∃ as t, (∀ a ∈ as, a.answers = true) ∧
      Trace.run step ((resting caller obtained answers).proceed c p) as = some t ∧
      t.terminated = true := by
  induction p generalizing caller obtained with
  | done r => exact absurd trivial h
  | handOff fn rest ih =>
    cases fn with
    | error e => exact ⟨[.take,.finish 0],_,by simp [Action.answers],rfl,rfl⟩
    | ok v =>
      obtain ⟨as,t,has,hrun,hend⟩ :=
        ih v h (.waiting c (.ok v) rest) (obtained++[(.ok v,v)])
      refine ⟨[.take,.finish 0,.get]++as,t,?_,Trace.run_append.mpr ⟨_,rfl,hrun⟩,hend⟩
      exact answers_round_append has

theorem is_answered {p : Program E V} (h : p.Quiet) (c : Call E V) (caller : Caller E V)
    (obtained : List (Except E V × V)) (answers : List (Call E V × Answer E V)) :
    ∃ as t, (∀ a ∈ as, a.answers = true) ∧
      Trace.run step ((resting caller obtained answers).proceed c p) as = some t ∧
      (c,c.answer p.eval) ∈ t.answers := by
  induction p generalizing caller obtained with
  | done r => exact ⟨[],_,by simp,rfl,List.mem_append_right _ List.mem_cons_self⟩
  | handOff fn rest ih =>
    cases fn with
    | error e => cases h
    | ok v =>
      obtain ⟨as,t,has,hrun,hmem⟩ :=
        ih v h (.waiting c (.ok v) rest) (obtained++[(.ok v,v)])
      refine ⟨[.take,.finish 0,.get]++as,t,?_,Trace.run_append.mpr ⟨_,rfl,hrun⟩,hmem⟩
      exact answers_round_append has

/-- A call that is not harmless ends the process, or gets an answer that does not tell its
outcome. -/
theorem not_reaches_of_call {c : Call E V}
    (h : ¬ (c.program.Quiet ∧ c.program.eval.toOption = c.outcome)) :
    ∃ as t, (∀ a ∈ as, a.answers = true) ∧
      Trace.run step .init (.call c::as) = some t ∧ ¬ Reaches t := by
  by_cases hquiet : c.program.Quiet
  · obtain ⟨as,t,has,hrun,hmem⟩ := is_answered hquiet c .idle [] []
    refine ⟨as,t,has,Trace.run_cons.mpr ⟨_,rfl,hrun⟩,fun hreaches => h ⟨hquiet,?_⟩⟩
    have htold := (hreaches.answered _ hmem).outcome
    rwa [told_answer] at htold
  · obtain ⟨as,t,has,hrun,hend⟩ := terminates hquiet c .idle [] []
    refine ⟨as,t,has,Trace.run_cons.mpr ⟨_,rfl,hrun⟩,fun hreaches => ?_⟩
    rw [hreaches.alive] at hend
    cases hend

/-- In all runs of an environment everything reaches the caller, exactly if the environment
hands over only what returns, by programs that come to the outcomes of their calls. -/
theorem reaches_iff_harmless (C : Action E V → Prop) :
    (∀ as s, (∀ a ∈ as, a.answers = true ∨ C a) →
      Trace.run step (.init : Sys E V) as = some s → Reaches s) ↔
    ∀ a, a.answers = false → C a → Harmless a := by
  constructor
  · intro h a ha hC
    by_contra hharm
    cases a with
    | call c =>
      obtain ⟨as,t,has,hrun,hfails⟩ := not_reaches_of_call hharm
      refine hfails (h _ t (fun a ha => ?_) hrun)
      rcases List.mem_cons.mp ha with rfl | ha
      · exact .inr hC
      · exact .inl (has a ha)
    | post fn =>
      cases fn with
      | ok v => exact hharm ⟨v,rfl⟩
      | error e =>
        have halive := (h [.post (.error e),.take,.finish 0] _ (fun a ha => ?_) rfl).alive
        · cases halive
        · simp only [List.mem_cons,List.not_mem_nil,or_false] at ha
          rcases ha with rfl | rfl | rfl
          · exact .inr hC
          · exact .inl rfl
          · exact .inl rfl
    | _ => cases ha
  · intro h as s has hrun
    refine reaches_of_inv (run_inv init_inv (fun a ha => ?_) hrun)
    rcases has a ha with hanswers | hC
    · exact harmless_of_answers hanswers
    · cases hanswers : a.answers with
      | true => exact harmless_of_answers hanswers
      | false => exact h a hanswers hC

end HandOff
end AsioQuickjs
