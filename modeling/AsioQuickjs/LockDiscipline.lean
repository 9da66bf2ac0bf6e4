import AsioQuickjs.Trace
import Mathlib.Logic.Function.Basic

/-! The threads at `mu_` of the manager. A call waits for `mu_`, holds it for one critical
section and goes on without it; `create_host` of a taken id alone keeps it while it joins the
thread of the host it has made. Host threads are among the callers: callbacks may call
registered functions, and each job ends with `forget_task`. -/
namespace AsioQuickjs
namespace LockDiscipline

/-- A thread from outside, or the thread of a host. -/
inductive Thread (T H : Type*)
  | caller (t : T)
  | host (h : H)
  deriving DecidableEq

/-- What is done under `mu_`. `retract` is the second one of `submit`, behind a refused send. -/
inductive Critical (H I : Type*)
  | createHost (id : I) (h : H)
  | destroyHost (id : I)
  | submit (id : I)
  | retract (taskId : ℕ)
  | cancel (taskId : ℕ)
  | hasHost (id : I)
  | forgetTask (taskId : ℕ)

/-- Where a thread is in a function of the manager. -/
inductive Point (H I : Type*)
  | waiting (c : Critical H I)
  | holding (c : Critical H I)
  | joiningHeld (h : H)
  | closing (h : H)
  | draining (h : H)
  | joining (h : H)
  | sending (h : H) (taskId : ℕ)

variable {T H I : Type*}

def Point.waits : Point H I → Bool
  | .waiting _ => true
  | _ => false

def Point.owns : Point H I → Bool
  | .holding _ | .joiningHeld _ => true
  | _ => false

/-- The host whose thread is waited for, to end or to be done with its jobs. -/
def Point.awaits : Point H I → Option H
  | .joiningHeld h | .draining h | .joining h => some h
  | _ => none

/-- `setups` are the calls of `create_host` by a thread that are in their `opts.setup`, the
innermost first: it may call the manager itself. -/
structure Sys (T H I : Type*) where
  mu : Option (Thread T H) := none
  hosts : I → Option H := fun _ => none
  cancels : ℕ → Bool := fun _ => false
  flags : ℕ → Bool := fun _ => false
  nextTaskId : ℕ := 1
  closed : H → Bool := fun _ => false
  made : H → Bool := fun _ => false
  started : H → Bool := fun _ => false
  ended : H → Bool := fun _ => false
  setups : T → List (I×H) := fun _ => []
  point : Thread T H → Option (Point H I) := fun _ => none

inductive Action (T H I : Type*)
  | create (t : T) (id : I) (h : H)
  | setupReturns (t : T)
  | setupThrows (t : T)
  | call (t : Thread T H) (c : Critical H I)
  | lock (t : Thread T H)
  | act (t : Thread T H)
  | close (t : Thread T H)
  | drained (t : Thread T H)
  | send (t : Thread T H) (accepted : Bool)
  | joined (t : Thread T H)
  | finish (h : H)

def Sys.mayCall (s : Sys T H I) : Thread T H → Critical H I → Bool
  | .caller _, .destroyHost _ | .caller _, .submit _ | .caller _, .cancel _
  | .caller _, .hasHost _ => true
  | .host h, .submit _ | .host h, .cancel _ | .host h, .hasHost _ | .host h, .forgetTask _ =>
    s.started h && !s.ended h
  | _, _ => false

section

variable [DecidableEq T] [DecidableEq H]

def Sys.goto (s : Sys T H I) (t : Thread T H) (p : Option (Point H I)) : Sys T H I :=
  { s with point := Function.update s.point t p }

variable [DecidableEq I]

/-- The critical sections. All but one give `mu_` back. -/
def Sys.body (s : Sys T H I) (t : Thread T H) : Critical H I → Sys T H I
  | .createHost id h =>
    if (s.hosts id).isSome then
      { s with closed := Function.update s.closed h true }.goto t (some (.joiningHeld h))
    else { s with mu := none, hosts := Function.update s.hosts id (some h) }.goto t none
  | .destroyHost id =>
    match s.hosts id with
    | some h =>
      { s with mu := none, hosts := Function.update s.hosts id none }.goto t (some (.closing h))
    | none => { s with mu := none }.goto t none
  | .submit id =>
    match s.hosts id with
    | some h =>
      { s with
        mu := none
        nextTaskId := s.nextTaskId+1
        cancels := Function.update s.cancels s.nextTaskId true
        flags := Function.update s.flags s.nextTaskId false }.goto t
          (some (.sending h s.nextTaskId))
    | none => { s with mu := none }.goto t none
  | .retract j | .forgetTask j =>
    { s with mu := none, cancels := Function.update s.cancels j false }.goto t none
  | .cancel j =>
    { s with
      mu := none
      flags := if s.cancels j then Function.update s.flags j true else s.flags }.goto t none
  | .hasHost _ => { s with mu := none }.goto t none

def step (s : Sys T H I) : Action T H I → Option (Sys T H I)
  | .create t id h =>
    if s.point (.caller t) = none ∧ s.made h = false then
      some { s with
        made := Function.update s.made h true
        setups := Function.update s.setups t ((id,h)::s.setups t) }
    else none
  | .setupReturns t =>
    match s.point (.caller t), s.setups t with
    | none, (id,h)::rest =>
      some ({ s with
        started := Function.update s.started h true
        setups := Function.update s.setups t rest }.goto (.caller t)
          (some (.waiting (.createHost id h))))
    | _, _ => none
  | .setupThrows t =>
    match s.point (.caller t), s.setups t with
    | none, _::rest => some { s with setups := Function.update s.setups t rest }
    | _, _ => none
  | .call t c =>
    if s.point t = none ∧ s.mayCall t c then some (s.goto t (some (.waiting c))) else none
  | .lock t =>
    match s.point t, s.mu with
    | some (.waiting c), none => some ({ s with mu := some t }.goto t (some (.holding c)))
    | _, _ => none
  | .act t =>
    match s.point t with
    | some (.holding c) => some (s.body t c)
    | _ => none
  | .close t =>
    match s.point t with
    | some (.closing h) =>
      some ({ s with closed := Function.update s.closed h true }.goto t (some (.draining h)))
    | _ => none
  | .drained t =>
    match s.point t with
    | some (.draining h) => some (s.goto t (some (.joining h)))
    | _ => none
  | .send t accepted =>
    match s.point t with
    | some (.sending h j) =>
      if accepted then if s.closed h then none else some (s.goto t none)
      else some (s.goto t (some (.waiting (.retract j))))
    | _ => none
  | .joined t =>
    match s.point t with
    | some (.joining h) => if s.ended h then some (s.goto t none) else none
    | some (.joiningHeld h) => if s.ended h then some ({ s with mu := none }.goto t none) else none
    | _ => none
  | .finish h =>
    if s.started h ∧ s.ended h = false ∧ s.point (.host h) = none then
      some { s with ended := Function.update s.ended h true }
    else none

end

def Sys.waits (s : Sys T H I) (t : Thread T H) : Bool := (s.point t).any Point.waits

def Sys.owns (s : Sys T H I) (t : Thread T H) : Bool := (s.point t).any Point.owns

/-- Nobody who holds `mu_` waits for a host thread that itself waits for `mu_`. -/
def Disciplined (s : Sys T H I) : Prop :=
  ∀ t h, s.mu = some t → (s.point t).bind Point.awaits = some h → s.waits (.host h) = false

/-- The host whose thread is joined under `mu_`. -/
def Sys.joinedHeld (s : Sys T H I) : Option H :=
  match s.mu.bind s.point with
  | some (.joiningHeld h) => some h
  | _ => none

/-- A `create_host` that finds its id taken finds the thread of its own host away from `mu_`,
and while it joins that thread, the thread does not come to `mu_`. -/
def Apart (s : Sys T H I) : Action T H I → Prop
  | .act t =>
    match s.point t with
    | some (.holding (.createHost id h)) => (s.hosts id).isSome → s.waits (.host h) = false
    | _ => True
  | .call (.host h) _ => s.joinedHeld ≠ some h
  | .send (.host h) false => s.joinedHeld ≠ some h
  | _ => True

/-- `create_host` finds its id free. -/
def FreeId (s : Sys T H I) : Action T H I → Prop
  | .act t =>
    match s.point t with
    | some (.holding (.createHost id _)) => s.hosts id = none
    | _ => True
  | _ => True

theorem FreeId.apart {s : Sys T H I} {a : Action T H I} (h : FreeId s a)
    (hj : ∀ g, s.joinedHeld ≠ some g) : Apart s a := by
  cases a with
  | act t =>
    simp only [FreeId] at h
    simp only [Apart]
    split
    · next id g hp =>
      simp only [hp] at h
      simp [h]
    · trivial
  | call t c =>
    cases t with
    | host g => exact hj g
    | caller t => trivial
  | send t accepted =>
    cases t with
    | host g =>
      cases accepted with
      | false => exact hj g
      | true => trivial
    | caller t => trivial
  | create t id h | setupReturns t | setupThrows t | lock t | close t | drained t | joined t
  | finish h => trivial

theorem Sys.joinedHeld_eq_some {s : Sys T H I} {h : H} :
    s.joinedHeld = some h ↔ ∃ t, s.mu = some t ∧ s.point t = some (.joiningHeld h) := by
  rw [joinedHeld]
  constructor
  · intro hj
    split at hj
    · next g hg =>
      cases hj
      exact Option.bind_eq_some_iff.mp hg
    · simp at hj
  · rintro ⟨t,ht,hp⟩
    simp [ht,hp]

theorem Point.joiningHeld_of {p : Point H I} {h : H} (howns : p.owns = true)
    (hawaits : p.awaits = some h) : p = .joiningHeld h := by
  cases p <;> simp_all [owns,awaits]

theorem Sys.joiningHeld_of {s : Sys T H I} {t : Thread T H} {h : H} (howns : s.owns t = true)
    (hawaits : (s.point t).bind Point.awaits = some h) : s.point t = some (.joiningHeld h) := by
  obtain ⟨p,hp,hpa⟩ := Option.bind_eq_some_iff.mp hawaits
  rw [owns,hp] at howns
  rw [hp,Point.joiningHeld_of howns hpa]

/-- `mu_` is held by the thread that is in a critical section or in the join of one. -/
def Exclusive (s : Sys T H I) : Prop := ∀ t, s.mu = some t ↔ s.owns t = true

structure Inv (s : Sys T H I) : Prop where
  exclusive : Exclusive s
  disciplined : Disciplined s

theorem inv_init : Inv ({} : Sys T H I) where
  exclusive t := by simp [Sys.owns]
  disciplined t h ht := by simp at ht

/-- The thread that holds `mu_` joins one that waits for `mu_`. -/
structure Jammed (s : Sys T H I) (t : Thread T H) (g : H) : Prop where
  held : s.mu = some t
  joins : s.point t = some (.joiningHeld g)
  waits : s.waits (.host g) = true

theorem Jammed.not_disciplined {s : Sys T H I} {t : Thread T H} {g : H} (h : Jammed s t g) :
    ¬ Disciplined s := by
  intro hd
  have hw := hd t g h.held (by rw [h.joins]; rfl)
  simp [h.waits] at hw

/-- The thread of a host that has ended is in no call. -/
def Quiet (s : Sys T H I) : Prop := ∀ g, s.ended g = true → s.point (.host g) = none

theorem finish_quiet [DecidableEq H] {s : Sys T H I} {g : H} (hq : Quiet s)
    (hg : s.point (.host g) = none) :
    Quiet { s with ended := Function.update s.ended g true } := by
  intro k hk
  by_cases hkg : k = g
  · rw [hkg]
    exact hg
  · exact hq k (by simpa [Function.update_of_ne hkg] using hk)

/-- By this action `t` alone moves. It stays off the lock, takes it, keeps it for a join, or
gives it back; a host thread comes to wait for it by a call, or by a send that was refused. -/
structure Moves (s u : Sys T H I) (a : Action T H I) (t : Thread T H) : Prop where
  others : ∀ v, v ≠ t → u.point v = s.point v
  lock : (u.mu = s.mu ∧ s.owns t = false ∧ u.owns t = false) ∨
    (s.mu = none ∧ u.mu = some t ∧ (u.point t).bind Point.awaits = none ∧ u.owns t = true) ∨
    (a = .act t ∧ u.mu = s.mu ∧ ∃ id h, s.point t = some (.holding (.createHost id h)) ∧
      (s.hosts id).isSome ∧ u.point t = some (.joiningHeld h)) ∨
    (s.owns t = true ∧ u.mu = none ∧ u.owns t = false)
  comes : u.waits t = true → s.waits t = true ∨ (∃ c, a = .call t c) ∨ a = .send t false ∨
    ∃ k, t = .caller k

theorem stay_moves {s u : Sys T H I} {a : Action T H I} {t : Thread T H}
    (hpoint : u.point = s.point) (hmu : u.mu = s.mu) (hs : s.owns t = false) : Moves s u a t where
  others v _ := by rw [hpoint]
  lock := .inl ⟨hmu,hs,by rwa [Sys.owns,hpoint]⟩
  comes hw := .inl (by rwa [Sys.waits,hpoint] at hw)

section

variable [DecidableEq T] [DecidableEq H]

@[simp] theorem goto_mu (s : Sys T H I) (t : Thread T H) (p : Option (Point H I)) :
    (s.goto t p).mu = s.mu := rfl

@[simp] theorem goto_ended (s : Sys T H I) (t : Thread T H) (p : Option (Point H I)) :
    (s.goto t p).ended = s.ended := rfl

@[simp] theorem goto_point (s : Sys T H I) (t : Thread T H) (p : Option (Point H I)) :
    (s.goto t p).point t = p := by simp [Sys.goto]

theorem goto_point_of_ne (s : Sys T H I) {t v : Thread T H} (p : Option (Point H I))
    (hv : v ≠ t) : (s.goto t p).point v = s.point v := by simp [Sys.goto,hv]

theorem goto_moves {s r : Sys T H I} {a : Action T H I} {t : Thread T H} {p : Option (Point H I)}
    (hpoint : r.point = s.point) (hmu : r.mu = s.mu) (hs : s.owns t = false)
    (hp : p.any Point.owns = false) (hcomes : p.any Point.waits = true →
      (∃ c, a = .call t c) ∨ a = .send t false ∨ ∃ k, t = .caller k) :
    Moves s (r.goto t p) a t where
  others v hv := by rw [goto_point_of_ne _ _ hv,hpoint]
  lock := .inl ⟨hmu,hs,by rw [Sys.owns,goto_point,hp]⟩
  comes hw := .inr (hcomes (by rwa [Sys.waits,goto_point] at hw))

theorem lock_moves {s r : Sys T H I} {a : Action T H I} {t : Thread T H} {p : Option (Point H I)}
    (hpoint : r.point = s.point) (hp : p.any Point.waits = false)
    (hlock : (s.mu = none ∧ r.mu = some t ∧ p.bind Point.awaits = none ∧
        p.any Point.owns = true) ∨
      (s.owns t = true ∧ r.mu = none ∧ p.any Point.owns = false)) : Moves s (r.goto t p) a t where
  others v hv := by rw [goto_point_of_ne _ _ hv,hpoint]
  lock := by
    have howns : (r.goto t p).owns t = p.any Point.owns := by rw [Sys.owns,goto_point]
    rw [howns,goto_point,goto_mu]
    rcases hlock with htaken | hback
    · exact .inr (.inl htaken)
    · exact .inr (.inr (.inr hback))
  comes hw := by
    rw [Sys.waits,goto_point,hp] at hw
    cases hw

theorem goto_waits (s : Sys T H I) (t : Thread T H) (p : Option (Point H I)) (v : Thread T H) :
    (s.goto t p).waits v = if v = t then p.any Point.waits else s.waits v := by
  by_cases hv : v = t
  · subst hv
    simp [Sys.waits]
  · simp [Sys.waits,goto_point_of_ne _ _ hv,hv]

theorem goto_quiet {s r : Sys T H I} {t : Thread T H} {p : Option (Point H I)} (hq : Quiet s)
    (hended : r.ended = s.ended) (hpoint : r.point = s.point) (ht : s.point t ≠ none) :
    Quiet (r.goto t p) := by
  intro g hg
  rw [goto_ended,hended] at hg
  have hne : .host g ≠ t := by
    rintro rfl
    exact ht (hq g hg)
  rw [goto_point_of_ne _ _ hne,hpoint,hq g hg]

theorem call_quiet {s : Sys T H I} {t : Thread T H} {c : Critical H I} (hq : Quiet s)
    (hc : s.mayCall t c = true) : Quiet (s.goto t (some (.waiting c))) := by
  intro g hg
  have hne : .host g ≠ t := by
    rintro rfl
    have hg' : s.ended g = true := hg
    cases c <;> simp [Sys.mayCall,hg'] at hc
  rw [goto_point_of_ne _ _ hne,hq g hg]

theorem not_disciplined_goto {s : Sys T H I} {g : H} (hj : s.joinedHeld = some g)
    (c : Critical H I) (hpoint : s.owns (.host g) = false) :
    ¬ Disciplined (s.goto (.host g) (some (.waiting c))) := by
  obtain ⟨t,hmu,hp⟩ := Sys.joinedHeld_eq_some.mp hj
  have ht : t ≠ .host g := by
    rintro rfl
    simp [Sys.owns,hp,Point.owns] at hpoint
  refine Jammed.not_disciplined ⟨hmu,(goto_point_of_ne _ _ ht).trans hp,?_⟩
  rw [goto_waits,if_pos rfl]
  rfl

variable [DecidableEq I]

theorem body_moves (s : Sys T H I) {t : Thread T H} {c : Critical H I}
    (ht : s.point t = some (.holding c)) : Moves s (s.body t c) (.act t) t := by
  have howns : s.owns t = true := by rw [Sys.owns,ht]; rfl
  cases c with
  | createHost id h =>
    rw [Sys.body]
    split
    · next hid =>
      refine ⟨fun v hv => goto_point_of_ne _ _ hv,
        .inr (.inr (.inl ⟨rfl,rfl,id,h,ht,hid,goto_point ..⟩)),fun hw => ?_⟩
      rw [Sys.waits,goto_point] at hw
      cases hw
    · exact lock_moves rfl rfl (.inr ⟨howns,rfl,rfl⟩)
  | destroyHost id | submit id =>
    rw [Sys.body]
    split <;> exact lock_moves rfl rfl (.inr ⟨howns,rfl,rfl⟩)
  | retract j | forgetTask j | cancel j | hasHost id =>
    exact lock_moves rfl rfl (.inr ⟨howns,rfl,rfl⟩)

theorem step_moves {s u : Sys T H I} {a : Action T H I} (h : step s a = some u) :
    ∃ t, Moves s u a t := by
  cases a with
  | create t id g =>
    obtain ⟨hidle,hu⟩ := Option.ite_none_right_eq_some.mp h
    cases hu
    exact ⟨.caller t,stay_moves rfl rfl (by rw [Sys.owns,hidle.1]; rfl)⟩
  | setupReturns t =>
    simp only [step] at h
    split at h
    · next hp _ =>
      cases h
      exact ⟨_,goto_moves rfl rfl (by rw [Sys.owns,hp]; rfl) rfl fun _ => .inr (.inr ⟨t,rfl⟩)⟩
    · cases h
  | setupThrows t =>
    simp only [step] at h
    split at h
    · next hp _ =>
      cases h
      exact ⟨.caller t,stay_moves rfl rfl (by rw [Sys.owns,hp]; rfl)⟩
    · cases h
  | call t c =>
    obtain ⟨hidle,hu⟩ := Option.ite_none_right_eq_some.mp h
    cases hu
    exact ⟨t,goto_moves rfl rfl (by rw [Sys.owns,hidle.1]; rfl) rfl fun _ => .inl ⟨c,rfl⟩⟩
  | lock t =>
    simp only [step] at h
    split at h
    · next hp hmu =>
      cases h
      exact ⟨t,lock_moves rfl rfl (.inl ⟨hmu,rfl,rfl,rfl⟩)⟩
    · cases h
  | act t =>
    simp only [step] at h
    split at h
    · next hp =>
      cases h
      exact ⟨t,body_moves s hp⟩
    · cases h
  | close t | drained t =>
    simp only [step] at h
    split at h
    · next hp =>
      cases h
      exact ⟨t,goto_moves rfl rfl (by rw [Sys.owns,hp]; rfl) rfl (by simp [Point.waits])⟩
    · cases h
  | send t accepted =>
    simp only [step] at h
    split at h
    · next hp =>
      have howns : s.owns t = false := by rw [Sys.owns,hp]; rfl
      cases accepted with
      | true =>
        obtain ⟨-,hu⟩ := Option.ite_none_left_eq_some.mp h
        cases hu
        exact ⟨t,goto_moves rfl rfl howns rfl (by simp)⟩
      | false =>
        cases h
        exact ⟨t,goto_moves rfl rfl howns rfl fun _ => .inr (.inl rfl)⟩
    · cases h
  | joined t =>
    simp only [step] at h
    split at h
    · next hp =>
      obtain ⟨-,hu⟩ := Option.ite_none_right_eq_some.mp h
      cases hu
      exact ⟨t,goto_moves rfl rfl (by rw [Sys.owns,hp]; rfl) rfl (by simp)⟩
    · next hp =>
      obtain ⟨-,hu⟩ := Option.ite_none_right_eq_some.mp h
      cases hu
      exact ⟨t,lock_moves rfl rfl (.inr ⟨by rw [Sys.owns,hp]; rfl,rfl,rfl⟩)⟩
    · cases h
  | finish g =>
    obtain ⟨hg,hu⟩ := Option.ite_none_right_eq_some.mp h
    cases hu
    exact ⟨.host g,stay_moves rfl rfl (by rw [Sys.owns,hg.2.2]; rfl)⟩

theorem exclusive_step {s u : Sys T H I} {a : Action T H I} (hi : Exclusive s)
    (h : step s a = some u) : Exclusive u := by
  obtain ⟨t,hothers,hlock,-⟩ := step_moves h
  have howns : ∀ v, v ≠ t → u.owns v = s.owns v := fun v hv => by
    rw [Sys.owns,hothers v hv,Sys.owns]
  intro v
  by_cases hv : v = t
  · subst hv
    rcases hlock with ⟨hmu,hs,hu⟩ | ⟨-,hmu,-,hu⟩ | ⟨-,hmu,id,g,hp,-,hu⟩ | ⟨-,hmu,hu⟩
    · rw [hmu,hi v,hs,hu]
    · simp [hmu,hu]
    · rw [hmu,hi v,Sys.owns,hp,Sys.owns,hu]
      rfl
    · simp [hmu,hu]
  · rw [howns v hv,← hi v]
    rcases hlock with ⟨hmu,-,-⟩ | ⟨hfree,hmu,-,-⟩ | ⟨-,hmu,-⟩ | ⟨hs,hmu,-⟩
    · rw [hmu]
    · simp [hfree,hmu,Ne.symm hv]
    · rw [hmu]
    · simp [hmu,(hi t).mpr hs,Ne.symm hv]

/-- A host thread that waits for `mu_` behind the step waited before it, or the step is one
that must not be taken while the thread is joined under the lock. -/
theorem waits_of_apart {s u : Sys T H I} {a : Action T H I} (hC : Apart s a)
    (h : step s a = some u) {g : H} (hu : u.waits (.host g) = true) :
    s.waits (.host g) = true ∨ s.joinedHeld ≠ some g ∧ ∀ t, a ≠ .act t := by
  obtain ⟨t,hothers,-,hcomes⟩ := step_moves h
  by_cases ht : .host g = t
  · subst ht
    rcases hcomes hu with hs | ⟨c,rfl⟩ | rfl | ⟨k,hk⟩
    · exact .inl hs
    · exact .inr ⟨hC,by simp⟩
    · exact .inr ⟨hC,by simp⟩
    · cases hk
  · rw [Sys.waits,hothers _ ht] at hu
    exact .inl hu

theorem inv_step (s : Sys T H I) (a : Action T H I) (u : Sys T H I) (hi : Inv s) (hC : Apart s a)
    (h : step s a = some u) : Inv u := by
  have hexclusive := exclusive_step hi.exclusive h
  refine ⟨hexclusive,fun v g hmu hawaits => Bool.eq_false_iff.mpr fun hu => ?_⟩
  have howns := (hexclusive v).mp hmu
  obtain ⟨t,hothers,hlock,-⟩ := step_moves h
  by_cases hv : v = t
  · subst hv
    rcases hlock with ⟨-,-,hoff⟩ | ⟨-,-,hoff,-⟩ | ⟨rfl,-,id,k,hp,hid,hu'⟩ | ⟨-,hoff,-⟩
    · simp [hoff] at howns
    · simp [hoff] at hawaits
    · -- the join begins: the condition is on the host it is for
      obtain rfl : k = g := by simpa [hu',Point.awaits] using hawaits
      have hs : s.waits (.host k) = false := by simpa [Apart,hp,hid] using hC
      rcases waits_of_apart hC h hu with hw | ⟨-,hact⟩
      · simp [hs] at hw
      · exact hact v rfl
    · simp [hoff] at hmu
  · have hp : s.point v = u.point v := (hothers v hv).symm
    have hs : s.mu = some v := (hi.exclusive v).mpr (by rw [Sys.owns,hp]; exact howns)
    rcases waits_of_apart hC h hu with hw | ⟨hj,-⟩
    · have := hi.disciplined v g hs (by rw [hp]; exact hawaits)
      simp [hw] at this
    · exact hj (Sys.joinedHeld_eq_some.mpr ⟨v,hs,by rw [hp,Sys.joiningHeld_of howns hawaits]⟩)

theorem not_disciplined_step (s : Sys T H I) (a : Action T H I) (u : Sys T H I) (hi : Inv s)
    (hC : ¬ Apart s a) (h : step s a = some u) : ¬ Disciplined u := by
  cases a with
  | act t =>
    simp only [step] at h
    split at h
    · next c hp =>
      cases h
      have hown : s.mu = some t := (hi.exclusive t).mpr (by rw [Sys.owns,hp]; rfl)
      cases c with
      | createHost id g =>
        obtain ⟨hid,hw⟩ : (s.hosts id).isSome = true ∧ s.waits (.host g) = true := by
          simpa [Apart,hp] using hC
        have ht : .host g ≠ t := by
          rintro rfl
          simp [Sys.waits,hp,Point.waits] at hw
        rw [Sys.body,if_pos hid]
        refine Jammed.not_disciplined (g := g) ⟨hown,goto_point ..,?_⟩
        rw [goto_waits,if_neg ht]
        exact hw
      | _ => simp [Apart,hp] at hC
    · cases h
  | call t c =>
    obtain ⟨⟨hidle,-⟩,hu⟩ := Option.ite_none_right_eq_some.mp h
    cases hu
    cases t with
    | host g => exact not_disciplined_goto (not_not.mp hC) c (by rw [Sys.owns,hidle]; rfl)
    | caller t => exact absurd trivial hC
  | send t accepted =>
    cases t with
    | host g =>
      cases accepted with
      | false =>
        simp only [step] at h
        split at h
        · next hp =>
          cases h
          exact not_disciplined_goto (not_not.mp hC) _ (by rw [Sys.owns,hp]; rfl)
        · cases h
      | true => exact absurd trivial hC
    | caller t => exact absurd trivial hC
  | create t id h | setupReturns t | setupThrows t | lock t | close t | drained t | joined t
  | finish h => exact absurd trivial hC

/-- Along a run nobody who holds `mu_` waits for a host thread that waits for `mu_`, exactly
if the thread that `create_host` of a taken id joins keeps away from `mu_`. -/
theorem disciplined_iff_apart {as : List (Action T H I)} {s : Sys T H I}
    (hrun : Trace.run step {} as = some s) :
    (∀ bs u, bs <+: as → Trace.run step {} bs = some u → Disciplined u) ↔
      Trace.Meets step Apart {} as :=
  Trace.always_iff_meets inv_step (fun _ hi => hi.disciplined) not_disciplined_step inv_init hrun

theorem joinedHeld_step {s u : Sys T H I} {a : Action T H I} (hi : Exclusive s)
    (hfree : FreeId s a) (hj : ∀ g, s.joinedHeld ≠ some g) (h : step s a = some u) (g : H) :
    u.joinedHeld ≠ some g := by
  intro hu
  obtain ⟨v,hmu,hp⟩ := Sys.joinedHeld_eq_some.mp hu
  have howns : u.owns v = true := by rw [Sys.owns,hp]; rfl
  obtain ⟨t,hothers,hlock,-⟩ := step_moves h
  by_cases hv : v = t
  · subst hv
    rcases hlock with ⟨-,-,hoff⟩ | ⟨-,-,hoff,-⟩ | ⟨rfl,-,id,k,hps,hid,-⟩ | ⟨-,hoff,-⟩
    · simp [hoff] at howns
    · simp [hp,Point.awaits] at hoff
    · simp [show s.hosts id = none by simpa [FreeId,hps] using hfree] at hid
    · simp [hoff] at hmu
  · have hps : s.point v = some (.joiningHeld g) := (hothers v hv).symm.trans hp
    have hs : s.mu = some v := (hi v).mpr (by rw [Sys.owns,hps]; rfl)
    exact hj g (Sys.joinedHeld_eq_some.mpr ⟨v,hs,hps⟩)

theorem disciplined_of_freeId {as : List (Action T H I)} {s : Sys T H I}
    (hrun : Trace.run step {} as = some s) (hfree : Trace.Meets step FreeId {} as) :
    Disciplined s :=
  (Trace.run_keeps_of_meets (I := fun s : Sys T H I => Inv s ∧ ∀ g, s.joinedHeld ≠ some g)
    (fun s a u hi hf h => ⟨inv_step s a u hi.1 (hf.apart hi.2) h,
      joinedHeld_step hi.1.exclusive hf hi.2 h⟩)
    ⟨inv_init,fun g hg => by simp [Sys.joinedHeld] at hg⟩ hfree hrun).1.disciplined

theorem body_ended (s : Sys T H I) (t : Thread T H) (c : Critical H I) :
    (s.body t c).ended = s.ended := by
  fun_cases Sys.body s t c <;> rfl

theorem body_quiet {s : Sys T H I} {t : Thread T H} {c : Critical H I} (hq : Quiet s)
    (ht : s.point t = some (.holding c)) : Quiet (s.body t c) := by
  intro g hg
  rw [body_ended] at hg
  have hne : .host g ≠ t := by
    rintro rfl
    simp [hq g hg] at ht
  rw [(body_moves s ht).others _ hne,hq g hg]

theorem quiet_step {s u : Sys T H I} {a : Action T H I} (hq : Quiet s)
    (h : step s a = some u) : Quiet u := by
  revert h
  fun_cases step s a <;> rintro ⟨⟩ <;>
    first
    | exact hq
    | exact body_quiet hq ‹_›
    | (next hc => exact call_quiet hq hc.2)
    | (next hg => exact finish_quiet hq hg.2.2)
    | (refine goto_quiet hq rfl rfl ?_; simp [*])

/-- Held by a join, or before a lock that is taken. -/
def Blocked (s : Sys T H I) (v : Thread T H) : Prop :=
  (∃ c, s.point v = some (.waiting c) ∧ s.mu ≠ none) ∨
    ∃ g, s.point v = some (.joiningHeld g) ∧ s.ended g = false

theorem blocked_stays {s u : Sys T H I} {a : Action T H I} {v : Thread T H} (hv : Blocked s v)
    (h : step s a = some u) : u.point v = s.point v := by
  revert h
  fun_cases step s a <;> rintro ⟨⟩ <;>
    first
    | rfl
    | (refine goto_point_of_ne _ _ ?_; rintro rfl; simp_all [Blocked])
    | (refine (body_moves s ‹_›).others _ ?_; rintro rfl; simp_all [Blocked])

theorem jammed_step {s u : Sys T H I} {a : Action T H I} {t : Thread T H} {g : H}
    (hi : Exclusive s) (hq : Quiet s) (hj : Jammed s t g) (h : step s a = some u) :
    Jammed u t g := by
  obtain ⟨c,hc⟩ : ∃ c, s.point (.host g) = some (.waiting c) := by
    have hw := hj.waits
    rw [Sys.waits] at hw
    cases hp : s.point (.host g) with
    | none => simp [hp] at hw
    | some p => cases p <;> simp_all [Point.waits]
  have hrunning : s.ended g = false := Bool.eq_false_iff.mpr fun he => by simp [hq g he] at hc
  have hjoins := blocked_stays (.inr ⟨g,hj.joins,hrunning⟩) h
  have hwaits := blocked_stays (.inl ⟨c,hc,by simp [hj.held]⟩) h
  have hp : u.point t = some (.joiningHeld g) := hjoins.trans hj.joins
  refine ⟨(exclusive_step hi h t).mpr (by rw [Sys.owns,hp]; rfl),hp,?_⟩
  rw [Sys.waits,hwaits]
  exact hj.waits

theorem jammed_run {as bs : List (Action T H I)} {s u : Sys T H I} {t : Thread T H} {g : H}
    (hs : Trace.run step {} as = some s) (hj : Jammed s t g)
    (hu : Trace.run step s bs = some u) : Jammed u t g := by
  have hi : Exclusive s ∧ Quiet s :=
    Trace.run_keeps (I := fun s : Sys T H I => Exclusive s ∧ Quiet s)
      (fun _ _ _ hi h => ⟨exclusive_step hi.1 h,quiet_step hi.2 h⟩)
      ⟨inv_init.exclusive,fun g hg => by simp at hg⟩ hs
  exact (Trace.run_keeps (I := fun s => (Exclusive s ∧ Quiet s) ∧ Jammed s t g)
    (fun _ _ _ hi h => ⟨⟨exclusive_step hi.1.1 h,quiet_step hi.1.2 h⟩,
      jammed_step hi.1.1 hi.1.2 hi.2 h⟩) ⟨hi,hj⟩ hu).2

end

/-- Two hosts under one id; a callback of the second asks `has_host`, just when `create_host`
has taken the lock for it. -/
def takenRun : List (Action Unit Bool String) :=
  [.create () "a" false,.setupReturns (),.lock (.caller ()),.act (.caller ()),
    .create () "a" true,.setupReturns (),.lock (.caller ()),
    .call (.host true) (.hasHost "a"),.act (.caller ())]

theorem disciplined_iff_apart_taken :
    ∃ s, Trace.run step {} takenRun = some s ∧
      ((∀ bs u, bs <+: takenRun → Trace.run step {} bs = some u → Disciplined u) ↔
        Trace.Meets step Apart {} takenRun) := by
  have hrun : (Trace.run step {} takenRun).isSome = true := by decide +kernel
  obtain ⟨s,hs⟩ := Option.isSome_iff_exists.mp hrun
  exact ⟨s,hs,disciplined_iff_apart hs⟩

theorem not_disciplined_taken :
    ∃ s, Trace.run step {} takenRun = some s ∧ ¬ Disciplined s := by
  have hrun : (Trace.run step {} takenRun).any (fun s =>
      s.joinedHeld == some true && s.waits (.host true)) = true := by decide +kernel
  obtain ⟨s,hs,hjam⟩ := (Option.any_eq_true ..).mp hrun
  simp only [Bool.and_eq_true,beq_iff_eq] at hjam
  obtain ⟨t,hmu,hp⟩ := Sys.joinedHeld_eq_some.mp hjam.1
  exact ⟨s,hs,Jammed.not_disciplined ⟨hmu,hp,hjam.2⟩⟩

end LockDiscipline
end AsioQuickjs
