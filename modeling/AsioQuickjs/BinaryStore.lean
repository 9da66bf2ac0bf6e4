import AsioQuickjs.Trace
import Mathlib.Algebra.Ring.Int.Defs
import Mathlib.Algebra.Group.Nat.Defs
import Mathlib.Data.List.Induction
import Mathlib.Logic.Function.Basic

/-! The process-wide blob store of binary_store.cpp. An operation reads the clock and only
then takes the lock, so any number of critical sections of other threads stand between
the two; what became of a blob is read off the log of the critical sections. -/
namespace AsioQuickjs
namespace BinaryStore

structure Entry where
  data : List UInt8
  lastUsed : ℤ
  deriving DecidableEq

/-- A ttl in milliseconds as nanoseconds, both an `int64_t`. Where the product does not fit
it is undefined; it is taken to wrap around. -/
def nanoseconds (ttl : ℤ) : ℤ := Int.bmod (ttl*1000000) (2^64)

/-- `now - last_used >= ttl`; the clock counts nanoseconds, so the ttl is converted. -/
def Entry.expired (e : Entry) (now ttl : ℤ) : Bool := nanoseconds ttl ≤ now-e.lastUsed

structure Store where
  map : String → Option Entry := fun _ => none
  ttl : ℤ := 15*60*1000

def gcLocked (s : Store) (now : ℤ) : Store :=
  {s with map := fun id => (s.map id).filter fun e => !e.expired now s.ttl}

/-- The critical section of `put`; `emplace` leaves an entry under the key alone. -/
def putLocked (s : Store) (now : ℤ) (id : String) (data : List UInt8) : Store :=
  let s := gcLocked s now
  match s.map id with
  | none => {s with map := Function.update s.map id (some ⟨data,now⟩)}
  | some _ => s

/-- The critical section of `take`. -/
def takeLocked (s : Store) (now : ℤ) (id : String) : Store × Option (List UInt8) :=
  let s := gcLocked s now
  match s.map id with
  | none => (s,none)
  | some e => ({s with map := Function.update s.map id none},some e.data)

def clear (s : Store) : Store := {s with map := fun _ => none}

def setTtl (s : Store) (ttl : ℤ) : Store := {s with ttl := ttl}

/-- The operations that read the clock before they lock; `put` has made its id by then. -/
inductive Call
  | put (id : String) (data : List UInt8)
  | take (id : String)
  | gc

/-- The store, the clock, the calls that have read it and wait for the lock, and the ids
`make_id` has given out. -/
structure System where
  store : Store := {}
  clock : ℤ := 0
  calls : ℕ → Option (Call × ℤ) := fun _ => none
  issued : List String := []

inductive Action
  | tick (d : ℕ)
  | call (thread : ℕ) (c : Call)
  | enter (thread : ℕ)
  | clear
  | setTtl (ttl : ℤ)

def Call.issues : Call → List String
  | .put id _ => [id]
  | _ => []

def Call.locked (s : Store) (now : ℤ) : Call → Store
  | .put id data => putLocked s now id data
  | .take id => (takeLocked s now id).1
  | .gc => gcLocked s now

/-- A call begins by reading the clock, `put` with an id nobody has had; later its thread
gets the lock and runs the critical section at one go. The clock is an `int64_t`. -/
def step (s : System) : Action → Option System
  | .tick d => if s.clock+d < 2^63 then some {s with clock := s.clock+d} else none
  | .call t c =>
    if s.calls t = none ∧ ∀ id ∈ c.issues, id ∉ s.issued then
      some {s with calls := Function.update s.calls t (some (c,s.clock)),
                   issued := c.issues++s.issued}
    else none
  | .enter t =>
    match s.calls t with
    | some (c,now) => some {s with store := c.locked s.store now,
                                   calls := Function.update s.calls t none}
    | none => none
  | .clear => some {s with store := clear s.store}
  | .setTtl ttl => some {s with store := setTtl s.store ttl}

inductive Event
  | pass (now : ℤ)
  | put (id : String) (e : Entry)
  | took (id : String) (data : Option (List UInt8))
  | cleared
  | setTtl (ttl : ℤ)
  deriving DecidableEq

/-- What the critical section did, in order: that of a call makes a pass first. -/
def events (s : System) : Action → List Event
  | .enter t =>
    match s.calls t with
    | some (.put id data,now) => [.pass now,.put id ⟨data,now⟩]
    | some (.take id,now) => [.pass now,.took id (takeLocked s.store now id).2]
    | some (.gc,now) => [.pass now]
    | none => []
  | .clear => [.cleared]
  | .setTtl ttl => [.setTtl ttl]
  | _ => []

def ttlInForce (l : List Event) : ℤ :=
  l.foldl (fun ttl v => match v with | .setTtl t => t | _ => ttl) (15*60*1000)

def Event.ends (ttl : ℤ) (id : String) (e : Entry) : Event → Bool
  | .pass now => ttl*1000000 ≤ now-e.lastUsed
  | .put _ _ => false
  | .took i data => i = id ∧ data.isSome
  | .cleared => true
  | .setTtl _ => false

/-- The entry was put under the id and nothing has ended it since. -/
def Live (l : List Event) (id : String) (e : Entry) : Prop :=
  ∃ before after, l = before++.put id e::after ∧ ∀ mid v rest, after = mid++v::rest →
    v.ends (ttlInForce (before++.put id e::mid)) id e = false

/-- A ttl that nanoseconds can be counted of. -/
def Fits (ttl : ℤ) : Prop := -2^63 ≤ ttl*1000000 ∧ ttl*1000000 < 2^63

/-- A ttl that is set can be counted in nanoseconds. -/
def FitsTtl (_ : System) : Action → Prop
  | .setTtl ttl => Fits ttl
  | _ => True

theorem not_fitsTtl {s : System} {a : Action} (h : ¬ FitsTtl s a) : ∃ ttl, a = .setTtl ttl := by
  cases a with
  | setTtl ttl => exact ⟨ttl,rfl⟩
  | _ => exact absurd trivial h

theorem expired_eq {ttl : ℤ} (h : Fits ttl) (e : Entry) (now : ℤ) :
    e.expired now ttl = decide (ttl*1000000 ≤ now-e.lastUsed) := by
  have hlow := h.1
  have hhigh := h.2
  rw [Entry.expired,nanoseconds,Int.bmod_eq_of_le (by omega) (by omega)]

theorem ttlInForce_append (l : List Event) (v : Event) :
    ttlInForce (l++[v]) = match v with | .setTtl t => t | _ => ttlInForce l := by
  rw [ttlInForce,List.foldl_append]
  rfl

theorem live_append {l : List Event} {v : Event} {id : String} {e : Entry} :
    Live (l++[v]) id e ↔ v = .put id e ∨ Live l id e ∧ v.ends (ttlInForce l) id e = false := by
  constructor
  · rintro ⟨before,after,heq,hkept⟩
    induction after using List.reverseRecOn with
    | nil =>
      have hv := (List.append_inj' heq rfl).2
      exact .inl (List.singleton_inj.mp hv)
    | append_singleton after w _ =>
      rw [← List.cons_append,← List.append_assoc] at heq
      obtain ⟨rfl,hv⟩ := List.append_inj' heq rfl
      obtain rfl := List.singleton_inj.mp hv
      refine .inr ⟨⟨before,after,rfl,?_⟩,hkept after v [] rfl⟩
      rintro mid u rest rfl
      exact hkept mid u (rest++[v]) (by simp)
  · rintro (rfl | ⟨⟨before,after,rfl,hkept⟩,hv⟩)
    · exact ⟨l,[],rfl,fun mid v rest h => absurd h (by simp)⟩
    · refine ⟨before,after++[v],by simp,?_⟩
      intro mid u rest h
      induction rest using List.reverseRecOn with
      | nil =>
        obtain ⟨rfl,hu⟩ := List.append_inj' h rfl
        rwa [← List.singleton_inj.mp hu]
      | append_singleton rest w _ =>
        rw [← List.cons_append,← List.append_assoc] at h
        exact hkept mid u rest (List.append_inj' h rfl).1

theorem not_live_nil {id : String} {e : Entry} : ¬ Live [] id e := by
  rintro ⟨before,after,heq,-⟩
  simp at heq

theorem Live.mem {l : List Event} {id : String} {e : Entry} (h : Live l id e) :
    .put id e ∈ l := by
  obtain ⟨before,after,rfl,-⟩ := h
  simp

theorem gcLocked_eq_some {s : Store} {now : ℤ} {id : String} {e : Entry} :
    (gcLocked s now).map id = some e ↔ s.map id = some e ∧ e.expired now s.ttl = false := by
  simp [gcLocked,Option.filter_eq_some_iff]

theorem takeLocked_eq_some {s : Store} {now : ℤ} {id : String} {data : List UInt8} :
    (takeLocked s now id).2 = some data ↔
      ∃ e, (gcLocked s now).map id = some e ∧ e.data = data := by
  cases hid : (gcLocked s now).map id <;> simp [takeLocked,hid]

def Event.isPut (id : String) : Event → Bool
  | .put i _ => i = id
  | _ => false

/-- A `take` that handed the blob out. -/
def Event.handsOut (id : String) : Event → Bool
  | .took i data => i = id ∧ data.isSome
  | _ => false

/-- The store holds what the log says is live and the ttl that it says is in force, and every
blob put is there at most once or has been handed out at most once. -/
structure Holds (s : Store) (l : List Event) : Prop where
  ttl : s.ttl = ttlInForce l
  fits : Fits s.ttl
  live : ∀ id e, s.map id = some e ↔ Live l id e
  once : ∀ id, l.countP (Event.handsOut id)+(s.map id).isSome.toNat ≤ l.countP (Event.isPut id)
  putOnce : ∀ id, l.countP (Event.isPut id) ≤ 1

theorem countP_isPut_eq_zero {l : List Event} {id : String} (h : ∀ e, .put id e ∉ l) :
    l.countP (Event.isPut id) = 0 := by
  refine List.countP_eq_zero.mpr ?_
  rintro (_ | ⟨i,e⟩ | _ | _ | _) hv
  · simp [Event.isPut]
  · rintro hi
    obtain rfl : i = id := by simpa [Event.isPut] using hi
    exact h e hv
  · simp [Event.isPut]
  · simp [Event.isPut]
  · simp [Event.isPut]

theorem holds_pass {s : Store} {l : List Event} (h : Holds s l) (now : ℤ) :
    Holds (gcLocked s now) (l++[.pass now]) := by
  refine ⟨?_,h.fits,fun id e => ?_,fun id => ?_,fun id => ?_⟩
  · rw [ttlInForce_append]
    exact h.ttl
  · rw [gcLocked_eq_some,live_append,h.live,expired_eq h.fits,h.ttl]
    simp [Event.ends]
  · have hless : ((gcLocked s now).map id).isSome.toNat ≤ (s.map id).isSome.toNat := by
      cases hid : s.map id with
      | none => simp [gcLocked,hid]
      | some _ => simpa using Bool.toNat_le _
    have honce := h.once id
    simp only [List.countP_append,List.countP_singleton,Event.handsOut,Event.isPut]
    simp only [Bool.false_eq_true,if_false]
    omega
  · simpa [Event.isPut] using h.putOnce id

theorem holds_put {s : Store} {l : List Event} (h : Holds s l) {id : String} (e : Entry)
    (hfresh : ∀ e, .put id e ∉ l) :
    Holds {s with map := Function.update s.map id (some e)} (l++[.put id e]) := by
  have hdead : ∀ e, ¬ Live l id e := fun e hlive => hfresh e hlive.mem
  have hnone : s.map id = none :=
    Option.eq_none_iff_forall_ne_some.mpr fun e he => hdead e ((h.live id e).mp he)
  have hzero := countP_isPut_eq_zero hfresh
  refine ⟨(ttlInForce_append l _).symm ▸ h.ttl,h.fits,fun i e' => ?_,fun i => ?_,fun i => ?_⟩
  · rw [live_append]
    by_cases hi : i = id
    · subst hi
      simp [hdead]
    · simp [hi,Ne.symm hi,Event.ends,h.live]
  · have honce := h.once i
    by_cases hi : i = id
    · subst hi
      simp only [hnone,hzero,Option.isSome_none,Bool.toNat_false] at honce
      simpa [List.countP_append,Event.handsOut,Event.isPut,hzero] using honce
    · simpa [List.countP_append,Event.handsOut,Event.isPut,hi,Ne.symm hi] using honce
  · have hone := h.putOnce i
    by_cases hi : i = id
    · subst hi
      simp [List.countP_append,Event.isPut,hzero]
    · simpa [List.countP_append,Event.isPut,hi,Ne.symm hi] using hone

theorem holds_take {s : Store} {l : List Event} (h : Holds s l) {id : String} {e : Entry}
    (he : s.map id = some e) :
    Holds {s with map := Function.update s.map id none} (l++[.took id (some e.data)]) := by
  refine ⟨(ttlInForce_append l _).symm ▸ h.ttl,h.fits,fun i e' => ?_,fun i => ?_,fun i => ?_⟩
  · rw [live_append]
    by_cases hi : i = id
    · simp [hi,Event.ends]
    · simp [hi,Ne.symm hi,Event.ends,h.live]
  · have honce := h.once i
    by_cases hi : i = id
    · subst hi
      simpa [List.countP_append,Event.handsOut,Event.isPut,he] using honce
    · simpa [List.countP_append,Event.handsOut,Event.isPut,hi,Ne.symm hi] using honce
  · simpa [Event.isPut] using h.putOnce i

theorem holds_miss {s : Store} {l : List Event} (h : Holds s l) (id : String) :
    Holds s (l++[.took id none]) := by
  refine ⟨(ttlInForce_append l _).symm ▸ h.ttl,h.fits,fun i e' => ?_,fun i => ?_,fun i => ?_⟩
  · rw [live_append]
    simp [Event.ends,h.live]
  · simpa [List.countP_append,Event.handsOut,Event.isPut] using h.once i
  · simpa [Event.isPut] using h.putOnce i

theorem holds_clear {s : Store} {l : List Event} (h : Holds s l) :
    Holds (clear s) (l++[.cleared]) := by
  refine ⟨(ttlInForce_append l _).symm ▸ h.ttl,h.fits,fun i e' => ?_,fun i => ?_,fun i => ?_⟩
  · rw [live_append]
    simp [clear,Event.ends]
  · have honce := h.once i
    simp [clear,List.countP_append,Event.handsOut,Event.isPut] at honce ⊢
    omega
  · simpa [Event.isPut] using h.putOnce i

theorem holds_setTtl {s : Store} {l : List Event} (h : Holds s l) {ttl : ℤ} (hfits : Fits ttl) :
    Holds (setTtl s ttl) (l++[.setTtl ttl]) := by
  refine ⟨(ttlInForce_append l (.setTtl ttl)).symm,hfits,fun i e' => ?_,fun i => ?_,fun i => ?_⟩
  · rw [live_append]
    simp [setTtl,Event.ends,h.live]
  · simpa [setTtl,List.countP_append,Event.handsOut,Event.isPut] using h.once i
  · simpa [Event.isPut] using h.putOnce i

theorem put_unique {s : Store} {l : List Event} (h : Holds s l) {id : String} {e e' : Entry}
    (he : .put id e ∈ l) (he' : .put id e' ∈ l) : e = e' := by
  obtain ⟨before,after,rfl⟩ := List.append_of_mem he
  have hone := h.putOnce id
  simp only [List.countP_append,List.countP_cons,Event.isPut,decide_true,if_true] at hone
  have habsent : ∀ m : List Event, m.countP (Event.isPut id) = 0 → .put id e' ∉ m := by
    intro m hm hmem
    simpa [Event.isPut] using List.countP_eq_zero.mp hm _ hmem
  simp only [List.mem_append,List.mem_cons,Event.put.injEq,true_and] at he'
  rcases he' with hb | rfl | ha
  · exact absurd hb (habsent before (by omega))
  · rfl
  · exact absurd ha (habsent after (by omega))

/-- The id of the `put` the thread is in. -/
def System.putting (s : System) (t : ℕ) : Option String :=
  match s.calls t with
  | some (.put id _,_) => some id
  | _ => none

/-- The ids of the calls in progress are new to the log and differ from each other. -/
structure Recorded (s : System) (l : List Event) : Prop where
  holds : Holds s.store l
  issued : ∀ id e, .put id e ∈ l → id ∈ s.issued
  pending : ∀ t id, s.putting t = some id → id ∈ s.issued ∧ ∀ e, .put id e ∉ l
  apart : ∀ t u id, s.putting t = some id → s.putting u = some id → t = u

theorem recorded_init : Recorded {} [] :=
  ⟨⟨rfl,⟨by decide,by decide⟩,fun id e => by simp [not_live_nil],by simp,by simp⟩,by simp,
    by simp [System.putting],by simp [System.putting]⟩

theorem mem_issues_iff {c : Call} {now : ℤ} {s : System} {t : ℕ} {id : String}
    (h : s.calls t = some (c,now)) : s.putting t = some id ↔ id ∈ c.issues := by
  cases c <;> simp [System.putting,h,Call.issues,eq_comm]

@[simp] theorem putting_call (s : System) (t u : ℕ) (c : Call) (now : ℤ) (ids : List String) :
    System.putting {s with calls := Function.update s.calls t (some (c,now)), issued := ids} u =
      if u = t then c.issues.head? else s.putting u := by
  by_cases hu : u = t
  · subst hu
    cases c <;> simp [System.putting,Call.issues]
  · simp [System.putting,hu]

@[simp] theorem putting_enter (s : System) (t u : ℕ) (st : Store) :
    System.putting {s with store := st, calls := Function.update s.calls t none} u =
      if u = t then none else s.putting u := by
  by_cases hu : u = t
  · subst hu
    simp [System.putting]
  · simp [System.putting,hu]

theorem holds_locked {s : System} {l : List Event} {t : ℕ} {c : Call} {now : ℤ}
    (h : Recorded s l) (hc : s.calls t = some (c,now)) :
    Holds (c.locked s.store now) (l++events s (.enter t)) := by
  have hpass := holds_pass h.holds now
  cases c with
  | put id data =>
    have hpending := (h.pending t id ((mem_issues_iff hc).mpr (by simp [Call.issues]))).2
    have hfresh : ∀ e, .put id e ∉ l++[Event.pass now] := by simpa using hpending
    have hnone : (gcLocked s.store now).map id = none := by
      refine Option.eq_none_iff_forall_ne_some.mpr fun e he => ?_
      exact hfresh e ((hpass.live id e).mp he).mem
    simpa [events,hc,Call.locked,putLocked,hnone] using holds_put hpass ⟨data,now⟩ hfresh
  | take id =>
    cases hid : (gcLocked s.store now).map id with
    | none => simpa [events,hc,Call.locked,takeLocked,hid] using holds_miss hpass id
    | some e => simpa [events,hc,Call.locked,takeLocked,hid] using holds_take hpass hid
  | gc => simpa [events,hc,Call.locked] using hpass

theorem put_mem_events {s : System} {a : Action} {id : String} {e : Entry}
    (h : .put id e ∈ events s a) : ∃ t, a = .enter t ∧ s.putting t = some id := by
  cases a with
  | enter t =>
    refine ⟨t,rfl,?_⟩
    revert h
    cases hc : s.calls t with
    | none => simp [events,hc]
    | some p =>
      obtain ⟨c,now⟩ := p
      cases c <;> simp +contextual [events,hc,System.putting]
  | _ => simp [events] at h

theorem recorded_call {s : System} {l : List Event} {u : ℕ} {c : Call} (h : Recorded s l)
    (hnew : ∀ id ∈ c.issues, id ∉ s.issued) :
    Recorded {s with calls := Function.update s.calls u (some (c,s.clock)),
                     issued := c.issues++s.issued} l := by
  refine ⟨h.holds,fun id e he => List.mem_append_right _ (h.issued id e he),?_,?_⟩
  · intro t id hput
    rw [putting_call] at hput
    split_ifs at hput with ht
    · have hid : id ∈ c.issues := List.mem_of_head? hput
      exact ⟨List.mem_append_left _ hid,fun e he => hnew id hid (h.issued id e he)⟩
    · obtain ⟨hissued,hfresh⟩ := h.pending t id hput
      exact ⟨List.mem_append_right _ hissued,hfresh⟩
  · intro t v id ht hv
    rw [putting_call] at ht hv
    split_ifs at ht hv with htu hvu hvu
    · rw [htu,hvu]
    · exact absurd (h.pending v id hv).1 (hnew id (List.mem_of_head? ht))
    · exact absurd (h.pending t id ht).1 (hnew id (List.mem_of_head? hv))
    · exact h.apart t v id ht hv

theorem recorded_enter {s : System} {l : List Event} {u : ℕ} {c : Call} {now : ℤ}
    (h : Recorded s l) (hc : s.calls u = some (c,now)) :
    Recorded {s with store := c.locked s.store now, calls := Function.update s.calls u none}
      (l++events s (.enter u)) := by
  have hput : ∀ id e, .put id e ∈ events s (.enter u) → s.putting u = some id := by
    intro id e he
    obtain ⟨v,hv,hid⟩ := put_mem_events he
    rwa [Action.enter.inj hv]
  refine ⟨holds_locked h hc,?_,?_,?_⟩
  · intro id e he
    rcases List.mem_append.mp he with hold | hnew
    · exact h.issued id e hold
    · exact (h.pending u id (hput id e hnew)).1
  · intro t id ht
    rw [putting_enter] at ht
    split_ifs at ht with htu
    obtain ⟨hissued,hfresh⟩ := h.pending t id ht
    refine ⟨hissued,fun e he => ?_⟩
    rcases List.mem_append.mp he with hold | hnew
    · exact hfresh e hold
    · exact htu (h.apart t u id ht (hput id e hnew))
  · intro t v id ht hv
    rw [putting_enter] at ht hv
    split_ifs at ht hv
    exact h.apart t v id ht hv

theorem recorded_step (s : System) (a : Action) (t : System) (l : List Event)
    (h : Recorded s l) (ha : FitsTtl s a) (hs : step s a = some t) :
    Recorded t (l++events s a) := by
  cases a with
  | tick d =>
    obtain ⟨-,ht⟩ := Option.ite_none_right_eq_some.mp hs
    obtain rfl := Option.some.inj ht
    rw [show events s (.tick d) = [] from rfl,List.append_nil]
    exact ⟨h.holds,h.issued,h.pending,h.apart⟩
  | call u c =>
    simp only [step,Option.ite_none_right_eq_some,Option.some.injEq] at hs
    obtain ⟨⟨-,hnew⟩,rfl⟩ := hs
    rw [show events s (.call u c) = [] from rfl,List.append_nil]
    exact recorded_call h hnew
  | enter u =>
    cases hc : s.calls u with
    | none => simp [step,hc] at hs
    | some p =>
      simp only [step,hc,Option.some.injEq] at hs
      rw [← hs]
      exact recorded_enter h hc
  | clear =>
    obtain rfl := Option.some.inj hs
    rw [show events s .clear = [.cleared] from rfl]
    exact ⟨holds_clear h.holds,by simpa using h.issued,fun u id hu => by simpa using h.pending u id hu,
      h.apart⟩
  | setTtl ttl =>
    obtain rfl := Option.some.inj hs
    exact ⟨holds_setTtl h.holds ha,by simpa [events] using h.issued,
      fun u id hu => by simpa [events] using h.pending u id hu,h.apart⟩

theorem recorded_run {s : System} {as : List Action} (h : Trace.run step {} as = some s)
    (hfits : ∀ ttl, .setTtl ttl ∈ as → Fits ttl) :
    Recorded s (Trace.log step events {} as) := by
  refine Trace.run_keeps_log_of_meets recorded_step recorded_init
    (Trace.meets_of_forall (fun a ha s => ?_) _) h
  cases a with
  | setTtl ttl => exact hfits ttl ha
  | _ => trivial

/-- A `take` hands out a blob exactly if it was put under the id and neither an earlier
`take` of the id, nor `clear`, nor a pass that saw it reach the ttl in force has come since,
its own pass included; no blob is handed out twice, and no step alters an entry that stays.
So it is where every ttl that is set can be counted in nanoseconds. -/
theorem take_hands_out {s : System} {as : List Action} (h : Trace.run step {} as = some s)
    (hfits : ∀ ttl, .setTtl ttl ∈ as → Fits ttl) :
    (∀ t id now, s.calls t = some (.take id,now) → ∀ data,
      (takeLocked s.store now id).2 = some data ↔ ∃ e, e.data = data ∧
        Live (Trace.log step events {} as++[.pass now]) id e) ∧
    (∀ id, (Trace.log step events {} as).countP (Event.handsOut id) ≤ 1) ∧
    ∀ a t, step s a = some t → ∀ id e e', s.store.map id = some e →
      t.store.map id = some e' → e' = e := by
  have hrec := recorded_run h hfits
  refine ⟨?_,?_,?_⟩
  · intro t id now _ data
    have hpass := holds_pass hrec.holds now
    rw [takeLocked_eq_some]
    constructor
    · rintro ⟨e,he,hdata⟩
      exact ⟨e,hdata,(hpass.live id e).mp he⟩
    · rintro ⟨e,hdata,hlive⟩
      exact ⟨e,(hpass.live id e).mpr hlive,hdata⟩
  · intro id
    have honce := hrec.holds.once id
    have hput := hrec.holds.putOnce id
    omega
  · intro a t hs id e e' he he'
    by_cases ha : FitsTtl s a
    · have hnext := (recorded_step s a t _ hrec ha hs).holds
      have hold := ((hrec.holds.live id e).mp he).mem
      exact (put_unique hnext (List.mem_append_left _ hold) ((hnext.live id e').mp he').mem).symm
    · obtain ⟨ttl,rfl⟩ := not_fitsTtl ha
      obtain rfl := Option.some.inj hs
      exact Option.some.inj (he'.symm.trans he)

/-- Under a ttl of 20 ms, a blob taken after 19 ms is there and one taken after 20 is not. -/
def sampleRun (d : ℕ) : List Action :=
  [.setTtl 20,.call 0 (.put "a" [7]),.enter 0,.tick (d*1000000),.call 1 (.take "a")]

theorem take_hands_out_sample :
    (∃ e, e.data = [7] ∧
      Live (Trace.log step events {} (sampleRun 19)++[.pass 19000000]) "a" e) ∧
    ¬ ∃ e, e.data = [7] ∧
      Live (Trace.log step events {} (sampleRun 20)++[.pass 20000000]) "a" e :=
  have hfits : ∀ d ttl, .setTtl ttl ∈ sampleRun d → Fits ttl := by
    intro d ttl h
    obtain rfl : ttl = 20 := by simpa [sampleRun] using h
    exact ⟨by decide,by decide⟩
  have hearly : Trace.run step {} (sampleRun 19) =
      some ((Trace.run step {} (sampleRun 19)).get rfl) := rfl
  have hlate : Trace.run step {} (sampleRun 20) =
      some ((Trace.run step {} (sampleRun 20)).get rfl) := rfl
  ⟨((take_hands_out hearly (hfits 19)).1 1 "a" 19000000 rfl [7]).mp (by decide),
    ((take_hands_out hlate (hfits 20)).1 1 "a" 20000000 rfl [7]).not.mp (by decide)⟩

def foreverRun : List Action :=
  [.setTtl (2^63-1),.call 0 (.put "a" [7]),.enter 0,.call 1 (.take "a")]

/-- Counted in nanoseconds, it is no time at all. -/
theorem not_take_hands_out : ¬ ∀ (as : List Action) (s : System),
    Trace.run step {} as = some s → ∀ t id now, s.calls t = some (.take id,now) → ∀ data,
      (takeLocked s.store now id).2 = some data ↔ ∃ e, e.data = data ∧
        Live (Trace.log step events {} as++[.pass now]) id e := by
  intro h
  have htake := (h foreverRun _ rfl 1 "a" 0 rfl [7]).mpr
    ⟨⟨[7],0⟩,rfl,[.setTtl (2^63-1),.pass 0],[.pass 0],rfl,?_⟩
  · exact absurd htake (by decide)
  · intro mid v rest hmid
    cases mid with
    | nil =>
      obtain ⟨rfl,-⟩ := List.cons.inj hmid
      decide
    | cons w mid => exact absurd (List.cons.inj hmid).2 (by simp)

end BinaryStore
end AsioQuickjs
