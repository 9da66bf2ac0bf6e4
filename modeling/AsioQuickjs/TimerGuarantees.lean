import AsioQuickjs.HostTimers

/-! What the timers of a host promise, over every order of registrations, clears and
completed waits. -/
namespace AsioQuickjs
namespace HostTimers

/-- A wait completes before the host stops; a clear finds its timer. -/
inductive Event
  | completed (n : ℕ) | cleared (n : ℕ)
  deriving DecidableEq

/-- The timers that `cancel_timer` finds under the ids, one after another. -/
def clearedBy (h : Host) : List ℤ → List ℕ
  | [] => []
  | id::ids => (h.activeTimers id).toList++clearedBy (h.cancelTimer id) ids

def events (h : Host) : Action → List Event
  | .clear id => (clearedBy h [id]).map .cleared
  | .cancelAllTimers => (clearedBy h h.activeIds).map .cleared
  | .resume n => if h.stopping then [] else [.completed n]
  | _ => []

/-- The coroutine of a timer that has not been cleared still looks at the table. -/
def Timer.awaits (t : Timer) : Prop :=
  t.stage.waiting = true ∨ t.kind = .interval ∧ t.stage = .calling

/-- How often the callback has been called, with the timer in the table or not, cleared or
not, and so many waits completed. -/
structure Fate (t : Timer) (active cleared : Prop) (waits : ℕ) : Prop where
  once : t.kind = .timeout → t.calls ≤ 1 ∧ (t.stage.waiting = true → t.calls = 0)
  counted : ¬ cleared → t.calls = waits
  active : ¬ cleared → t.awaits → active

def Host.Active (h : Host) (n : ℕ) : Prop := h.activeTimers (h.timers n).id = some n

structure Tracks (h : Host) (l : List Event) : Prop where
  ids : Ids h
  fate : ∀ n < h.registered,
    Fate (h.timers n) (h.Active n) (.cleared n ∈ l) (l.count (.completed n))
  known : ∀ n, .cleared n ∈ l ∨ .completed n ∈ l → n < h.registered

theorem tracks_start : Tracks start [] := ⟨ids_start,by simp [start],by simp⟩

theorem Same.awaits {t u : Timer} (hs : Same t u) : u.awaits ↔ t.awaits := by
  simp only [Timer.awaits,hs.waiting,hs.kind,hs.calling]

theorem Same.fate {t u : Timer} {active active' cleared cleared' : Prop} {w : ℕ} (hs : Same t u)
    (hf : Fate t active cleared w) (hcleared : cleared → cleared')
    (hactive : ¬ cleared' → active → active') : Fate u active' cleared' w := by
  refine ⟨?_,?_,?_⟩
  · rw [hs.kind,hs.calls,hs.waiting]
    exact hf.once
  · rw [hs.calls]
    exact fun h => hf.counted (h ∘ hcleared)
  · rw [hs.awaits]
    exact fun h ha => hactive h (hf.active (h ∘ hcleared) ha)

theorem Tracks.cancel {h : Host} {l : List Event} (ht : Tracks h l) (id : ℤ) : Tracks (h.cancelTimer id) (l++((h.activeTimers id).toList.map .cleared)) := by
  have hc := cancels h id
  refine ⟨hc.ids ht.ids,?_,?_⟩
  · intro n hn
    rw [hc.others.1] at hn
    have hcount : (l++(h.activeTimers id).toList.map Event.cleared).count (.completed n) =
        l.count (.completed n) := by
      cases h.activeTimers id <;> simp
    rw [hcount]
    refine (hc.same n).fate (ht.fate n hn) ?_ ?_
    · intro hmem
      exact List.mem_append_left _ hmem
    · intro hnot hactive
      simp only [Host.Active,(hc.same n).id,hc.activeTimers]
      by_cases he : (h.timers n).id = id
      · refine absurd (List.mem_append_right l ?_) hnot
        rw [Host.Active,he] at hactive
        simp [hactive]
      · rwa [Function.update_of_ne he]
  · intro n hn
    rw [hc.others.1]
    rcases hn with hn | hn
    · rcases List.mem_append.mp hn with hn | hn
      · exact ht.known n (.inl hn)
      · simp only [List.mem_map,Option.mem_toList,Event.cleared.injEq,exists_eq_right] at hn
        exact (ht.ids.active id n hn).1
    · refine ht.known n (.inr ?_)
      simpa using hn

theorem Tracks.cancelAll {h : Host} {l : List Event} (ht : Tracks h l) (ids : List ℤ) :
    Tracks (ids.foldl Host.cancelTimer h) (l++(clearedBy h ids).map .cleared) := by
  induction ids generalizing h l with
  | nil => simpa [clearedBy] using ht
  | cons id ids ih => simpa [clearedBy,List.map_append] using ih (ht.cancel id)

theorem Tracks.change {h g : Host} {l k : List Event} (ht : Tracks h l)
    (hlimit : h.registered < 2^31) {n : ℕ} {t : Timer} (hn : n < h.registered)
    (htimers : g.timers = Function.update h.timers n t) (hid : t.id = (h.timers n).id)
    (hother : ∀ i, i ≠ (h.timers n).id → g.activeTimers i = h.activeTimers i)
    (hless : ∀ i m, g.activeTimers i = some m → h.activeTimers i = some m)
    (hothers : g.registered = h.registered ∧ g.nextTimerId = h.nextTimerId)
    (hk : ∀ e ∈ k, e = .completed n)
    (hfate : Fate t (g.Active n) (.cleared n ∈ l) (l.count (.completed n)+k.length)) :
    Tracks g (l++k) := by
  have hcleared : ∀ i, Event.cleared i ∈ l++k ↔ .cleared i ∈ l := fun i => by
    rw [List.mem_append,or_iff_left]
    intro hmem
    cases hk _ hmem
  refine ⟨ht.ids.change htimers hid hless hothers,?_,?_⟩
  · intro i hi
    rw [hothers.1] at hi
    rw [hcleared,List.count_append]
    by_cases hin : i = n
    · subst hin
      have hcount : k.count (.completed i) = k.length := List.count_eq_length.mpr fun e he =>
        (hk e he).symm
      rw [hcount,htimers,Function.update_self]
      exact hfate
    · have hcount : k.count (.completed i) = 0 := List.count_eq_zero.mpr fun hmem =>
        hin (Event.completed.inj (hk _ hmem))
      have hsame : g.timers i = h.timers i := by rw [htimers,Function.update_of_ne hin]
      have hactive : g.Active i ↔ h.Active i := by
        rw [Host.Active,Host.Active,hsame,hother]
        exact fun he => hin (ht.ids.distinct hlimit hi hn he)
      rw [hcount,hsame,Nat.add_zero]
      exact (Same.refl _).fate (ht.fate i hi) id fun _ => hactive.mpr
  · intro i hi
    rw [hothers.1]
    rw [hcleared,List.mem_append] at hi
    rcases hi with hi | hi | hi
    · exact ht.known i (.inl hi)
    · exact ht.known i (.inr hi)
    · rwa [Event.completed.inj (hk _ hi)]

theorem Ids.register {h : Host} (hi : Ids h) (hlimit : h.registered+1 < 2^31) (kind : Kind) :
    Ids (h.registerTimer kind) := by
  refine ⟨?_,?_,?_⟩
  · change int32 (h.nextTimerId+1) = int32 (h.registered+1+1 : ℕ)
    rw [hi.next,int32_of_lt hlimit]
    push_cast
    rfl
  · intro n hn
    by_cases he : n = h.registered
    · rw [he,Host.registerTimer_new]
      exact hi.next
    · rw [Host.registerTimer_of_ne h kind he]
      exact hi.ids n (by change n < h.registered+1 at hn; omega)
  · intro id n hn
    change n < h.registered+1 ∧ _
    by_cases he : id = h.nextTimerId
    · subst he
      obtain rfl : h.registered = n := by simpa [Host.registerTimer] using hn
      exact ⟨by omega,by rw [Host.registerTimer_new]⟩
    · rw [Host.registerTimer_active h kind he] at hn
      obtain ⟨hlt,hid⟩ := hi.active id n hn
      rw [Host.registerTimer_of_ne h kind (Nat.ne_of_lt hlt)]
      exact ⟨by omega,hid⟩

theorem Tracks.register {h : Host} {l : List Event} (ht : Tracks h l)
    (hlimit : h.registered+1 < 2^31) (kind : Kind) : Tracks (h.registerTimer kind) l := by
  refine ⟨ht.ids.register hlimit kind,?_,?_⟩
  · intro n hn
    by_cases he : n = h.registered
    · subst he
      have hnone : Event.cleared h.registered ∉ l ∧ Event.completed h.registered ∉ l :=
        ⟨fun hmem => Nat.lt_irrefl _ (ht.known _ (.inl hmem)),
          fun hmem => Nat.lt_irrefl _ (ht.known _ (.inr hmem))⟩
      rw [Host.registerTimer_new,List.count_eq_zero.mpr hnone.2]
      refine ⟨fun _ => by simp,fun _ => rfl,fun _ _ => ?_⟩
      rw [Host.Active,Host.registerTimer_new]
      exact Function.update_self _ _ _
    · have hlt : n < h.registered := by
        change n < h.registered+1 at hn
        omega
      rw [Host.registerTimer_of_ne h kind he]
      refine (Same.refl _).fate (ht.fate n hlt) id fun _ ha => ?_
      rwa [Host.Active,Host.registerTimer_of_ne h kind he,
        Host.registerTimer_active h kind (ht.ids.fresh hlimit hlt)]
  · intro n hn
    exact Nat.lt_succ_of_lt (ht.known n hn)

theorem Tracks.setStage {h : Host} {l : List Event} (ht : Tracks h l)
    (hlimit : h.registered < 2^31) {n : ℕ} (hn : n < h.registered) {s : Stage}
    (hold : (h.timers n).stage.waiting = true) (hs : s.waiting = true) :
    Tracks (h.setStage n s) l := by
  have hsame := same_setStage hold hs n
  have hfate : Fate ((h.setStage n s).timers n) (h.Active n) (.cleared n ∈ l)
      (l.count (.completed n)) := hsame.fate (ht.fate n hn) id fun _ => id
  simpa using ht.change (g := h.setStage n s) (k := []) hlimit hn rfl rfl (fun _ _ => rfl)
    (fun _ _ => id) ⟨rfl,rfl⟩ (by simp) (by
      have hactive : (h.setStage n s).Active n ↔ h.Active n := by
        rw [Host.Active,hsame.id]
        rfl
      rw [hactive]
      simpa [Host.setStage,Host.setTimer] using hfate)

theorem Ids.isActive {h : Host} (hi : Ids h) (hlimit : h.registered < 2^31) {n : ℕ}
    (hn : n < h.registered) : h.timerIsActive (h.timers n).id = true ↔ h.Active n := by
  simp only [Host.timerIsActive,Host.Active,Option.isSome_iff_exists]
  constructor
  · rintro ⟨m,hm⟩
    obtain ⟨hlt,hid⟩ := hi.active _ m hm
    rwa [hi.distinct hlimit hlt hn hid] at hm
  · exact fun hm => ⟨n,hm⟩

/-- A coroutine ends: in a stopped host, after its timer was cleared or after its callback. -/
theorem Tracks.finish {h : Host} {l k : List Event} (ht : Tracks h l)
    (hlimit : h.registered < 2^31) {n : ℕ} (hn : n < h.registered)
    (hk : k = [] ∨ k = [.completed n] ∧ .cleared n ∈ l) : Tracks (h.finish n) (l++k) := by
  have hfate := ht.fate n hn
  refine ht.change (n := n) (t := { h.timers n with stage := .done }) hlimit hn rfl rfl
    (fun _ _ => rfl) (fun _ _ => id) ⟨rfl,rfl⟩ ?_ ⟨fun hkind => ?_,fun hnot => ?_,fun _ ha => ?_⟩
  · rcases hk with rfl | ⟨rfl,-⟩ <;> simp
  · exact ⟨(hfate.once hkind).1,by simp [Stage.waiting]⟩
  · rcases hk with rfl | ⟨-,hcleared⟩
    · simpa using hfate.counted hnot
    · exact absurd hcleared hnot
  · simp [Timer.awaits,Stage.waiting] at ha

theorem Tracks.resume {h : Host} {l : List Event} (ht : Tracks h l)
    (hlimit : h.registered < 2^31) {n : ℕ} (hn : n < h.registered)
    (hready : (h.timers n).stage = .ready) :
    Tracks (h.resume n) (l++events h (.resume n)) := by
  have hfate := ht.fate n hn
  have hwaiting : (h.timers n).stage.waiting = true := by rw [hready]; rfl
  have hgone : ¬ h.timerIsActive (h.timers n).id = true → .cleared n ∈ l := fun hnot => by
    by_contra hcleared
    exact hnot ((ht.ids.isActive hlimit hn).mpr (hfate.active hcleared (.inl hwaiting)))
  cases hstop : h.stopping with
  | true =>
    have hresume : h.resume n = h.finish n := by
      cases hkind : (h.timers n).kind <;> simp [Host.resume,hkind,hstop]
    have hevents : events h (.resume n) = [] := by simp [events,hstop]
    rw [hresume,hevents]
    exact ht.finish hlimit hn (.inl rfl)
  | false =>
    have hevents : events h (.resume n) = [.completed n] := by simp [events,hstop]
    rw [hevents]
    cases hactive : h.timerIsActive (h.timers n).id with
    | false =>
      have hresume : h.resume n = h.finish n := by
        cases hkind : (h.timers n).kind <;>
          simp [Host.resume,Host.eraseTimerIfActive,hkind,hstop,hactive]
      rw [hresume]
      exact ht.finish hlimit hn (.inr ⟨rfl,hgone (by simp [hactive])⟩)
    | true =>
      have hthere : h.Active n := (ht.ids.isActive hlimit hn).mp hactive
      cases hkind : (h.timers n).kind with
      | timeout =>
        have hresume : h.resume n = { h with
            activeTimers := Function.update h.activeTimers (h.timers n).id none }.call n := by
          simp [Host.resume,Host.eraseTimerIfActive,hkind,hstop,hactive]
        have hcalls := (hfate.once hkind).2 hwaiting
        rw [hresume]
        refine ht.change (n := n)
          (t := { h.timers n with stage := .calling, calls := (h.timers n).calls+1 }) hlimit hn rfl
          rfl (fun i hi => Function.update_of_ne hi _ _) (fun i m hm => ?_) ⟨rfl,rfl⟩ (by simp)
          ⟨fun _ => ?_,fun hnot => ?_,fun _ ha => ?_⟩
        · change Function.update h.activeTimers (h.timers n).id none i = some m at hm
          by_cases hi : i = (h.timers n).id
          · simp [hi] at hm
          · rwa [Function.update_of_ne hi] at hm
        · simp [hcalls,Stage.waiting]
        · simpa using hfate.counted hnot
        · simp [Timer.awaits,Stage.waiting,hkind] at ha
      | interval =>
        have hresume : h.resume n = h.call n := by
          simp [Host.resume,hkind,hstop,hactive]
        rw [hresume]
        refine ht.change (n := n)
          (t := { h.timers n with stage := .calling, calls := (h.timers n).calls+1 }) hlimit hn rfl
          rfl (fun _ _ => rfl) (fun _ _ => id) ⟨rfl,rfl⟩ (by simp)
          ⟨fun h' => ?_,fun hnot => ?_,fun _ _ => ?_⟩
        · simp [hkind] at h'
        · simpa using hfate.counted hnot
        · simpa [Host.Active,Host.call,Host.setTimer] using hthere

theorem Tracks.endCall {h : Host} {l : List Event} (ht : Tracks h l)
    (hlimit : h.registered < 2^31) {n : ℕ} (hn : n < h.registered) : Tracks (h.endCall n) l := by
  have hfate := ht.fate n hn
  have hfinish : Tracks (h.finish n) l := by simpa using ht.finish (k := []) hlimit hn (.inl rfl)
  cases hkind : (h.timers n).kind with
  | timeout => simpa [Host.endCall,hkind] using hfinish
  | interval =>
    cases hactive : h.timerIsActive (h.timers n).id with
    | false => simpa [Host.endCall,hkind,hactive] using hfinish
    | true =>
      have hthere : h.Active n := (ht.ids.isActive hlimit hn).mp hactive
      have hend : h.endCall n = h.setStage n .armed := by simp [Host.endCall,hkind,hactive]
      rw [hend,← List.append_nil l]
      refine ht.change (n := n) (t := { h.timers n with stage := .armed }) hlimit hn rfl rfl
        (fun _ _ => rfl) (fun _ _ => id) ⟨rfl,rfl⟩ (by simp)
        ⟨fun h' => ?_,fun hnot => ?_,fun _ _ => ?_⟩
      · simp [hkind] at h'
      · simpa using hfate.counted hnot
      · simpa [Host.Active,Host.setStage,Host.setTimer] using hthere

theorem Same.trans {t u v : Timer} (htu : Same t u) (huv : Same u v) : Same t v :=
  ⟨huv.kind.trans htu.kind,huv.id.trans htu.id,huv.calls.trans htu.calls,
    huv.waiting.trans htu.waiting,huv.calling.trans htu.calling⟩

theorem cancels_foldl (h : Host) (ids : List ℤ) :
    (∀ n, Same (h.timers n) ((ids.foldl Host.cancelTimer h).timers n)) ∧
    (∀ i, (ids.foldl Host.cancelTimer h).activeTimers i =
      if i ∈ ids then none else h.activeTimers i) ∧
    (ids.foldl Host.cancelTimer h).registered = h.registered ∧
    (ids.foldl Host.cancelTimer h).stopping = h.stopping ∧
    (ids.foldl Host.cancelTimer h).pendingOps = h.pendingOps := by
  induction ids generalizing h with
  | nil => simp [Same.refl]
  | cons id ids ih =>
    have hc := cancels h id
    obtain ⟨hsame,hactive,hreg,hstop,hops⟩ := ih (h.cancelTimer id)
    refine ⟨fun n => (hc.same n).trans (hsame n),fun i => ?_,hreg.trans hc.others.1,
      hstop.trans hc.others.2.2.1,hops.trans hc.others.2.2.2⟩
    rw [List.foldl_cons,hactive,hc.activeTimers]
    by_cases hi : i = id <;> simp [hi]

/-- What the other steps leave alone: those of one coroutine, at the stages they start from. -/
structure Local (h g : Host) (n : ℕ) : Prop where
  timers : ∀ i, i ≠ n → g.timers i = h.timers i
  id : (g.timers n).id = (h.timers n).id
  activeTimers : ∀ i, h.activeTimers i = none → g.activeTimers i = none
  others : g.registered = h.registered ∧ g.stopping = h.stopping
  calls : h.stopping = true ∨ h.activeTimers (h.timers n).id = none →
    (g.timers n).calls = (h.timers n).calls

theorem local_setStage (h : Host) (n : ℕ) (s : Stage) : Local h (h.setStage n s) n :=
  ⟨fun i hi => Function.update_of_ne hi _ _,by simp [Host.setStage,Host.setTimer],fun _ => id,
    ⟨rfl,rfl⟩,fun _ => by simp [Host.setStage,Host.setTimer]⟩

theorem local_finish (h : Host) (n : ℕ) : Local h (h.finish n) n :=
  ⟨fun i hi => Function.update_of_ne hi _ _,by simp [Host.finish,Host.setStage,Host.setTimer],
    fun _ => id,⟨rfl,rfl⟩,fun _ => by simp [Host.finish,Host.setStage,Host.setTimer]⟩

theorem local_resume (h : Host) (n : ℕ) : Local h (h.resume n) n := by
  simp only [Host.resume]
  split
  · split
    · exact local_finish h n
    · next hstop =>
      simp only [Host.eraseTimerIfActive]
      by_cases hactive : h.timerIsActive (h.timers n).id = true
      · simp only [hactive,if_true]
        refine ⟨fun i hi => Function.update_of_ne hi _ _,by simp [Host.call,Host.setTimer],?_,
          ⟨rfl,rfl⟩,?_⟩
        · intro i hi
          change Function.update h.activeTimers _ none i = none
          rw [Function.update_apply]
          split <;> [rfl; exact hi]
        · rintro (h' | h')
          · exact absurd h' hstop
          · simp [Host.timerIsActive,h'] at hactive
      · simp only [hactive]
        exact local_finish h n
  · split
    · exact local_finish h n
    · next hgoes =>
      refine ⟨fun i hi => Function.update_of_ne hi _ _,by simp [Host.call,Host.setTimer],
        fun _ => id,⟨rfl,rfl⟩,?_⟩
      rintro (h' | h') <;> simp [h',Host.timerIsActive] at hgoes

theorem local_endCall (h : Host) (n : ℕ) : Local h (h.endCall n) n := by
  simp only [Host.endCall]
  split
  · exact local_finish h n
  · split
    · exact local_setStage h n _
    · exact local_finish h n

theorem step_cases {h g : Host} {a : Action} (hs : step h a = some g) :
    (∃ kind, g = h.registerTimer kind) ∨ (∃ ids : List ℤ, g = ids.foldl Host.cancelTimer h) ∨
      g = { h with stopping := true } ∨ ∃ n, n < h.registered ∧ Local h g n := by
  have htimer : ∀ n st f, onTimer h n st f = some g → Local h f n →
      ∃ n, n < h.registered ∧ Local h g n := fun n st f hf hl => by
    obtain ⟨hn,-,rfl⟩ := of_onTimer hf
    exact ⟨n,hn,hl⟩
  cases a with
  | setTimeout => exact .inl ⟨.timeout,(Option.some.inj hs).symm⟩
  | setInterval => exact .inl ⟨.interval,(Option.some.inj hs).symm⟩
  | clear id => exact .inr (.inl ⟨[id],(Option.some.inj hs).symm⟩)
  | cancelAllTimers => exact .inr (.inl ⟨_,(Option.some.inj hs).symm⟩)
  | shutdown => exact .inr (.inr (.inl (Option.some.inj hs).symm))
  | arm n => exact .inr (.inr (.inr (htimer n _ _ hs (local_setStage h n _))))
  | expire n => exact .inr (.inr (.inr (htimer n _ _ hs (local_setStage h n _))))
  | resume n => exact .inr (.inr (.inr (htimer n _ _ hs (local_resume h n))))
  | endCall n => exact .inr (.inr (.inr (htimer n _ _ hs (local_endCall h n))))

theorem registered_step {h g : Host} {a : Action} (hs : step h a = some g) :
    h.registered ≤ g.registered := by
  rcases step_cases hs with ⟨kind,rfl⟩ | ⟨ids,rfl⟩ | rfl | ⟨n,-,hl⟩
  · exact Nat.le_succ _
  · rw [(cancels_foldl h ids).2.2.1]
  · exact Nat.le_refl _
  · rw [hl.others.1]

theorem tracks_step {h g : Host} {a : Action} {l : List Event} (ht : Tracks h l)
    (hs : step h a = some g) (hlimit : g.registered < 2^31) : Tracks g (l++events h a) := by
  have hold : h.registered < 2^31 := Nat.lt_of_le_of_lt (registered_step hs) hlimit
  cases a with
  | setTimeout =>
    cases hs
    simpa [events] using ht.register hlimit .timeout
  | setInterval =>
    cases hs
    simpa [events] using ht.register hlimit .interval
  | clear id =>
    cases hs
    simpa [events,clearedBy] using ht.cancel id
  | arm n =>
    obtain ⟨hn,hst,rfl⟩ := of_onTimer hs
    simpa [events] using ht.setStage hold hn (by rw [hst]; rfl) (s := .armed) rfl
  | expire n =>
    obtain ⟨hn,hst,rfl⟩ := of_onTimer hs
    simpa [events] using ht.setStage hold hn (by rw [hst]; rfl) (s := .ready) rfl
  | resume n =>
    obtain ⟨hn,hst,rfl⟩ := of_onTimer hs
    exact ht.resume hold hn hst
  | endCall n =>
    obtain ⟨hn,-,rfl⟩ := of_onTimer hs
    simpa [events] using ht.endCall hold hn
  | cancelAllTimers =>
    cases hs
    exact ht.cancelAll h.activeIds
  | shutdown =>
    cases hs
    simpa [events] using (⟨⟨ht.ids.next,ht.ids.ids,ht.ids.active⟩,ht.fate,ht.known⟩ :
      Tracks { h with stopping := true } l)

theorem tracks_run {h : Host} {as : List Action} (hs : run start as = some h)
    (hlimit : h.registered < 2^31) : Tracks h (Trace.log step events start as) := by
  have hall : h.registered < 2^31 → Tracks h ([]++Trace.log step events start as) :=
    Trace.run_keeps_log (I := fun h l => h.registered < 2^31 → Tracks h l)
      (fun _ _ _ _ ht hstep hlim =>
        tracks_step (ht (Nat.lt_of_le_of_lt (registered_step hstep) hlim)) hstep hlim)
      (fun _ => tracks_start) hs
  exact hall hlimit

/-- The timer is in the table no more. -/
def Silent (h : Host) (n : ℕ) : Prop :=
  n < h.registered ∧ h.activeTimers (h.timers n).id = none

theorem silent_step {h g : Host} {a : Action} {n : ℕ} (hi : Ids h) (hq : Silent h n)
    (hs : step h a = some g) (hlimit : g.registered < 2^31) :
    Silent g n ∧ (g.timers n).calls = (h.timers n).calls := by
  obtain ⟨hn,hnone⟩ := hq
  rcases step_cases hs with ⟨kind,rfl⟩ | ⟨ids,rfl⟩ | rfl | ⟨m,hm,hl⟩
  · have hsame := h.registerTimer_of_ne kind (Nat.ne_of_lt hn)
    refine ⟨⟨Nat.lt_succ_of_lt hn,?_⟩,by rw [hsame]⟩
    rw [hsame]
    exact (Function.update_of_ne (hi.fresh hlimit hn) _ _).trans hnone
  · obtain ⟨hsame,hactive,hreg,-⟩ := cancels_foldl h ids
    refine ⟨⟨by rwa [hreg],?_⟩,(hsame n).calls⟩
    rw [(hsame n).id,hactive,hnone,ite_self]
  · exact ⟨⟨hn,hnone⟩,rfl⟩
  · by_cases hnm : n = m
    · subst hnm
      refine ⟨⟨by rwa [hl.others.1],?_⟩,hl.calls (.inr hnone)⟩
      rw [hl.id]
      exact hl.activeTimers _ hnone
    · refine ⟨⟨by rwa [hl.others.1],?_⟩,by rw [hl.timers n hnm]⟩
      rw [hl.timers n hnm]
      exact hl.activeTimers _ hnone

theorem silent_run {h g : Host} {bs : List Action} {l : List Event} {n : ℕ} (ht : Tracks h l)
    (hq : Silent h n) (hs : run h bs = some g) (hlimit : g.registered < 2^31) :
    (g.timers n).calls = (h.timers n).calls := by
  have hall := Trace.run_keeps (I := fun g => g.registered < 2^31 →
    (∃ l, Tracks g l) ∧ Silent g n ∧ (g.timers n).calls = (h.timers n).calls)
    (fun u a v hu hstep hlim => by
      obtain ⟨⟨k,hk⟩,hquiet,hcalls⟩ := hu (Nat.lt_of_le_of_lt (registered_step hstep) hlim)
      obtain ⟨hsilent,hsame⟩ := silent_step hk.ids hquiet hstep hlim
      exact ⟨⟨_,tracks_step hk hstep hlim⟩,hsilent,hsame.trans hcalls⟩)
    (fun _ => ⟨⟨l,ht⟩,hq,rfl⟩) hs
  exact (hall hlimit).2.2

/-- What is not registered has not been called. -/
def Unset (h : Host) : Prop := ∀ n, h.registered ≤ n → (h.timers n).calls = 0

theorem unset_step {h g : Host} {a : Action} (hu : Unset h) (hs : step h a = some g) :
    Unset g ∧ (h.stopping = true →
      g.stopping = true ∧ ∀ n, (g.timers n).calls = (h.timers n).calls) := by
  rcases step_cases hs with ⟨kind,rfl⟩ | ⟨ids,rfl⟩ | rfl | ⟨m,hm,hl⟩
  · have hcalls : ∀ n, ((h.registerTimer kind).timers n).calls = (h.timers n).calls := fun n => by
      by_cases hn : n = h.registered
      · subst hn
        rw [hu _ (Nat.le_refl _),Host.registerTimer_new]
      · rw [Host.registerTimer_of_ne h kind hn]
    refine ⟨fun n hn => ?_,fun hstop => ⟨hstop,hcalls⟩⟩
    rw [hcalls]
    exact hu n (Nat.le_of_succ_le hn)
  · obtain ⟨hsame,-,hreg,hstop,-⟩ := cancels_foldl h ids
    refine ⟨fun n hn => ?_,fun h' => ⟨hstop.trans h',fun n => (hsame n).calls⟩⟩
    rw [(hsame n).calls]
    exact hu n (hreg ▸ hn)
  · exact ⟨hu,fun _ => ⟨rfl,fun _ => rfl⟩⟩
  · refine ⟨fun n hn => ?_,fun hstop => ⟨hl.others.2.trans hstop,fun n => ?_⟩⟩
    · rw [hl.others.1] at hn
      rw [hl.timers n (by omega)]
      exact hu n hn
    · by_cases hnm : n = m
      · rw [hnm]
        exact hl.calls (.inl hstop)
      · rw [hl.timers n hnm]

theorem stopped_run {h g : Host} {as bs : List Action} (hs : run start as = some h)
    (hstop : h.stopping = true) (hg : run h bs = some g) (n : ℕ) :
    (g.timers n).calls = (h.timers n).calls := by
  have hunset : Unset h := Trace.run_keeps (fun _ _ _ hu hstep => (unset_step hu hstep).1)
    (fun _ _ => rfl) hs
  have hall := Trace.run_keeps (I := fun g => Unset g ∧ g.stopping = true ∧
    ∀ n, (g.timers n).calls = (h.timers n).calls)
    (fun u a v hu hstep => by
      obtain ⟨hun,hst,hcalls⟩ := hu
      obtain ⟨hun',hkeep⟩ := unset_step hun hstep
      exact ⟨hun',(hkeep hst).1,fun n => ((hkeep hst).2 n).trans (hcalls n)⟩)
    ⟨hunset,hstop,fun _ => rfl⟩ hg
  exact hall.2.2 n

/-- The action clears the timer. -/
def Clears (h : Host) (n : ℕ) : Action → Prop
  | .clear id => id = (h.timers n).id
  | .cancelAllTimers => True
  | _ => False

theorem silent_of_clears {h u : Host} {a : Action} {n : ℕ} (hn : n < h.registered)
    (ha : Clears h n a) (hs : step h a = some u) :
    Silent u n ∧ (u.timers n).calls = (h.timers n).calls := by
  have hclear : ∀ ids : List ℤ, u = ids.foldl Host.cancelTimer h →
      ((h.timers n).id ∈ ids ∨ h.activeTimers (h.timers n).id = none) →
      Silent u n ∧ (u.timers n).calls = (h.timers n).calls := by
    rintro ids rfl hids
    obtain ⟨hsame,hactive,hreg,-⟩ := cancels_foldl h ids
    refine ⟨⟨by rwa [hreg],?_⟩,(hsame n).calls⟩
    rw [(hsame n).id,hactive]
    rcases hids with hmem | hnone
    · rw [if_pos hmem]
    · rw [hnone,ite_self]
  cases a <;> simp only [Clears] at ha
  case clear id =>
    exact hclear [id] (Option.some.inj hs).symm (.inl (by simp [ha]))
  case cancelAllTimers =>
    refine hclear h.activeIds (Option.some.inj hs).symm ?_
    cases hactive : h.activeTimers (h.timers n).id with
    | none => exact .inr rfl
    | some m =>
      refine .inl (List.mem_filter.mpr ⟨List.mem_map.mpr ⟨n,List.mem_range.mpr hn,rfl⟩,?_⟩)
      simp [Host.timerIsActive,hactive]

/-- The timers of a run with fewer than `2^31` registrations: what a callback can come to,
wherever the clears, the stop and the completed waits fall. -/
structure TimerSemantics (as : List Action) (h : Host) : Prop where
  atMostOnce : ∀ n < h.registered, (h.timers n).kind = .timeout → (h.timers n).calls ≤ 1
  /-- From a clear on, the callback is not called. -/
  cleared : ∀ bs a cs g u, as = bs++a::cs → run start bs = some g → step g a = some u →
    ∀ n < g.registered, Clears g n a → (h.timers n).calls = (g.timers n).calls
  /-- From the stop on, no callback is called. -/
  stopped : ∀ bs cs g, as = bs++cs → run start bs = some g → g.stopping = true →
    ∀ n, (h.timers n).calls = (g.timers n).calls
  /-- An uncleared timer has been called once for each wait completed before the stop. -/
  eachWait : ∀ n < h.registered, .cleared n ∉ Trace.log step events start as →
    (h.timers n).calls = (Trace.log step events start as).count (.completed n)
  exactlyOnce : ∀ n < h.registered, (h.timers n).kind = .timeout →
    .cleared n ∉ Trace.log step events start as →
    .completed n ∈ Trace.log step events start as → (h.timers n).calls = 1
  distinct : ∀ i < h.registered, ∀ j < h.registered, i ≠ j → (h.timers i).id ≠ (h.timers j).id

theorem timer_semantics {as : List Action} {h : Host} (hs : run start as = some h)
    (hlimit : h.registered < 2^31) : TimerSemantics as h := by
  have ht := tracks_run hs hlimit
  constructor
  case atMostOnce => exact fun n hn hkind => ((ht.fate n hn).once hkind).1
  case cleared =>
    rintro bs a cs g u rfl hg hu n hn hclears
    obtain ⟨g',hg',hrest⟩ := Trace.run_append.mp hs
    obtain rfl : g = g' := Option.some.inj (hg.symm.trans hg')
    obtain ⟨u',hu',hcs⟩ := Trace.run_cons.mp hrest
    obtain rfl : u = u' := Option.some.inj (hu.symm.trans hu')
    have hmono : u.registered ≤ h.registered := Trace.run_relates
      (R := fun s t : Host => s.registered ≤ t.registered) (fun _ => Nat.le_refl _)
      (fun _ _ _ => Nat.le_trans) (fun _ _ _ => registered_step) hcs
    have hlimit' : u.registered < 2^31 := Nat.lt_of_le_of_lt hmono hlimit
    have htg := tracks_run hg (Nat.lt_of_le_of_lt (registered_step hu) hlimit')
    obtain ⟨hquiet,hsame⟩ := silent_of_clears hn hclears hu
    rw [silent_run (tracks_step htg hu hlimit') hquiet hcs hlimit,hsame]
  case stopped =>
    rintro bs cs g rfl hg hstop n
    obtain ⟨g',hg',hcs⟩ := Trace.run_append.mp hs
    obtain rfl : g = g' := Option.some.inj (hg.symm.trans hg')
    exact stopped_run hg hstop hcs n
  case eachWait => exact fun n hn hnot => (ht.fate n hn).counted hnot
  case exactlyOnce =>
    intro n hn hkind hnot hmem
    have hpos := List.count_pos_iff.mpr hmem
    have hcalls := (ht.fate n hn).counted hnot
    have hle := ((ht.fate n hn).once hkind).1
    omega
  case distinct => exact fun i hi j hj hne he => hne (ht.ids.distinct hlimit hi hj he)

def sampleTimers : List Action :=
  [.setTimeout,.setInterval,.arm 0,.arm 1,.expire 1,.resume 1,.endCall 1,.expire 0,.resume 0,
    .clear 2,.endCall 0,.resume 1,.shutdown]

theorem timer_semantics_sample : ∃ h, run start sampleTimers = some h ∧
    (h.timers 0).calls = 1 ∧ (h.timers 1).calls = 1 := by
  refine ⟨_,rfl,?_,?_⟩
  · exact (timer_semantics (show run start sampleTimers = some _ from rfl)
      (by decide)).exactlyOnce 0 (by decide) rfl (by decide) (by decide)
  · exact (timer_semantics (show run start sampleTimers = some _ from rfl)
      (by decide)).cleared (sampleTimers.take 9) (.clear 2) (sampleTimers.drop 10) _ _ rfl rfl rfl
      1 (by decide) rfl

end HostTimers
end AsioQuickjs
