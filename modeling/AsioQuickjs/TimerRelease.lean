import AsioQuickjs.TimerGuarantees

/-! What a clear does to the wait of its timer. The coroutine of a timer is only posted by
`setTimeout` and `setInterval`, it arms the wait in a later turn; `cancel` reaches a wait
that is armed and no other. -/
namespace AsioQuickjs
namespace HostTimers

def Stage.waits : Stage → Bool
  | .posted | .armed => true
  | _ => false

/-- Every `cancel_timer` of the step finds a timer whose coroutine has begun. -/
def Begun (h : Host) (a : Action) : Prop :=
  ∀ n < h.registered, .cleared n ∈ events h a → (h.timers n).stage ≠ .posted

instance (h : Host) (a : Action) : Decidable (Begun h a) :=
  inferInstanceAs (Decidable (∀ n < h.registered, _ → _))

/-- An armed wait has its id in the table, and a coroutine whose id is not there is in its
last turn: it ends and counts itself out without another wait. -/
structure Released (h : Host) : Prop where
  armed : ∀ n < h.registered, (h.timers n).stage = .armed → h.Active n
  ends : ∀ n < h.registered, ¬ h.Active n → (h.timers n).stage ≠ .done →
    ∃ a ∈ [Action.resume n,.endCall n], ∃ g, step h a = some g ∧
      (g.timers n).stage = .done ∧ g.pendingOps = h.pendingOps-1

structure Waits (h : Host) : Prop where
  ids : Ids h
  active : ∀ n < h.registered, (h.timers n).stage.waits = true → h.Active n

theorem waits_start : Waits start := ⟨ids_start,by simp [start]⟩

theorem cancelTimer_stage (h : Host) (id : ℤ) (n : ℕ) :
    ((h.cancelTimer id).timers n).stage =
      if h.activeTimers id = some n ∧ (h.timers n).stage = .armed then .ready
      else (h.timers n).stage := by
  cases ha : h.activeTimers id with
  | none => simp [Host.cancelTimer,ha]
  | some m =>
    simp only [Host.cancelTimer,ha,Host.interrupt]
    by_cases hm : n = m
    · subst hm
      split <;> simp_all [Host.setStage,Host.setTimer]
    · have hne : ¬ m = n := fun he => hm he.symm
      split <;> simp [Host.setStage,Host.setTimer,hm,hne]

theorem cancelTimer_posted (h : Host) (id : ℤ) (n : ℕ) :
    ((h.cancelTimer id).timers n).stage = .posted ↔ (h.timers n).stage = .posted := by
  rw [cancelTimer_stage]
  split
  · next hit => simp [hit.2]
  · rfl

theorem foldl_posted (h : Host) (ids : List ℤ) (n : ℕ) :
    ((ids.foldl Host.cancelTimer h).timers n).stage = .posted ↔ (h.timers n).stage = .posted := by
  induction ids generalizing h with
  | nil => rfl
  | cons id ids ih => rw [List.foldl_cons,ih,cancelTimer_posted]

theorem mem_clearedBy {h : Host} {ids : List ℤ} {n : ℕ} (hn : n ∈ clearedBy h ids) :
    ∃ id ∈ ids, h.activeTimers id = some n := by
  induction ids generalizing h with
  | nil => simp [clearedBy] at hn
  | cons id ids ih =>
    rcases List.mem_append.mp hn with hfound | hlater
    · exact ⟨id,by simp,by simpa using hfound⟩
    · obtain ⟨i,hi,hfound⟩ := ih hlater
      rw [(cancels h id).activeTimers,Function.update_apply] at hfound
      split at hfound
      · simp at hfound
      · exact ⟨i,by simp [hi],hfound⟩

theorem Waits.cancel {h : Host} (hw : Waits h) {id : ℤ}
    (hbegun : ∀ n, h.activeTimers id = some n → (h.timers n).stage ≠ .posted) :
    Waits (h.cancelTimer id) := by
  have hc := cancels h id
  refine ⟨hc.ids hw.ids,?_⟩
  intro n hn hstage
  rw [hc.others.1] at hn
  rw [cancelTimer_stage] at hstage
  split at hstage
  · simp [Stage.waits] at hstage
  · next hmiss =>
    have hactive := hw.active n hn hstage
    have hid : (h.timers n).id ≠ id := by
      intro he
      have hfound : h.activeTimers id = some n := he ▸ hactive
      have hposted := hbegun n hfound
      cases hs : (h.timers n).stage <;> simp_all [Stage.waits]
    rwa [Host.Active,(hc.same n).id,hc.activeTimers,Function.update_of_ne hid]

theorem Waits.cancelAll {h : Host} (hw : Waits h) {ids : List ℤ}
    (hbegun : ∀ n ∈ clearedBy h ids, (h.timers n).stage ≠ .posted) :
    Waits (ids.foldl Host.cancelTimer h) := by
  induction ids generalizing h with
  | nil => exact hw
  | cons id ids ih =>
    have hfirst : Waits (h.cancelTimer id) :=
      hw.cancel fun n hn => hbegun n (by simp [clearedBy,hn])
    refine ih hfirst fun n hn => ?_
    rw [Ne,cancelTimer_posted]
    exact hbegun n (List.mem_append_right _ hn)

theorem Waits.register {h : Host} (hw : Waits h) (hlimit : h.registered+1 < 2^31) (kind : Kind) :
    Waits (h.registerTimer kind) := by
  refine ⟨(hw.ids.register hlimit kind),?_⟩
  intro n hn hstage
  by_cases he : n = h.registered
  · subst he
    simp [Host.Active,Host.registerTimer,Host.setTimer]
  · have hlt : n < h.registered := by
      change n < h.registered+1 at hn
      omega
    have hsame := h.registerTimer_of_ne kind he
    rw [hsame] at hstage
    rw [Host.Active,hsame]
    exact (h.registerTimer_active kind (hw.ids.fresh hlimit hlt)).trans (hw.active n hlt hstage)

theorem Waits.change {h g : Host} (hw : Waits h) (hlimit : h.registered < 2^31) {n : ℕ}
    {t : Timer} (hn : n < h.registered) (htimers : g.timers = Function.update h.timers n t)
    (hid : t.id = (h.timers n).id)
    (hother : ∀ i, i ≠ (h.timers n).id → g.activeTimers i = h.activeTimers i)
    (hless : ∀ i m, g.activeTimers i = some m → h.activeTimers i = some m)
    (hothers : g.registered = h.registered ∧ g.nextTimerId = h.nextTimerId)
    (hactive : t.stage.waits = true → g.Active n) : Waits g := by
  refine ⟨hw.ids.change htimers hid hless hothers,?_⟩
  intro m hm hstage
  rw [hothers.1] at hm
  by_cases hmn : m = n
  · subst hmn
    rw [htimers,Function.update_self] at hstage
    exact hactive hstage
  · have hsame : g.timers m = h.timers m := by rw [htimers,Function.update_of_ne hmn]
    rw [hsame] at hstage
    have hapart : (h.timers m).id ≠ (h.timers n).id :=
      fun he => hmn (hw.ids.distinct hlimit hm hn he)
    rw [Host.Active,hsame,hother _ hapart]
    exact hw.active m hm hstage

theorem Waits.setStage {h : Host} (hw : Waits h) (hlimit : h.registered < 2^31) {n : ℕ}
    (hn : n < h.registered) {s : Stage} (hs : s.waits = true → h.Active n) :
    Waits (h.setStage n s) :=
  hw.change hlimit hn rfl rfl (fun _ _ => rfl) (fun _ _ => id) ⟨rfl,rfl⟩ fun hstage => by
    simpa [Host.Active,Host.setStage,Host.setTimer] using hs hstage

theorem Waits.finish {h : Host} (hw : Waits h) (hlimit : h.registered < 2^31) {n : ℕ}
    (hn : n < h.registered) : Waits (h.finish n) :=
  hw.change hlimit hn (t := { h.timers n with stage := .done }) rfl rfl (fun _ _ => rfl)
    (fun _ _ => id) ⟨rfl,rfl⟩ fun hstage => by simp [Stage.waits] at hstage

theorem Waits.resume {h : Host} (hw : Waits h) (hlimit : h.registered < 2^31) {n : ℕ}
    (hn : n < h.registered) : Waits (h.resume n) := by
  have hcall : ∀ g : Host, g.timers = h.timers → (∀ i, i ≠ (h.timers n).id →
      g.activeTimers i = h.activeTimers i) → (∀ i m, g.activeTimers i = some m →
      h.activeTimers i = some m) → g.registered = h.registered ∧ g.nextTimerId = h.nextTimerId →
      Waits (g.call n) := by
    intro g htimers hother hless hothers
    refine hw.change hlimit hn (t := { h.timers n with stage := .calling, calls :=
      (h.timers n).calls+1 }) ?_ rfl hother hless hothers fun hstage => ?_
    · simp [Host.call,Host.setTimer,htimers]
    · simp [Stage.waits] at hstage
  simp only [Host.resume]
  split
  · split
    · exact hw.finish hlimit hn
    · simp only [Host.eraseTimerIfActive]
      by_cases hactive : h.timerIsActive (h.timers n).id = true
      · simp only [hactive,if_true]
        refine hcall _ rfl (fun i hi => Function.update_of_ne hi _ _) ?_ ⟨rfl,rfl⟩
        intro i m hm
        change Function.update h.activeTimers (h.timers n).id none i = some m at hm
        rw [Function.update_apply] at hm
        split at hm
        · simp at hm
        · exact hm
      · simp only [hactive]
        exact hw.finish hlimit hn
  · split
    · exact hw.finish hlimit hn
    · exact hcall h rfl (fun _ _ => rfl) (fun _ _ => id) ⟨rfl,rfl⟩

theorem Waits.endCall {h : Host} (hw : Waits h) (hlimit : h.registered < 2^31) {n : ℕ}
    (hn : n < h.registered) : Waits (h.endCall n) := by
  simp only [Host.endCall]
  split
  · exact hw.finish hlimit hn
  · split
    · next hactive => exact hw.setStage hlimit hn fun _ => (hw.ids.isActive hlimit hn).mp hactive
    · exact hw.finish hlimit hn

theorem waits_step {h g : Host} {a : Action} (hw : Waits h) (hbegun : Begun h a)
    (hs : step h a = some g) (hlimit : g.registered < 2^31) : Waits g := by
  have hold : h.registered < 2^31 := Nat.lt_of_le_of_lt (registered_step hs) hlimit
  have hclears : ∀ ids, events h a = (clearedBy h ids).map .cleared →
      ∀ n ∈ clearedBy h ids, (h.timers n).stage ≠ .posted := by
    intro ids hevents n hn
    obtain ⟨id,-,hid⟩ := mem_clearedBy hn
    exact hbegun n (hw.ids.active id n hid).1 (by simp [hevents,hn])
  cases a with
  | setTimeout =>
    obtain rfl := Option.some.inj hs
    exact hw.register hlimit .timeout
  | setInterval =>
    obtain rfl := Option.some.inj hs
    exact hw.register hlimit .interval
  | clear id =>
    obtain rfl := Option.some.inj hs
    exact hw.cancelAll (hclears [id] rfl)
  | cancelAllTimers =>
    obtain rfl := Option.some.inj hs
    exact hw.cancelAll (hclears h.activeIds rfl)
  | shutdown =>
    obtain rfl := Option.some.inj hs
    exact ⟨⟨hw.ids.next,hw.ids.ids,hw.ids.active⟩,hw.active⟩
  | arm n =>
    obtain ⟨hn,hst,rfl⟩ := of_onTimer hs
    exact hw.setStage hold hn fun _ => hw.active n hn (by rw [hst]; rfl)
  | expire n =>
    obtain ⟨hn,-,rfl⟩ := of_onTimer hs
    exact hw.setStage hold hn fun hstage => by simp [Stage.waits] at hstage
  | resume n =>
    obtain ⟨hn,-,rfl⟩ := of_onTimer hs
    exact hw.resume hold hn
  | endCall n =>
    obtain ⟨hn,-,rfl⟩ := of_onTimer hs
    exact hw.endCall hold hn

theorem waits_run {h : Host} {as : List Action} (hbegun : Trace.Meets step Begun start as)
    (hs : run start as = some h) (hlimit : h.registered < 2^31) : Waits h := by
  have hall : h.registered < 2^31 → Waits h :=
    Trace.run_keeps_of_meets (I := fun h => h.registered < 2^31 → Waits h)
      (fun _ _ _ hw hb hstep hlim =>
        waits_step (hw (Nat.lt_of_le_of_lt (registered_step hstep) hlim)) hb hstep hlim)
      (fun _ => waits_start) hbegun hs
  exact hall hlimit

theorem Waits.released {h : Host} (hw : Waits h) (hlimit : h.registered < 2^31) : Released h := by
  refine ⟨fun n hn hstage => hw.active n hn (by rw [hstage]; rfl),?_⟩
  intro n hn hgone hdone
  have hnot : h.timerIsActive (h.timers n).id = false := by
    rw [← Bool.not_eq_true,hw.ids.isActive hlimit hn]
    exact hgone
  have hfinish : ((h.finish n).timers n).stage = .done := by
    simp [Host.finish,Host.setStage,Host.setTimer]
  cases hstage : (h.timers n).stage with
  | posted => exact absurd (hw.active n hn (by rw [hstage]; rfl)) hgone
  | armed => exact absurd (hw.active n hn (by rw [hstage]; rfl)) hgone
  | ready =>
    have hresume : h.resume n = h.finish n := by
      cases hkind : (h.timers n).kind <;>
        simp [Host.resume,Host.eraseTimerIfActive,hkind,hnot]
    exact ⟨.resume n,by simp,h.finish n,by simp [step,onTimer,hn,hstage,hresume],hfinish,rfl⟩
  | calling =>
    have hend : h.endCall n = h.finish n := by
      cases hkind : (h.timers n).kind <;> simp [Host.endCall,hkind,hnot]
    exact ⟨.endCall n,by simp,h.finish n,by simp [step,onTimer,hn,hstage,hend],hfinish,rfl⟩
  | done => exact absurd hstage hdone

/-- A clear of a timer whose coroutine has not begun leaves it out of the table and about
to wait. -/
theorem posted_of_breach {h g : Host} {a : Action} (hi : Ids h) (hb : ¬ Begun h a)
    (hs : step h a = some g) :
    ∃ n < g.registered, (g.timers n).stage = .posted ∧ ¬ g.Active n := by
  simp only [Begun,not_forall,not_not] at hb
  obtain ⟨n,hn,hcleared,hposted⟩ := hb
  have hclear : ∀ ids, events h a = (clearedBy h ids).map .cleared →
      g = ids.foldl Host.cancelTimer h →
      ∃ n < g.registered, (g.timers n).stage = .posted ∧ ¬ g.Active n := by
    rintro ids hevents rfl
    obtain ⟨hsame,hactive,hreg,-⟩ := cancels_foldl h ids
    have hmem : n ∈ clearedBy h ids := by simpa [hevents] using hcleared
    obtain ⟨id,hid,hfound⟩ := mem_clearedBy hmem
    refine ⟨n,by rwa [hreg],(foldl_posted h ids n).mpr hposted,?_⟩
    rw [Host.Active,(hsame n).id,hactive,(hi.active id n hfound).2,if_pos hid]
    simp
  cases a with
  | clear id => exact hclear [id] rfl (Option.some.inj hs).symm
  | cancelAllTimers => exact hclear h.activeIds rfl (Option.some.inj hs).symm
  | resume m =>
    simp only [events] at hcleared
    split at hcleared <;> simp at hcleared
  | _ => simp [events] at hcleared

theorem not_released_of_breach {h g : Host} {a : Action} (hi : Ids h) (hb : ¬ Begun h a)
    (hs : step h a = some g) : ∃ n u, step g (.arm n) = some u ∧ ¬ Released u := by
  obtain ⟨n,hn,hposted,hgone⟩ := posted_of_breach hi hb hs
  refine ⟨n,g.setStage n .armed,by simp [step,onTimer,hn,hposted],fun hr => hgone ?_⟩
  have hactive := hr.armed n hn (by simp [Host.setStage,Host.setTimer])
  simpa [Host.Active,Host.setStage,Host.setTimer] using hactive

theorem registered_run {h g : Host} {as : List Action} (hs : run h as = some g) :
    h.registered ≤ g.registered :=
  Trace.run_relates (R := fun h g : Host => h.registered ≤ g.registered)
    (fun _ => Nat.le_refl _) (fun _ _ _ => Nat.le_trans) (fun _ _ _ => registered_step) hs

theorem registered_arms {h g : Host} {cs : List Action} (hcs : ∀ a ∈ cs, ∃ n, a = .arm n)
    (hs : run h cs = some g) : g.registered = h.registered ∧ Trace.Meets step Begun h cs := by
  induction cs generalizing h with
  | nil =>
    obtain rfl : h = g := by simpa [run] using hs
    exact ⟨rfl,trivial⟩
  | cons a cs ih =>
    obtain ⟨u,hu,hr⟩ := Trace.run_cons.mp hs
    obtain ⟨n,rfl⟩ := hcs a (by simp)
    obtain ⟨hreg,hmeets⟩ := ih (fun b hb => hcs b (by simp [hb])) hr
    have hbegun : Begun h (.arm n) := fun m _ hm => by simp [events] at hm
    rw [Trace.meets_cons hu]
    obtain ⟨-,-,rfl⟩ := of_onTimer hu
    exact ⟨hreg,hbegun,hmeets⟩

/-- Along a run, and in the turns in which the coroutines posted in it begin, cleared timers
hold nothing, exactly if no clear found a timer whose coroutine had not begun. -/
theorem released_iff {h : Host} {as : List Action} (hs : run start as = some h)
    (hlimit : h.registered < 2^31) :
    Trace.Meets step Begun start as ↔ ∀ bs cs g, bs <+: as → (∀ a ∈ cs, ∃ n, a = .arm n) →
      run start (bs++cs) = some g → Released g := by
  constructor
  · rintro hmeets bs cs g ⟨rest,rfl⟩ hcs hg
    obtain ⟨t,ht,hrest⟩ := Trace.run_append.mp hs
    obtain ⟨t',ht',hg'⟩ := Trace.run_append.mp hg
    obtain rfl : t = t' := Option.some.inj (ht.symm.trans ht')
    obtain ⟨hreg,harms⟩ := registered_arms hcs hg'
    have hlimit' : g.registered < 2^31 :=
      hreg ▸ Nat.lt_of_le_of_lt (registered_run hrest) hlimit
    have hbs := ((Trace.meets_append ht).mp hmeets).1
    exact (waits_run ((Trace.meets_append ht).mpr ⟨hbs,harms⟩) hg hlimit').released hlimit'
  · intro hall
    by_contra hmeets
    obtain ⟨bs,a,cs,t,v,rfl,hbs,hbefore,hbreach,hstep,hcs⟩ := Trace.exists_first_breach hs hmeets
    have hreg : t.registered ≤ h.registered :=
      Nat.le_trans (registered_step hstep) (registered_run hcs)
    have hids := (waits_run hbefore hbs (Nat.lt_of_le_of_lt hreg hlimit)).ids
    obtain ⟨n,u,hu,hnot⟩ := not_released_of_breach hids hbreach hstep
    refine hnot (hall (bs++[a]) [.arm n] u ⟨cs,by simp⟩ (by simp) ?_)
    have hv : run start (bs++[a]) = some v := Trace.run_append.mpr ⟨t,hbs,by simp [Trace.run,hstep]⟩
    exact Trace.run_append.mpr ⟨v,hv,by simp [Trace.run,hu]⟩

def clearedWait : List Action := [.setTimeout,.arm 0,.clear 1]

theorem released_iff_sample : Released ((run start clearedWait).get rfl) :=
  have hs : run start clearedWait = some ((run start clearedWait).get rfl) := rfl
  (released_iff hs (by decide)).mp (by decide) clearedWait [] _ ⟨[],rfl⟩ (by simp) rfl

/-- `clearTimeout` in the turn of its `setTimeout`. -/
theorem cleared_before_begun : ¬ ∀ as h, run start as = some h → Released h := by
  intro hall
  have hactive := (hall [.setTimeout,.clear 1,.arm 0] _ rfl).armed 0 (by decide) (by decide)
  unfold Host.Active at hactive
  exact absurd hactive (by decide)

end HostTimers
end AsioQuickjs
