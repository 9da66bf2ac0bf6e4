import AsioQuickjs.TimerGuarantees

/-! What the timers add to `pending_ops`: one for each coroutine that has not ended. Until
the host stops, every timer in the table has such a coroutine. -/
namespace AsioQuickjs
namespace HostTimers

variable {h g : Host}

def timerShare (h : Host) (n : ℕ) : ℤ :=
  if n < h.registered ∧ (h.timers n).stage ≠ .done then 1 else 0

theorem done_of_same {t u : Timer} (hs : Same t u) : u.stage = .done ↔ t.stage = .done := by
  have hwaiting := hs.waiting
  have hcalling := hs.calling
  cases ht : t.stage <;> cases hu : u.stage <;> simp_all [Stage.waiting]

/-- One holder's share and the counter change alike. -/
def Moves (h g : Host) (n : ℕ) : Prop :=
  (∀ i, i ≠ n → timerShare g i = timerShare h i) ∧
    g.pendingOps-h.pendingOps = timerShare g n-timerShare h n

theorem moves_of_timers {n : ℕ} {t : Timer}
    (htimers : g.timers = Function.update h.timers n t) (hreg : g.registered = h.registered)
    (hcount : g.pendingOps-h.pendingOps = (if n < h.registered ∧ t.stage ≠ .done then 1 else 0)-
      timerShare h n) : Moves h g n := by
  refine ⟨fun i hi => ?_,?_⟩
  · simp only [timerShare,hreg,htimers,Function.update_of_ne hi]
  · rw [hcount]
    simp [timerShare,hreg,htimers]

theorem moves_finish {n : ℕ} (hn : n < h.registered) (hstage : (h.timers n).stage ≠ .done) :
    Moves h (h.finish n) n := by
  refine moves_of_timers (t := { h.timers n with stage := .done }) rfl rfl ?_
  simp [timerShare,hn,hstage,Host.finish]

theorem moves_setStage {n : ℕ} {s : Stage} (hn : n < h.registered)
    (hstage : (h.timers n).stage ≠ .done) (hs : s ≠ .done) : Moves h (h.setStage n s) n := by
  refine moves_of_timers (t := { h.timers n with stage := s }) rfl rfl ?_
  simp [timerShare,hn,hstage,hs,Host.setStage,Host.setTimer]

theorem moves_call {n : ℕ} (hn : n < h.registered) (hstage : (h.timers n).stage ≠ .done)
    (m : ℤ → Option ℕ) : Moves h ({ h with activeTimers := m }.call n) n := by
  refine moves_of_timers
    (t := { h.timers n with stage := .calling, calls := (h.timers n).calls+1 }) rfl rfl ?_
  simp [timerShare,hn,hstage,Host.call,Host.setTimer]

theorem moves_resume {n : ℕ} (hn : n < h.registered) (hstage : (h.timers n).stage = .ready) :
    Moves h (h.resume n) n := by
  have hne : (h.timers n).stage ≠ .done := by simp [hstage]
  simp only [Host.resume,Host.eraseTimerIfActive]
  split
  · split
    · exact moves_finish hn hne
    · by_cases hactive : h.timerIsActive (h.timers n).id = true
      · simp only [hactive,if_true]
        exact moves_call hn hne _
      · simp only [hactive]
        exact moves_finish hn hne
  · split
    · exact moves_finish hn hne
    · exact moves_call hn hne h.activeTimers

theorem moves_endCall {n : ℕ} (hn : n < h.registered) (hstage : (h.timers n).stage = .calling) :
    Moves h (h.endCall n) n := by
  have hne : (h.timers n).stage ≠ .done := by simp [hstage]
  simp only [Host.endCall]
  split
  · exact moves_finish hn hne
  · split
    · exact moves_setStage hn hne (by simp)
    · exact moves_finish hn hne

theorem moves_cancel (ids : List ℤ) (n : ℕ) :
    Moves h (ids.foldl Host.cancelTimer h) n := by
  obtain ⟨hsame,-,hreg,-,hops⟩ := cancels_foldl h ids
  have hshare : ∀ i, timerShare (ids.foldl Host.cancelTimer h) i = timerShare h i :=
    fun i => by simp only [timerShare,hreg,ne_eq,done_of_same (hsame i)]
  refine ⟨fun i _ => hshare i,?_⟩
  rw [hshare,hops]
  omega

theorem moves_register (kind : Kind) : Moves h (h.registerTimer kind) h.registered := by
  refine ⟨fun i hi => ?_,?_⟩
  · have hlt : i < h.registered+1 ↔ i < h.registered := by omega
    simp [timerShare,Host.registerTimer,Host.setTimer,
      Function.update_of_ne hi,hlt]
  · simp [timerShare,Host.registerTimer,Host.setTimer]

theorem moves_step {a : Action} (hs : step h a = some g) :
    ∃ n, Moves h g n := by
  cases a with
  | setTimeout =>
    cases hs
    exact ⟨_,moves_register _⟩
  | setInterval =>
    cases hs
    exact ⟨_,moves_register _⟩
  | clear id =>
    cases hs
    exact ⟨0,moves_cancel [id] 0⟩
  | cancelAllTimers =>
    cases hs
    exact ⟨0,moves_cancel h.activeIds 0⟩
  | shutdown =>
    cases hs
    exact ⟨0,fun _ _ => rfl,by simp [timerShare]⟩
  | arm n =>
    obtain ⟨hn,hst,rfl⟩ := of_onTimer hs
    exact ⟨n,moves_setStage hn (by simp [hst]) (by simp)⟩
  | expire n =>
    obtain ⟨hn,hst,rfl⟩ := of_onTimer hs
    exact ⟨n,moves_setStage hn (by simp [hst]) (by simp)⟩
  | resume n =>
    obtain ⟨hn,hst,rfl⟩ := of_onTimer hs
    exact ⟨n,moves_resume hn hst⟩
  | endCall n =>
    obtain ⟨hn,hst,rfl⟩ := of_onTimer hs
    exact ⟨n,moves_endCall hn hst⟩

/-- Who is in the table has a coroutine that is going to look at it, until the host stops. -/
structure Kept (h : Host) : Prop where
  known : ∀ id n, h.activeTimers id = some n → n < h.registered
  awaits : h.stopping = false → ∀ n, h.Active n → (h.timers n).awaits

theorem Kept.change (hk : Kept h) {n : ℕ} {t : Timer}
    (htimers : g.timers = Function.update h.timers n t) (hid : t.id = (h.timers n).id)
    (hless : ∀ i m, g.activeTimers i = some m → h.activeTimers i = some m)
    (hothers : g.registered = h.registered ∧ g.stopping = h.stopping)
    (hn : h.stopping = false → h.Active n → g.Active n → t.awaits) : Kept g := by
  have hids := id_of_update htimers hid
  refine ⟨fun id m hm => ?_,fun hstop m hm => ?_⟩
  · rw [hothers.1]
    exact hk.known id m (hless id m hm)
  · rw [hothers.2] at hstop
    have hold : h.Active m := by
      have hm' := hless _ _ hm
      rwa [hids] at hm'
    by_cases hmn : m = n
    · subst hmn
      rw [htimers,Function.update_self]
      exact hn hstop hold hm
    · rw [htimers,Function.update_of_ne hmn]
      exact hk.awaits hstop m hold

theorem Kept.finish (hk : Kept h) {n : ℕ}
    (hn : h.stopping = false → ¬ h.Active n) : Kept (h.finish n) :=
  hk.change (t := { h.timers n with stage := .done }) rfl rfl (fun _ _ => id) ⟨rfl,rfl⟩
    fun hstop hactive => absurd hactive (hn hstop)

theorem Kept.setStage (hk : Kept h) {n : ℕ} {s : Stage} (hs : s.waiting = true) :
    Kept (h.setStage n s) :=
  hk.change (t := { h.timers n with stage := s }) rfl rfl (fun _ _ => id) ⟨rfl,rfl⟩
    fun _ _ _ => .inl hs

theorem not_active {n : ℕ} (hn : ¬ h.timerIsActive (h.timers n).id = true) : ¬ h.Active n := by
  intro hactive
  rw [Host.Active] at hactive
  simp [Host.timerIsActive,hactive] at hn

theorem Kept.resume (hk : Kept h) (n : ℕ) : Kept (h.resume n) := by
  cases hkind : (h.timers n).kind <;>
    simp only [Host.resume,hkind,Host.eraseTimerIfActive]
  case timeout =>
    split
    · next hstop => exact hk.finish fun h' => by simp [hstop] at h'
    · by_cases hactive : h.timerIsActive (h.timers n).id = true
      · simp only [hactive,if_true]
        refine hk.change (n := n)
          (t := { h.timers n with stage := .calling, calls := (h.timers n).calls+1 }) rfl rfl
          (fun i m hm => ?_) ⟨rfl,rfl⟩ fun _ _ hgone => ?_
        · change Function.update h.activeTimers (h.timers n).id none i = some m at hm
          by_cases hi : i = (h.timers n).id
          · simp [hi] at hm
          · rwa [Function.update_of_ne hi] at hm
        · simp [Host.Active,Host.call,Host.setTimer] at hgone
      · simp only [hactive]
        exact hk.finish fun _ => not_active hactive
  case interval =>
    split
    · next hgone =>
      refine hk.finish fun hstop => not_active ?_
      simpa [hstop] using hgone
    · exact hk.change (t := { h.timers n with
        stage := .calling, calls := (h.timers n).calls+1 }) rfl rfl (fun _ _ => id) ⟨rfl,rfl⟩
        fun _ _ _ => .inr ⟨hkind,rfl⟩

theorem Kept.endCall (hk : Kept h) {n : ℕ} (hstage : (h.timers n).stage = .calling) :
    Kept (h.endCall n) := by
  cases hkind : (h.timers n).kind <;> simp only [Host.endCall,hkind]
  case timeout =>
    refine hk.finish fun hstop hactive => ?_
    have hawaits := hk.awaits hstop n hactive
    simp [Timer.awaits,hstage,hkind,Stage.waiting] at hawaits
  case interval =>
    split
    · exact hk.setStage rfl
    · next hactive => exact hk.finish fun _ => not_active hactive

theorem Kept.cancel (hk : Kept h) (ids : List ℤ) :
    Kept (ids.foldl Host.cancelTimer h) := by
  obtain ⟨hsame,hactive,hreg,hstop,-⟩ := cancels_foldl h ids
  have hless : ∀ i m, (ids.foldl Host.cancelTimer h).activeTimers i = some m →
      h.activeTimers i = some m := fun i m hm => by
    rw [hactive] at hm
    split at hm
    · cases hm
    · exact hm
  refine ⟨fun id m hm => ?_,fun hst m hm => ?_⟩
  · rw [hreg]
    exact hk.known id m (hless id m hm)
  · rw [hstop] at hst
    rw [(hsame m).awaits]
    have hm' := hless _ _ hm
    rw [(hsame m).id] at hm'
    exact hk.awaits hst m hm'

theorem Kept.register (hk : Kept h) (kind : Kind) : Kept (h.registerTimer kind) := by
  refine ⟨fun id m hm => ?_,fun hst m hm => ?_⟩
  · change Function.update h.activeTimers h.nextTimerId _ id = some m at hm
    change m < h.registered+1
    rw [Function.update_apply] at hm
    split at hm
    · simp only [Option.some.injEq] at hm
      omega
    · exact Nat.lt_succ_of_lt (hk.known id m hm)
  · by_cases hnew : m = h.registered
    · subst hnew
      exact .inl (by rw [Host.registerTimer_new]; rfl)
    · have hold := h.registerTimer_of_ne kind hnew
      rw [Host.Active,hold] at hm
      change Function.update h.activeTimers h.nextTimerId _ _ = some m at hm
      rw [hold]
      rw [Function.update_apply] at hm
      split at hm
      · exact absurd (Option.some.inj hm).symm hnew
      · exact hk.awaits hst m hm

theorem kept_step {a : Action} (hk : Kept h) (hs : step h a = some g) :
    Kept g := by
  cases a with
  | setTimeout =>
    cases hs
    exact hk.register _
  | setInterval =>
    cases hs
    exact hk.register _
  | clear id =>
    cases hs
    exact hk.cancel [id]
  | cancelAllTimers =>
    cases hs
    exact hk.cancel h.activeIds
  | shutdown =>
    cases hs
    exact ⟨hk.known,by simp⟩
  | arm n =>
    obtain ⟨-,-,rfl⟩ := of_onTimer hs
    exact hk.setStage rfl
  | expire n =>
    obtain ⟨-,-,rfl⟩ := of_onTimer hs
    exact hk.setStage rfl
  | resume n =>
    obtain ⟨-,-,rfl⟩ := of_onTimer hs
    exact hk.resume n
  | endCall n =>
    obtain ⟨-,hst,rfl⟩ := of_onTimer hs
    exact hk.endCall hst

end HostTimers
end AsioQuickjs
