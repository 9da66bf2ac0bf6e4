import AsioQuickjs.Tally
import AsioQuickjs.TimerTally

/-! `pending_ops`, which keeps `run_loop` running while a callback or a settlement is still
to come. Every native that JavaScript starts counts itself in and out, but `__nativeOpendir`
does neither. -/
namespace AsioQuickjs
namespace LoopAlive

open HostTimers (Kept timerShare kept_step moves_step)

/-- What `call` of an async function, `__nativeFetch` and the callback natives of `fs.cpp`
start. A `__nativeWriteFile` is one that was given a callback. -/
inductive OpKind
  | asyncCall | fetch | readFile | writeFile | opendir
  deriving DecidableEq

/-- Posted to the executor or to the file threads, at work there, with its delivery posted
to the loop, in the callback or the settlement, at its end. `lost` is an async call that
died of an exception no clause of `handle_async_call` catches. -/
inductive OpStage
  | unset | posted | working | ready | calling | done | lost
  deriving DecidableEq

structure Op where
  kind : OpKind := .asyncCall
  stage : OpStage := .unset
  deriving DecidableEq

/-- `others` are the operations of the host that no native of these started, `jobPending`
is `rt.job_pending()`. -/
structure Host extends HostTimers.Host where
  ops : ℕ → Op := fun _ => {}
  started : ℕ := 0
  others : ℕ := 0
  jobPending : Bool := false
  httpActive : Bool := false
  exited : Bool := false

namespace Host

def addPendingOps (s : Host) (d : ℤ) : Host := { s with pendingOps := s.pendingOps+d }

def spawn (s : Host) (kind : OpKind) : Host :=
  { s with
    ops := Function.update s.ops s.started { kind := kind, stage := .posted }
    started := s.started+1 }

def nativeCall (s : Host) : Host := (s.addPendingOps 1).spawn .asyncCall
def nativeFetch (s : Host) : Host := (s.addPendingOps 1).spawn .fetch
def nativeReadFile (s : Host) : Host := (s.addPendingOps 1).spawn .readFile
def nativeWriteFile (s : Host) : Host := (s.addPendingOps 1).spawn .writeFile
def nativeOpendir (s : Host) : Host := s.spawn .opendir

def setOp (s : Host) (k : ℕ) (stage : OpStage) : Host :=
  { s with ops := Function.update s.ops k { s.ops k with stage := stage } }

def endDelivery (s : Host) (k : ℕ) : Host :=
  match (s.ops k).kind with
  | .opendir => s.setOp k .done
  | _ => (s.setOp k .done).addPendingOps (-1)

end Host

inductive Action
  | timer (a : HostTimers.Action)
  | call | fetch | readFile | writeFile | opendir
  | work (k : ℕ) | complete (k : ℕ) | deliver (k : ℕ) | endDelivery (k : ℕ) | lose (k : ℕ)
  | otherBegin | otherEnd | jobs (pending : Bool) | http (active : Bool) | exit
  deriving DecidableEq

/-- A step of the operation `k`, which is at the stage. -/
def onOp (s : Host) (k : ℕ) (stage : OpStage) (t : Host) : Option Host :=
  if k < s.started ∧ (s.ops k).stage = stage then some t else none

/-- The test of `run_loop` between two handlers. -/
def exit (s : Host) : Option Host :=
  if s.pendingOps = 0 ∧ s.jobPending = false ∧ s.httpActive = false then
    some { s with exited := true }
  else none

def move (s : Host) : Action → Option Host
  | .timer a => (HostTimers.step s.toHost a).map fun g => { s with toHost := g }
  | .call => some s.nativeCall
  | .fetch => some s.nativeFetch
  | .readFile => some s.nativeReadFile
  | .writeFile => some s.nativeWriteFile
  | .opendir => some s.nativeOpendir
  | .work k => onOp s k .posted (s.setOp k .working)
  | .complete k => onOp s k .working (s.setOp k .ready)
  | .deliver k => onOp s k .ready (s.setOp k .calling)
  | .endDelivery k => onOp s k .calling (s.endDelivery k)
  | .lose k =>
    if (s.ops k).kind = .asyncCall then onOp s k .working (s.setOp k .lost) else none
  | .otherBegin => some { s.addPendingOps 1 with others := s.others+1 }
  | .otherEnd =>
    if 0 < s.others then some { s.addPendingOps (-1) with others := s.others-1 } else none
  | .jobs pending => some { s with jobPending := pending }
  | .http active => some { s with httpActive := active }
  | .exit => exit s

/-- The file threads go on when `run_loop` has returned. -/
def Action.onLoop : Action → Bool
  | .work _ | .complete _ => false
  | _ => true

def step (s : Host) (a : Action) : Option Host :=
  if a.onLoop && s.exited then none else move s a

def start : Host := {}

inductive Holder
  | timer (n : ℕ) | op (k : ℕ) | others
  deriving DecidableEq

def Op.share (x : Op) : ℤ :=
  if x.kind = .opendir ∨ x.stage = .unset ∨ x.stage = .done then 0 else 1

def share (s : Host) : Holder → ℤ
  | .timer n => timerShare s.toHost n
  | .op k => (s.ops k).share
  | .others => s.others

theorem share_nonneg (s : Host) (x : Holder) : 0 ≤ share s x := by
  cases x <;> simp only [share,timerShare,Op.share]
  case others => exact Int.natCast_nonneg _
  all_goals split <;> simp

structure Inv (s : Host) : Prop where
  counted : Tally.Counts (share s) s.pendingOps
  kept : Kept s.toHost
  unset : ∀ k, s.started ≤ k → (s.ops k).stage = .unset

theorem inv_start : Inv start := by
  refine ⟨.none ?_,⟨?_,?_⟩,fun _ _ => rfl⟩
  · rintro (n | k | _) <;> simp [share,timerShare,Op.share,start]
  · simp [start]
  · simp [start,HostTimers.Host.Active]

theorem Inv.change {s t : Host} (hi : Inv s) {k : ℕ} {x : Op}
    (hops : t.ops = Function.update s.ops k x) (hk : k < t.started)
    (hstarted : s.started ≤ t.started) (hothers : t.others = s.others)
    (htimers : t.toHost = { s.toHost with
      pendingOps := s.pendingOps+(x.share-(s.ops k).share) }) : Inv t := by
  have hshare : ∀ n, timerShare t.toHost n = timerShare s.toHost n := fun n => by
    rw [htimers]
    rfl
  refine ⟨hi.counted.move (.op k) ?_ ?_,?_,fun i hi' => ?_⟩
  · rintro (n | i | _) hne
    · exact hshare n
    · have hik : i ≠ k := fun he => hne (by rw [he])
      simp only [share,hops,Function.update_of_ne hik]
    · simp only [share,hothers]
  · rw [htimers]
    simp only [share,hops,Function.update_self]
    omega
  · rw [htimers]
    exact ⟨hi.kept.known,hi.kept.awaits⟩
  · rw [hops,Function.update_of_ne (by omega)]
    exact hi.unset i (by omega)

theorem Inv.setOp {s : Host} (hi : Inv s) {k : ℕ} {stage : OpStage} (hk : k < s.started)
    (hold : (s.ops k).stage ≠ .unset ∧ (s.ops k).stage ≠ .done)
    (hnew : stage ≠ .unset ∧ stage ≠ .done) : Inv (s.setOp k stage) := by
  refine hi.change (x := { s.ops k with stage := stage }) rfl hk (Nat.le_refl _) rfl ?_
  simp [Host.setOp,Op.share,hold,hnew]

theorem Inv.spawn {s : Host} (hi : Inv s) {kind : OpKind} (hkind : kind ≠ .opendir) :
    Inv ((s.addPendingOps 1).spawn kind) := by
  have hunset := hi.unset s.started (Nat.le_refl _)
  refine hi.change (k := s.started) (x := { kind := kind, stage := .posted }) rfl
    (Nat.lt_succ_self _) (Nat.le_succ _) rfl ?_
  simp [Host.spawn,Host.addPendingOps,Op.share,hkind,hunset]

theorem Inv.opendir {s : Host} (hi : Inv s) : Inv s.nativeOpendir := by
  have hunset := hi.unset s.started (Nat.le_refl _)
  refine hi.change (k := s.started) (x := { kind := .opendir, stage := .posted }) rfl
    (Nat.lt_succ_self _) (Nat.le_succ _) rfl ?_
  simp [Host.nativeOpendir,Host.spawn,Op.share,hunset]

theorem Inv.endDelivery {s : Host} (hi : Inv s) {k : ℕ} (hk : k < s.started)
    (hstage : (s.ops k).stage = .calling) : Inv (s.endDelivery k) := by
  cases hkind : (s.ops k).kind with
  | opendir =>
    have hend : s.endDelivery k = s.setOp k .done := by simp [Host.endDelivery,hkind]
    rw [hend]
    refine hi.change (x := { s.ops k with stage := .done }) rfl hk (Nat.le_refl _) rfl ?_
    simp [Host.setOp,Op.share,hkind]
  | _ =>
    have hend : s.endDelivery k = (s.setOp k .done).addPendingOps (-1) := by
      simp [Host.endDelivery,hkind]
    rw [hend]
    refine hi.change (x := { s.ops k with stage := .done }) rfl hk (Nat.le_refl _) rfl ?_
    simp [Host.setOp,Host.addPendingOps,Op.share,hkind,hstage]

theorem Inv.timer {s : Host} (hi : Inv s) {a : HostTimers.Action} {g : HostTimers.Host}
    (hg : HostTimers.step s.toHost a = some g) : Inv { s with toHost := g } := by
  obtain ⟨n,hframe,hcount⟩ := moves_step hg
  refine ⟨hi.counted.move (.timer n) ?_ hcount,kept_step hi.kept hg,hi.unset⟩
  rintro (i | k | _) hne
  · exact hframe i fun he => hne (by rw [he])
  · rfl
  · rfl

theorem Inv.other {s : Host} (hi : Inv s) (n : ℕ) :
    Inv { s.addPendingOps (n-s.others : ℤ) with others := n } := by
  refine ⟨hi.counted.move .others ?_ ?_,⟨hi.kept.known,hi.kept.awaits⟩,hi.unset⟩
  · rintro (i | k | _) hne
    · rfl
    · rfl
    · exact absurd rfl hne
  · simp [Host.addPendingOps,share]

theorem inv_step {s t : Host} {a : Action} (hi : Inv s) (hs : step s a = some t) : Inv t := by
  simp only [step,Option.ite_none_left_eq_some] at hs
  obtain ⟨-,hs⟩ := hs
  have hop : ∀ k st u, onOp s k st u = some t →
      k < s.started ∧ (s.ops k).stage = st ∧ u = t := fun k st u hu => by
    simp only [onOp,Option.ite_none_right_eq_some,Option.some.injEq] at hu
    exact ⟨hu.1.1,hu.1.2,hu.2⟩
  cases a <;> simp only [move] at hs
  case timer a =>
    obtain ⟨g,hg,rfl⟩ := Option.map_eq_some_iff.mp hs
    exact hi.timer hg
  case call =>
    cases hs
    exact hi.spawn (by simp)
  case fetch =>
    cases hs
    exact hi.spawn (by simp)
  case readFile =>
    cases hs
    exact hi.spawn (by simp)
  case writeFile =>
    cases hs
    exact hi.spawn (by simp)
  case opendir =>
    cases hs
    exact hi.opendir
  case work k =>
    obtain ⟨hk,hst,rfl⟩ := hop _ _ _ hs
    exact hi.setOp hk (by simp [hst]) (by simp)
  case complete k =>
    obtain ⟨hk,hst,rfl⟩ := hop _ _ _ hs
    exact hi.setOp hk (by simp [hst]) (by simp)
  case deliver k =>
    obtain ⟨hk,hst,rfl⟩ := hop _ _ _ hs
    exact hi.setOp hk (by simp [hst]) (by simp)
  case endDelivery k =>
    obtain ⟨hk,hst,rfl⟩ := hop _ _ _ hs
    exact hi.endDelivery hk hst
  case lose k =>
    split at hs
    · obtain ⟨hk,hst,rfl⟩ := hop _ _ _ hs
      exact hi.setOp hk (by simp [hst]) (by simp)
    · cases hs
  case otherBegin =>
    cases hs
    simpa using hi.other (s.others+1)
  case otherEnd =>
    simp only [Option.ite_none_right_eq_some,Option.some.injEq] at hs
    obtain ⟨hpos,rfl⟩ := hs
    have hd : ((s.others-1 : ℕ) : ℤ)-s.others = -1 := by omega
    simpa [hd] using hi.other (s.others-1)
  case jobs =>
    cases hs
    exact ⟨hi.counted,hi.kept,hi.unset⟩
  case http =>
    cases hs
    exact ⟨hi.counted,hi.kept,hi.unset⟩
  case exit =>
    simp only [exit,Option.ite_none_right_eq_some,Option.some.injEq] at hs
    obtain ⟨-,rfl⟩ := hs
    exact ⟨hi.counted,hi.kept,hi.unset⟩

def Op.Outstanding (x : Op) : Prop := x.stage ≠ .unset ∧ x.stage ≠ .done

/-- In the table of a host that goes on, or in its callback. A stop cancels every timer. -/
def TimerOutstanding (h : HostTimers.Host) (n : ℕ) : Prop :=
  n < h.registered ∧ (h.stopping = false ∧ h.Active n ∨ (h.timers n).stage = .calling)

/-- Some native has returned whose callback or settlement is still to come. -/
def Outstanding (s : Host) : Prop :=
  (∃ n, TimerOutstanding s.toHost n) ∨ ∃ k, (s.ops k).Outstanding

/-- Nothing outstanding lets the loop return. -/
def Outlives (s : Host) : Prop := Outstanding s → 0 < s.pendingOps ∧ exit s = none

/-- An `opendir` is outstanding only in the company of something that counts: a timer
coroutine, another native, another operation of the host. -/
def Accompanied (s : Host) : Prop :=
  (∃ k, (s.ops k).kind = .opendir ∧ (s.ops k).Outstanding) →
    (∃ n < s.registered, (s.timers n).stage ≠ .done) ∨
    (∃ k, (s.ops k).kind ≠ .opendir ∧ (s.ops k).Outstanding) ∨ 0 < s.others

theorem exit_none {s : Host} (h : 0 < s.pendingOps) : exit s = none := by
  simp only [exit,ite_eq_right_iff]
  omega

theorem share_op {s : Host} {k : ℕ} :
    0 < share s (.op k) ↔ (s.ops k).kind ≠ .opendir ∧ (s.ops k).Outstanding := by
  simp only [share,Op.share,Op.Outstanding]
  split <;> simp_all
  tauto

theorem share_timer {s : Host} {n : ℕ} :
    0 < share s (.timer n) ↔ n < s.registered ∧ (s.timers n).stage ≠ .done := by
  simp only [share,timerShare]
  split <;> simp_all

theorem stage_of_awaits {t : HostTimers.Timer} (h : t.awaits) : t.stage ≠ .done := by
  rintro he
  simp [HostTimers.Timer.awaits,he,HostTimers.Stage.waiting] at h

/-- In every state a run reaches, the loop outlives what is outstanding exactly if no
`opendir` is alone. -/
theorem outlives_iff {as : List Action} {s : Host} (hs : Trace.run step start as = some s) :
    Outlives s ↔ Accompanied s := by
  have hi : Inv s := Trace.run_keeps (fun _ _ _ hi hstep => inv_step hi hstep) inv_start hs
  have hcount : ∀ x, 0 < share s x → 0 < s.pendingOps := fun x hx =>
    hi.counted.pos (share_nonneg s) hx
  constructor
  · rintro houtlives ⟨k,-,hk⟩
    have hpos := (houtlives (.inr ⟨k,hk⟩)).1
    by_contra hnone
    simp only [not_or,not_exists,not_and,not_lt,Nat.le_zero] at hnone
    obtain ⟨htimers,hops,hothers⟩ := hnone
    have hzero := hi.counted.eq_zero fun x => by
      refine le_antisymm (not_lt.mp fun hx => ?_) (share_nonneg s x)
      cases x with
      | timer n =>
        obtain ⟨hn,hst⟩ := share_timer.mp hx
        exact htimers n hn hst
      | op k =>
        obtain ⟨hkind,hout⟩ := share_op.mp hx
        exact hops k hkind hout
      | others => simp [share,hothers] at hx
    omega
  · intro hacc hout
    suffices hpos : 0 < s.pendingOps from ⟨hpos,exit_none hpos⟩
    rcases hout with ⟨n,hn,hcase⟩ | ⟨k,hk⟩
    · refine hcount (.timer n) (share_timer.mpr ⟨hn,?_⟩)
      rcases hcase with ⟨hstop,hactive⟩ | hcalling
      · exact stage_of_awaits (hi.kept.awaits hstop n hactive)
      · simp [hcalling]
    · by_cases hkind : (s.ops k).kind = .opendir
      · rcases hacc ⟨k,hkind,hk⟩ with ⟨n,hn,hst⟩ | ⟨i,hikind,hiout⟩ | hothers
        · exact hcount (.timer n) (share_timer.mpr ⟨hn,hst⟩)
        · exact hcount (.op i) (share_op.mpr ⟨hikind,hiout⟩)
        · exact hcount .others (by simpa [share] using hothers)
      · exact hcount (.op k) (share_op.mpr ⟨hkind,hk⟩)

theorem outlives_iff_sample :
    ∃ s, Trace.run step start [.opendir,.readFile,.work 0,.complete 0] = some s ∧ Outlives s := by
  refine ⟨_,rfl,?_⟩
  refine (outlives_iff (show Trace.run step start [.opendir,.readFile,.work 0,.complete 0] =
    some _ from rfl)).mpr fun _ => .inr (.inl ⟨1,by decide,?_⟩)
  constructor <;> decide

/-- The loop never returns too early. -/
def LoopOutlives : Prop := ∀ as s, Trace.run step start as = some s → Outlives s

/-- An `opendir` alone: the loop returns while the directory is being opened. -/
theorem not_loopOutlives : ¬ LoopOutlives := by
  intro hpromise
  have hpos := (hpromise [.opendir] _ rfl (.inr ⟨0,by constructor <;> decide⟩)).1
  exact absurd hpos (by decide)

end LoopAlive
end AsioQuickjs
