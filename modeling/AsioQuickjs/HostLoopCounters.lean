import AsioQuickjs.HostLoop
import AsioQuickjs.Tally

/-! The counters of a host and who holds a share of them. A step that changes one
holder's share and the counters by as much keeps them right. -/
namespace AsioQuickjs
namespace HostLoop

def JobStage.ops : JobStage → ℤ
  | .spawned | .loaded | .calling | .awaiting | .settled _ | .answering _ | .replied
  | .released => 1
  | _ => 0

def JobStage.flight : JobStage → ℤ
  | .spawned | .loaded | .calling | .awaiting | .settled _ | .answering _ | .replied => 1
  | _ => 0

def JobStage.depth : JobStage → ℤ
  | .loaded | .calling | .answering _ | .replied | .released | .counted => 1
  | _ => 0

def TimerStage.ops : TimerStage → ℤ
  | .posted | .armed | .ready | .calling => 1
  | _ => 0

def TimerStage.depth : TimerStage → ℤ
  | .calling => 1
  | _ => 0

inductive Holder
  | job (j : ℕ) | timer (k : ℕ) | dispatcher | others
  deriving DecidableEq

def opShare (h : Host) : Holder → ℤ
  | .job j => (h.stage j).ops
  | .timer k => (h.timers k).stage.ops
  | .dispatcher => if h.dispatcher = .done then 0 else 1
  | .others => h.otherOps

def flightShare (h : Host) : Holder → ℤ
  | .job j => (h.stage j).flight
  | _ => 0

def depthShare (h : Host) : Holder → ℤ
  | .job j => (h.stage j).depth
  | .timer k => (h.timers k).stage.depth
  | _ => 0

structure Counted (h : Host) : Prop where
  pendingOps : Tally.Counts (opShare h) h.pendingOps
  inFlight : Tally.Counts (flightShare h) h.inFlight
  depth : Tally.Counts (depthShare h) h.depth

theorem opShare_nonneg (h : Host) (x : Holder) : 0 ≤ opShare h x := by
  rcases x with j | k | _ | _
  · cases hs : h.stage j <;> simp [opShare,hs,JobStage.ops]
  · cases hs : (h.timers k).stage <;> simp [opShare,hs,TimerStage.ops]
  · simp only [opShare]
    split <;> simp
  · simp [opShare]

theorem depthShare_nonneg (h : Host) (x : Holder) : 0 ≤ depthShare h x := by
  rcases x with j | k | _ | _
  · cases hs : h.stage j <;> simp [depthShare,hs,JobStage.depth]
  · cases hs : (h.timers k).stage <;> simp [depthShare,hs,TimerStage.depth]
  · simp [depthShare]
  · simp [depthShare]

theorem advance_charge {x y : Job} {a : JobAction} {c : Charge}
    (h : x.advance a = some (y,c)) :
    c.pendingOps = y.stage.ops-x.stage.ops ∧ c.inFlight = y.stage.flight-x.stage.flight ∧
      c.depth = y.stage.depth-x.stage.depth := by
  revert h
  fun_cases Job.advance x a <;> rintro ⟨⟩ <;>
    simp [*,JobStage.ops,JobStage.flight,JobStage.depth]

theorem cancelTimer_shares (t : Timer) :
    (cancelTimer t).stage.ops = t.stage.ops ∧ (cancelTimer t).stage.depth = t.stage.depth := by
  rcases t with ⟨s,a,o⟩
  cases a <;> cases s <;> simp [cancelTimer,TimerStage.ops,TimerStage.depth]

theorem timer_charge {t u : Timer} {b : Bool} {a : TimerAction} {c : Charge}
    (h : t.advance b a = some (u,c)) :
    c.pendingOps = u.stage.ops-t.stage.ops ∧ c.inFlight = 0 ∧
      c.depth = u.stage.depth-t.stage.depth := by
  revert h
  fun_cases Timer.advance b t a <;> rintro ⟨⟩
  case case6 => simp [cancelTimer_shares]
  all_goals simp [*,TimerStage.ops,TimerStage.depth]

theorem Counted.change {h g : Host} (hc : Counted h) (x : Holder)
    (hops : ∀ y, y ≠ x → opShare g y = opShare h y)
    (hflight : ∀ y, y ≠ x → flightShare g y = flightShare h y)
    (hdepth : ∀ y, y ≠ x → depthShare g y = depthShare h y)
    (hcharge : g.pendingOps-h.pendingOps = opShare g x-opShare h x ∧
      g.inFlight-h.inFlight = flightShare g x-flightShare h x ∧
      g.depth-h.depth = depthShare g x-depthShare h x) :
    Counted g where
  pendingOps := hc.pendingOps.move x hops hcharge.1
  inFlight := hc.inFlight.move x hflight hcharge.2.1
  depth := hc.depth.move x hdepth hcharge.2.2

theorem Counted.still {h g : Host} (hc : Counted h) (hstage : ∀ j, g.stage j = h.stage j)
    (htimers : ∀ k, (g.timers k).stage.ops = (h.timers k).stage.ops ∧
      (g.timers k).stage.depth = (h.timers k).stage.depth)
    (hdispatcher : g.dispatcher = .done ↔ h.dispatcher = .done)
    (hothers : g.pendingOps-h.pendingOps = g.otherOps-h.otherOps)
    (hcharge : g.inFlight = h.inFlight ∧ g.depth = h.depth) : Counted g := by
  refine hc.change .others ?_ ?_ ?_ ?_
  · rintro (j | k | _ | _) hy <;> simp_all [opShare]
  · rintro (j | k | _ | _) hy <;> simp_all [flightShare]
  · rintro (j | k | _ | _) hy <;> simp_all [depthShare]
  · simp [opShare,flightShare,depthShare,hothers,hcharge]

theorem Counted.job {h g : Host} (hc : Counted h) (j : ℕ) {x : Job} {c : Charge}
    (hjobs : g.jobs = Function.update h.jobs j x) (htimers : g.timers = h.timers)
    (hdispatcher : g.dispatcher = .done ↔ h.dispatcher = .done)
    (hothers : g.otherOps = h.otherOps)
    (hcounters : g.pendingOps = h.pendingOps+c.pendingOps ∧ g.inFlight = h.inFlight+c.inFlight ∧
      g.depth = h.depth+c.depth)
    (hcharge : c.pendingOps = x.stage.ops-(h.stage j).ops ∧
      c.inFlight = x.stage.flight-(h.stage j).flight ∧
      c.depth = x.stage.depth-(h.stage j).depth) : Counted g := by
  have hother : ∀ i, i ≠ j → g.stage i = h.stage i := fun i hi => by
    simp [Host.stage,hjobs,Function.update_of_ne hi]
  have hself : g.stage j = x.stage := by simp [Host.stage,hjobs]
  refine hc.change (.job j) ?_ ?_ ?_ ?_
  · rintro (i | k | _ | _) hy <;> simp_all [opShare]
  · rintro (i | k | _ | _) hy <;> simp_all [flightShare]
  · rintro (i | k | _ | _) hy <;> simp_all [depthShare]
  · simp only [opShare,flightShare,depthShare,hself,hcounters]
    omega

theorem Counted.timer {h g : Host} (hc : Counted h) (k : ℕ) {t : Timer} {c : Charge}
    (htimers : g.timers = Function.update h.timers k t) (hjobs : g.jobs = h.jobs)
    (hdispatcher : g.dispatcher = h.dispatcher) (hothers : g.otherOps = h.otherOps)
    (hcounters : g.pendingOps = h.pendingOps+c.pendingOps ∧ g.inFlight = h.inFlight+c.inFlight ∧
      g.depth = h.depth+c.depth)
    (hcharge : c.pendingOps = t.stage.ops-(h.timers k).stage.ops ∧ c.inFlight = 0 ∧
      c.depth = t.stage.depth-(h.timers k).stage.depth) : Counted g := by
  have hother : ∀ i, i ≠ k → g.timers i = h.timers i := fun i hi => by
    simp [htimers,Function.update_of_ne hi]
  have hself : g.timers k = t := by simp [htimers]
  refine hc.change (.timer k) ?_ ?_ ?_ ?_
  · rintro (i | i | _ | _) hy <;> simp_all [opShare,Host.stage]
  · rintro (i | i | _ | _) hy <;> simp_all [flightShare,Host.stage]
  · rintro (i | i | _ | _) hy <;> simp_all [depthShare,Host.stage]
  · simp only [opShare,flightShare,depthShare,hself,hcounters]
    omega

end HostLoop
end AsioQuickjs
