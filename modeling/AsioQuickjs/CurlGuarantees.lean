import AsioQuickjs.CurlWatches

/-! What the watches of a curl client guarantee over its runs: a socket that curl wants to hear of
is waited for, and curl is called for nothing else. -/
namespace AsioQuickjs
namespace CurlWatches

/-- A wait does not fail while its watch is in the map. -/
def Succeeds (c : Client) : Action → Prop
  | .wait i _ ec => ec = true → ¬c.Alive i
  | _ => True

instance (c : Client) (a : Action) : Decidable (Succeeds c a) := by
  cases a <;> unfold Succeeds <;> infer_instance

/-- What curl wants of a watch in the map is waited for, or the handler that runs will see to
it. -/
def Hears (c : Client) : Prop :=
  c.stopping = false → ∀ i d, c.Alive i → (c.objects i).Wants d →
    (c.objects i).armed d = true ∨ ∃ e, c.running = some (i,e)

theorem Hears.arm {c : Client} {i : ℕ}
    (h : c.stopping = false → ∀ j d, j ≠ i → c.Alive j → (c.objects j).Wants d →
      (c.objects j).armed d = true ∨ ∃ e, c.running = some (j,e)) : Hears (c.arm i) := by
  intro hs j d halive hwants
  have harms := arm_arms c i
  rw [harms.stopping] at hs
  rw [harms.alive] at halive
  rw [harms.wants] at hwants
  rw [harms.running]
  rcases eq_or_ne j i with rfl | hj
  · exact .inl (arm_armed hs j d hwants)
  · exact (h hs j d hj halive hwants).imp_left (harms.armed j d)

theorem Hears.update {c : Client} {i what : ℕ}
    (h : c.stopping = false → ∀ j d, j ≠ i → c.Alive j → (c.objects j).Wants d →
      (c.objects j).armed d = true ∨ ∃ e, c.running = some (j,e)) : Hears (c.update i what) := by
  refine Hears.arm fun hs j d hj halive hwants => ?_
  rw [Client.Alive,Client.set_of_ne _ hj] at halive
  rw [Client.set_of_ne _ hj] at hwants ⊢
  exact h hs j d hj halive hwants

theorem Hears.socketCallback {c : Client} (h : Hears c) (s what : ℕ) (assigned : Bool) :
    Hears (c.socketCallback s what assigned) := by
  rw [Client.socketCallback]
  split
  · split
    · exact h
    · next old _ =>
      intro hs j d halive hwants
      have hne : j ≠ old := by
        rintro rfl
        refine hwants ?_
        simp only [Client.dispose,Client.set_self,Nat.zero_and]
      have hobject : ((c.follow old).dispose old).objects j = c.objects j :=
        Client.set_of_ne _ hne _
      simp only [Client.Alive,hobject] at halive hwants ⊢
      refine h hs j d ?_ hwants
      rw [Function.update_apply] at halive
      split at halive
      · cases halive
      · exact halive
  · split
    · split
      · refine Hears.update fun hs j d hj halive hwants => ?_
        have hobject : (c.make s).objects j = c.objects j := c.set_of_ne hj _
        rw [Client.Alive,hobject] at halive
        rw [hobject] at hwants ⊢
        refine h hs j d ?_ hwants
        simp only [Client.make,Function.update_apply] at halive
        split at halive
        · exact absurd (Option.some.inj halive).symm hj
        · exact halive
      · exact h
    · split
      · exact h
      · exact Hears.update fun hs j d _ halive hwants => h hs j d halive hwants

theorem Hears.rearm {c : Client} {i : ℕ}
    (h : c.stopping = false → ∀ j d, j ≠ i → c.Alive j → (c.objects j).Wants d →
      (c.objects j).armed d = true ∨ ∃ e, c.running = some (j,e)) :
    Hears (c.rearm i) := by
  rw [Client.rearm]
  split
  · exact Hears.arm h
  · next hdead =>
    intro hs j d halive hwants
    refine h hs j d ?_ halive hwants
    rintro rfl
    exact hdead halive

theorem step_hears {c t : Client} {a : Action} (h : Hears c) (ha : Succeeds c a)
    (hstep : step c a = some t) : Hears t := by
  rcases step_cases hstep with ⟨s,what,assigned,-,rfl⟩ | ⟨timer,stale,rfl⟩ |
    ⟨i,d,ec,rfl,hrun,hmem,hcase⟩ | ⟨i,d,hrun,rfl⟩ | rfl
  · exact h.socketCallback s what assigned
  · exact h
  · have hothers (hs : c.stopping = false) (j : ℕ) (e : Dir) (hj : j ≠ i)
        (halive : (c.taken i d).Alive j) (hwants : ((c.taken i d).objects j).Wants e) :
        ((c.taken i d).objects j).armed e = true := by
      rw [Client.Alive,Client.taken_of_ne _ hj] at halive
      rw [Client.taken_of_ne _ hj] at hwants ⊢
      refine (h hs j e halive hwants).resolve_right ?_
      rw [hrun]
      rintro ⟨g,hnone⟩
      cases hnone
    rcases hcase with ⟨hor,rfl⟩ | rfl | rfl
    · intro hs j e halive hwants
      have hrunning : c.stopping = false := hs
      have hfail : ec = true := hor.resolve_right (by simp [hrunning])
      have hne : j ≠ i := by
        rintro rfl
        refine ha hfail ?_
        rw [Client.Alive,Client.taken_self,setArmed_fd] at halive
        exact halive
      exact .inl (hothers hs j e hne halive hwants)
    · intro hs j e halive hwants
      rcases eq_or_ne j i with rfl | hne
      · exact .inr ⟨d,rfl⟩
      · exact .inl (hothers hs j e hne halive hwants)
    · exact Hears.rearm fun hs j e hne halive hwants => .inl (hothers hs j e hne halive hwants)
  · refine Hears.rearm fun hs j e hne halive hwants => .inl ?_
    refine (h hs j e halive hwants).resolve_right ?_
    rw [hrun]
    rintro ⟨g,hsome⟩
    exact hne (congrArg Prod.fst (Option.some.inj hsome)).symm
  · intro hs
    cases hs

/-- The client has not shut down when curl calls back. -/
def InTime (c : Client) : Action → Prop
  | .socketCallback .. => c.stopping = false
  | _ => True

instance (c : Client) (a : Action) : Decidable (InTime c a) := by
  cases a <;> unfold InTime <;> infer_instance

theorem rearm_arms (c : Client) (i : ℕ) : Arms i c (c.rearm i) := by
  rw [Client.rearm]
  split
  · exact arm_arms c i
  · exact Arms.refl i c

theorem socketCallback_stopping (c : Client) (s what : ℕ) (assigned : Bool) :
    (c.socketCallback s what assigned).stopping = c.stopping := by
  rw [Client.socketCallback]
  split
  · split <;> rfl
  · split
    · split
      · exact (arm_arms _ _).stopping
      · rfl
    · split
      · rfl
      · exact (arm_arms _ _).stopping

theorem step_dangling {c t : Client} {a : Action} (hI : Inv c) (h : c.dangling = false)
    (ha : InTime c a) (hstep : step c a = some t) : t.dangling = false := by
  rcases step_cases hstep with ⟨s,what,assigned,rfl,rfl⟩ | ⟨timer,stale,rfl⟩ |
    ⟨i,d,ec,-,-,-,hcase⟩ | ⟨i,d,-,rfl⟩ | rfl
  · exact (hI.socketCallback s what assigned).dangling
      ((socketCallback_stopping c s what assigned).trans ha)
  · exact h
  · rcases hcase with ⟨-,rfl⟩ | rfl | rfl
    · exact h
    · exact h
    · exact (rearm_arms _ i).dangling.trans h
  · exact (rearm_arms _ i).dangling.trans h
  · exact h

theorem step_stopping {c t : Client} {a : Action} (hs : c.stopping = true)
    (hstep : step c a = some t) : t.stopping = true := by
  rcases step_cases hstep with ⟨s,what,assigned,-,rfl⟩ | ⟨timer,stale,rfl⟩ |
    ⟨i,d,ec,-,-,-,hcase⟩ | ⟨i,d,-,rfl⟩ | rfl
  · exact (socketCallback_stopping c s what assigned).trans hs
  · exact hs
  · rcases hcase with ⟨-,rfl⟩ | rfl | rfl
    · exact hs
    · exact hs
    · exact (rearm_arms _ i).stopping.trans hs
  · exact (rearm_arms _ i).stopping.trans hs
  · rfl

theorem drives_wanted {c : Client} (h : Inv c) {a : Action} {x : Drive} (hx : x ∈ drives c a) :
    c.stopping = false ∧ (x = .timeout ∨
      ∃ i d, x = .socket (c.objects i).fd d.evBit ∧ c.Alive i ∧ (c.objects i).Wants d) := by
  cases a with
  | wait i d ec =>
    simp only [drives] at hx
    split at hx
    · next hen =>
      refine ⟨hen.2.1,.inr ⟨i,d,List.mem_singleton.mp hx,h.wanted i fun h0 => ?_,hen.2.2⟩⟩
      exact hen.2.2 (by rw [h0,Nat.zero_and])
    · cases hx
  | timer =>
    simp only [drives] at hx
    split at hx
    · cases hx
    · next hs => exact ⟨by simpa using hs,.inl (List.mem_singleton.mp hx)⟩
  | stale err =>
    simp only [drives] at hx
    split at hx
    · cases hx
    · next hs =>
      exact ⟨by simpa using (not_or.mp hs).2,.inl (List.mem_singleton.mp hx)⟩
  | notify =>
    simp only [drives] at hx
    split at hx
    · cases hx
    · next hs => exact ⟨by simpa using hs,.inl (List.mem_singleton.mp hx)⟩
  | socketCallback => cases hx
  | timerCallback => cases hx
  | handled => cases hx
  | shutdown => cases hx

theorem log_of_stopping {c t : Client} {as : List Action} (hI : Inv c) (hs : c.stopping = true)
    (h : Trace.run step c as = some t) : Trace.log step drives c as = [] := by
  induction as generalizing c with
  | nil => rfl
  | cons a as ih =>
    obtain ⟨u,hu,hr⟩ := Trace.run_cons.mp h
    rw [Trace.log_cons hu,ih (step_inv hI hu) (step_stopping hs hu) hr,List.append_nil]
    refine List.eq_nil_iff_forall_not_mem.mpr fun x hx => ?_
    have hrunning := (drives_wanted hI hx).1
    rw [hs] at hrunning
    cases hrunning

/-- In all runs, with sockets removed and their descriptors used again inside of handlers: there
is one wait for each flag; curl is called for a socket only by the watch that is in the map, for
what curl wants of it; curl's pointers are those of the map until the client shuts down, and
none that it follows in time is dangling; after that nothing calls curl. -/
theorem client_safe {c : Client} {as : List Action} (h : Trace.run step start as = some c) :
    (∀ i d, c.waits.count (i,d) = ((c.objects i).armed d).toNat) ∧
    (∀ a, ∀ x ∈ drives c a, c.stopping = false ∧ (x = .timeout ∨
      ∃ i d, x = .socket (c.objects i).fd d.evBit ∧ c.Alive i ∧ (c.objects i).Wants d)) ∧
    (c.stopping = false → ∀ s, c.socketp s = c.watches s) ∧
    (Trace.Meets step InTime start as → c.dangling = false) ∧
    (c.stopping = true → ∀ bs t, Trace.run step c bs = some t →
      Trace.log step drives c bs = []) := by
  have hI := run_inv h
  refine ⟨hI.counted,fun a x => drives_wanted hI,hI.kept,fun hm => ?_,
    fun hs bs t ht => log_of_stopping hI hs ht⟩
  have hboth : Inv c ∧ c.dangling = false :=
    Trace.run_keeps_of_meets (I := fun c => Inv c ∧ c.dangling = false)
      (fun s a t hst ha hstep => ⟨step_inv hst.1 hstep,step_dangling hst.1 hst.2 ha hstep⟩)
      ⟨start_inv,rfl⟩ hm h
  exact hboth.2

/-- Inside of the handler of a watch its socket is removed, and the descriptor used again. -/
def reused : List Action :=
  [.socketCallback 5 3 true,.wait 0 .read false,.socketCallback 5 4 true,.socketCallback 5 1 true,
    .handled,.wait 0 .write false]

theorem client_safe_sample : ∃ c, Trace.run step start reused = some c ∧
    c.waits = [(1,.read)] ∧ (∀ s, c.socketp s = c.watches s) ∧ c.dangling = false := by
  have h := @client_safe _ reused rfl
  exact ⟨_,rfl,rfl,h.2.2.1 rfl,h.2.2.2.1 (by decide)⟩

/-- Unless a wait fails while its watch is in the map: what curl wants of a socket is waited for,
with a handler that will call curl for it, or is about to be waited for by the handler that
runs. -/
theorem client_hears {c : Client} {as : List Action} (h : Trace.run step start as = some c)
    (hw : Trace.Meets step Succeeds start as) (hs : c.stopping = false) (i : ℕ) (d : Dir)
    (hi : c.Alive i) (hd : (c.objects i).Wants d) :
    (∃ e, c.running = some (i,e)) ∨
    c.waits.count (i,d) = 1 ∧ (c.running = none → ∃ t, step c (.wait i d false) = some t ∧
      drives c (.wait i d false) = [.socket (c.objects i).fd d.evBit]) := by
  have hI := run_inv h
  have hfirst : Hears start := fun _ _ _ halive _ => by cases halive
  have hH : Hears c := Trace.run_keeps_of_meets (fun _ _ _ => step_hears) hfirst hw h
  rcases hH hs i d hi hd with harmed | hrun
  · have hcount : c.waits.count (i,d) = 1 := by rw [hI.counted,harmed]; rfl
    have hmem : (i,d) ∈ c.waits := List.count_pos_iff.mp (by omega)
    refine .inr ⟨hcount,fun hidle => ⟨{ c.taken i d with running := some (i,d) },?_,?_⟩⟩
    · simp only [step]
      rw [if_pos ⟨hidle,hmem⟩,if_neg (by simp [hs]),if_pos hd]
    · rw [drives,if_pos ⟨rfl,hs,hd⟩]
  · exact .inl hrun

theorem client_hears_sample : ∃ c, Trace.run step start reused = some c ∧
    c.waits.count (1,.read) = 1 ∧ drives c (.wait 1 .read false) = [.socket 5 1] := by
  have h := @client_hears _ reused rfl (by decide) rfl 1 .read rfl (by decide)
  rcases h with ⟨e,he⟩ | ⟨hcount,hdrive⟩
  · cases he
  · obtain ⟨t,-,hdrives⟩ := hdrive rfl
    exact ⟨_,rfl,hcount,hdrives⟩

end CurlWatches
end AsioQuickjs
