import AsioQuickjs.ChannelInvariant

/-! What the mpsc channel guarantees its users over every interleaving: it is a
closable mailbox, and its consumer is woken exactly when it has to be. -/
namespace AsioQuickjs
namespace Channel

variable {T E : Type}

def Sys.box (s : Sys T E) : Mailbox.Box T := ⟨s.st.queue,s.st.closed⟩

/-- The mailbox call an action performs; the other sections are not visible. -/
def callOf (s : Sys T E) : Action T E → Mailbox.Call T
  | .send v => .send v (s.st.send v).1
  | .close => .close
  | .dropClose => .close
  | .dropReceiver => .close
  | .awaitResume => .recv (Mailbox.recv s.box).1
  | .tryRecv => .recv (Mailbox.recv s.box).1
  | _ => .skip

@[simp] theorem leave_box (s : Sys T E) (r : Taken E × MpscState T E) :
    (s.leave r).box = ⟨r.2.queue,r.2.closed⟩ := by
  rcases r with ⟨⟨_ | h,ex⟩,st⟩ <;> rfl

@[simp] theorem leave_accepted (s : Sys T E) (r : Taken E × MpscState T E) :
    (s.leave r).accepted = s.accepted := by
  rcases r with ⟨⟨_ | h,ex⟩,st⟩ <;> rfl

@[simp] theorem leave_sends (s : Sys T E) (r : Taken E × MpscState T E) :
    (s.leave r).sends = s.sends := by
  rcases r with ⟨⟨_ | h,ex⟩,st⟩ <;> rfl

@[simp] theorem leave_received (s : Sys T E) (r : Taken E × MpscState T E) :
    (s.leave r).received = s.received := by
  rcases r with ⟨⟨_ | h,ex⟩,st⟩ <;> rfl

@[simp] theorem leave_st (s : Sys T E) (r : Taken E × MpscState T E) :
    (s.leave r).st = r.2 := by
  rcases r with ⟨⟨_ | h,ex⟩,st⟩ <;> rfl

theorem closeLocked_box (st : MpscState T E) :
    (⟨st.closeLocked.2.queue,st.closeLocked.2.closed⟩ : Mailbox.Box T) =
      Mailbox.close ⟨st.queue,st.closed⟩ := by
  cases hc : st.closed <;> simp [MpscState.closeLocked,Mailbox.close,hc]

theorem send_box (st : MpscState T E) (v : T) :
    Mailbox.send ⟨st.queue,st.closed⟩ v =
      ((st.send v).1,⟨(st.send v).2.2.queue,(st.send v).2.2.closed⟩) := by
  cases hc : st.closed <;> simp [MpscState.send,Mailbox.send,hc]

theorem tryRecv_eq (st : MpscState T E) : st.tryRecv = st.awaitResume := by
  cases hq : st.queue <;> simp [MpscState.tryRecv,MpscState.awaitResume,hq]

theorem awaitResume_box (st : MpscState T E) :
    (Mailbox.recv ⟨st.queue,st.closed⟩).2 =
      (⟨st.awaitResume.2.queue,st.awaitResume.2.closed⟩ : Mailbox.Box T) ∧
    (Mailbox.Call.recv (Mailbox.recv ⟨st.queue,st.closed⟩).1).delivered =
      st.awaitResume.1.toList := by
  cases hq : st.queue <;> cases hc : st.closed <;>
    simp [MpscState.awaitResume,Mailbox.recv,Mailbox.Call.delivered,hq,hc]

variable [DecidableEq E]

theorem step_takes {s t : Sys T E} {a : Action T E} (h : step s a = some t) :
    Mailbox.Takes s.box (callOf s a) t.box ∧
      t.sends = s.sends++(callOf s a).answer ∧
      t.received = s.received++(callOf s a).delivered := by
  cases a with
  | send v =>
    simp only [step,Option.ite_none_left_eq_some,Option.some.injEq] at h
    obtain ⟨-,rfl⟩ := h
    exact ⟨by simpa [callOf,Mailbox.Takes,Sys.box] using send_box s.st v,
      by simp [callOf,Mailbox.Call.answer],by simp [callOf,Mailbox.Call.delivered]⟩
  | close =>
    simp only [step,Option.ite_none_left_eq_some,Option.some.injEq] at h
    obtain ⟨-,rfl⟩ := h
    simpa [callOf,Mailbox.Takes,Sys.box,Mailbox.Call.answer,Mailbox.Call.delivered] using
      closeLocked_box s.st
  | copy =>
    simp only [step,Option.ite_none_left_eq_some,Option.some.injEq] at h
    obtain ⟨-,rfl⟩ := h
    exact ⟨rfl,by simp [callOf,Mailbox.Call.answer],by simp [callOf,Mailbox.Call.delivered]⟩
  | drop =>
    simp only [step,Option.ite_none_left_eq_some,Option.some.injEq] at h
    obtain ⟨-,rfl⟩ := h
    exact ⟨rfl,by simp [callOf,Mailbox.Call.answer],by simp [callOf,Mailbox.Call.delivered]⟩
  | dropClose =>
    simp only [step,Option.ite_none_left_eq_some,Option.some.injEq] at h
    obtain ⟨-,rfl⟩ := h
    exact ⟨by simpa [callOf,Mailbox.Takes,Sys.box] using closeLocked_box s.st,
      by simp [callOf,Mailbox.Call.answer],by simp [callOf,Mailbox.Call.delivered]⟩
  | wake w =>
    simp only [step] at h
    split at h
    case isFalse => simp at h
    case isTrue =>
      cases hex : w.ex <;> simp only [hex,Option.some.injEq] at h <;> subst h <;>
        exact ⟨rfl,by simp [callOf,Mailbox.Call.answer,Sys.resume],
          by simp [callOf,Mailbox.Call.delivered,Sys.resume]⟩
  | runPosted w =>
    simp only [step,Option.ite_none_right_eq_some,Option.some.injEq] at h
    obtain ⟨-,rfl⟩ := h
    exact ⟨rfl,by simp [callOf,Mailbox.Call.answer,Sys.resume],
      by simp [callOf,Mailbox.Call.delivered,Sys.resume]⟩
  | recv ex =>
    cases hc : s.consumer <;> simp only [step,hc,reduceCtorEq,Option.some.injEq] at h
    subst h
    exact ⟨rfl,by simp [callOf,Mailbox.Call.answer],by simp [callOf,Mailbox.Call.delivered]⟩
  | awaitSuspend =>
    cases hc : s.consumer <;> simp only [step,hc,reduceCtorEq] at h
    case suspending ex =>
    simp only [MpscState.awaitSuspend] at h
    split at h <;> split at h <;> simp only [Option.some.injEq] at h <;> subst h <;>
      exact ⟨rfl,by simp [callOf,Mailbox.Call.answer],by simp [callOf,Mailbox.Call.delivered]⟩
  | awaitResume =>
    cases hc : s.consumer <;> simp only [step,hc,reduceCtorEq,Option.some.injEq] at h
    subst h
    obtain ⟨hb,hd⟩ := awaitResume_box s.st
    exact ⟨Prod.ext rfl hb,by simp [callOf,Mailbox.Call.answer,Sys.take],
      congrArg (s.received++·) hd.symm⟩
  | tryRecv =>
    cases hc : s.consumer <;> simp only [step,hc,reduceCtorEq,Option.some.injEq] at h
    subst h
    obtain ⟨hb,hd⟩ := awaitResume_box s.st
    rw [tryRecv_eq]
    exact ⟨Prod.ext rfl hb,by simp [callOf,Mailbox.Call.answer,Sys.take],
      congrArg (s.received++·) hd.symm⟩
  | dropReceiver =>
    cases hc : s.consumer <;> simp only [step,hc,reduceCtorEq,Option.some.injEq] at h
    subst h
    exact ⟨by simpa [callOf,Mailbox.Takes,Sys.box] using closeLocked_box s.st,
      by simp [callOf,Mailbox.Call.answer],by simp [callOf,Mailbox.Call.delivered]⟩

theorem step_accepted {s t : Sys T E} {a : Action T E} (h : step s a = some t) :
    t.accepted = s.accepted++(callOf s a).accepted := by
  rw [Sys.accepted,(step_takes h).2.1,List.filter_append,List.map_append]
  rfl

theorem run_performs {as : List (Action T E)} {s : Sys T E}
    (h : Trace.run step unbounded as = some s) :
    ∃ ks, Mailbox.Performs {} ks s.box ∧ Mailbox.accepted ks = s.accepted ∧
      Mailbox.delivered ks = s.received := by
  refine Trace.run_keeps (I := fun s => ∃ ks, Mailbox.Performs {} ks s.box ∧
    Mailbox.accepted ks = s.accepted ∧ Mailbox.delivered ks = s.received) ?_ ?_ h
  · rintro s a t ⟨ks,hk,ha,hd⟩ hstep
    obtain ⟨ht,-,htd⟩ := step_takes hstep
    exact ⟨ks++[callOf s a],hk.call ht,by simp [ha,step_accepted hstep],by simp [hd,htd]⟩
  · exact ⟨[],.start _,rfl,rfl⟩

theorem accepted_eq {as : List (Action T E)} {s : Sys T E}
    (h : Trace.run step unbounded as = some s) : s.accepted = s.received++s.st.queue := by
  obtain ⟨ks,hk,ha,hd⟩ := run_performs h
  have hq := Mailbox.performs_queue hk
  rw [ha,hd] at hq
  simpa [Sys.box] using hq

/-- Once closed, a channel stays closed, refuses every send and only drains. -/
structure Closed (s t : Sys T E) : Prop where
  closed : s.st.closed = true → t.st.closed = true
  accepted : s.st.closed = true → t.accepted = s.accepted
  queue : s.st.closed = true → t.st.queue <:+ s.st.queue
  refused : s.st.closed = true → ∃ l, t.sends = s.sends++l ∧ ∀ p ∈ l, p.2 = false

theorem step_closed {s t : Sys T E} {a : Action T E} (h : step s a = some t) : Closed s t := by
  obtain ⟨ht,hsends,-⟩ := step_takes h
  have ha := step_accepted h
  have hq := Mailbox.takes_queue ht
  have hc := Mailbox.takes_closed ht
  constructor <;> intro hs
  · exact (hc hs).1
  · rw [ha,Mailbox.accepted_of_refused (hc hs).2,List.append_nil]
  · rw [Mailbox.accepted_of_refused (hc hs).2,List.append_nil] at hq
    exact ⟨_,hq.symm⟩
  · exact ⟨_,hsends,(hc hs).2⟩

theorem run_closed {s t : Sys T E} {as : List (Action T E)} (h : Trace.run step s as = some t) :
    Closed s t := by
  refine Trace.run_relates (R := Closed) ?_ ?_ (fun _ _ _ => step_closed) h
  · intro s
    exact ⟨id,fun _ => rfl,fun _ => List.suffix_refl _,fun _ => ⟨[],by simp,by simp⟩⟩
  · intro s t u hst htu
    constructor <;> intro hs
    · exact htu.closed (hst.closed hs)
    · rw [htu.accepted (hst.closed hs),hst.accepted hs]
    · exact (htu.queue (hst.closed hs)).trans (hst.queue hs)
    · obtain ⟨l,hl,hf⟩ := hst.refused hs
      obtain ⟨m,hm,hg⟩ := htu.refused (hst.closed hs)
      refine ⟨l++m,by rw [hm,hl,List.append_assoc],?_⟩
      intro p hp
      rcases List.mem_append.mp hp with hp | hp
      · exact hf p hp
      · exact hg p hp

/-- The channel as seen by its users: the consumer obtains the accepted values in
order and without gaps, a `recv` answers `nullopt` only on a closed channel whose
accepted values have all been delivered, and nothing is accepted after a close. -/
structure DeliversInOrder (s : Sys T E) : Prop where
  inOrder : s.received <+: s.accepted
  nullopt : s.consumer = .resuming → s.st.awaitResume.1 = none →
    s.st.closed = true ∧ s.received = s.accepted
  afterClose : s.st.closed = true → ∀ bs t, Trace.run step s bs = some t →
    t.st.closed = true ∧ t.accepted = s.accepted ∧ t.st.queue <:+ s.st.queue ∧
      ∃ l, t.sends = s.sends++l ∧ ∀ p ∈ l, p.2 = false

theorem mpsc_delivers_in_order {as : List (Action T E)} {s : Sys T E}
    (h : Trace.run step unbounded as = some s) : DeliversInOrder s := by
  have hacc := accepted_eq h
  constructor
  case inOrder => exact ⟨_,hacc.symm⟩
  case nullopt =>
    intro hc hnone
    have hq : s.st.queue = [] := by
      cases hq : s.st.queue <;> simp [MpscState.awaitResume,hq] at hnone ⊢
    have hw : s.st.waiter = none := by
      cases hw : s.st.waiter with
      | none => rfl
      | some x =>
        have hsus := ((Inv.run h).waiter_eq hw).1
        simp [hc,Consumer.isSuspended] at hsus
    have hready := (Inv.run h).ready (.inl hc) hw
    simp only [MpscState.Ready,hq] at hready
    exact ⟨by simpa using hready,by simp [hacc,hq]⟩
  case afterClose =>
    intro hc bs t ht
    have hcl := run_closed ht
    exact ⟨hcl.closed hc,hcl.accepted hc,hcl.queue hc,hcl.refused hc⟩

/-- One value through a suspended receiver, then a close. -/
theorem mpsc_delivers_in_order_sample :
    DeliversInOrder ({
      st := { closed := true }
      consumer := .resuming
      sends := [(5,true)]
      received := [5]
      suspensions := [none]
      handed := [⟨0,none⟩]
      resumed := [0] } : Sys ℕ Unit) :=
  mpsc_delivers_in_order (show Trace.run step unbounded [.recv none,.awaitSuspend,.send 5,
    .wake ⟨0,none⟩,.awaitResume,.close,.recv none] = some _ from rfl)

/-- Sections that push a value or close the channel hand the registered waiter,
and only it, to `wake_waiter`. -/
theorem step_hands_waiter {s t : Sys T E} {a : Action T E} {n : ℕ} (hs : Inv s)
    (hw : s.st.waiter = some n) (h : step s a = some t)
    (ht : t.accepted ≠ s.accepted ∨ t.st.closed = true) :
    t.st.waiter = none ∧ t.handed = s.handed++[⟨n,s.st.waiterEx⟩] ∧
      t.inHand = s.inHand++[⟨n,s.st.waiterEx⟩] := by
  have hopen := (hs.idle n hw).2
  have hsus := (hs.waiter_eq hw).1
  have hquiet : ∀ u : Sys T E, u.accepted = s.accepted → u.st.closed = s.st.closed → t ≠ u := by
    rintro u hu hcu rfl
    rcases ht with ht | ht
    · exact ht hu
    · rw [hcu,hopen] at ht
      cases ht
  cases a with
  | send v =>
    simp only [step,Option.ite_none_left_eq_some,Option.some.injEq] at h
    obtain ⟨-,rfl⟩ := h
    simp [MpscState.send,hopen,Sys.leave,hw]
  | close =>
    simp only [step,Option.ite_none_left_eq_some,Option.some.injEq] at h
    obtain ⟨-,rfl⟩ := h
    simp [MpscState.closeLocked,hopen,Sys.leave,hw]
  | dropClose =>
    simp only [step,Option.ite_none_left_eq_some,Option.some.injEq] at h
    obtain ⟨-,rfl⟩ := h
    simp [MpscState.closeLocked,hopen,Sys.leave,hw]
  | copy =>
    simp only [step,Option.ite_none_left_eq_some,Option.some.injEq] at h
    exact absurd h.2.symm (hquiet _ rfl rfl)
  | drop =>
    simp only [step,Option.ite_none_left_eq_some,Option.some.injEq] at h
    exact absurd h.2.symm (hquiet _ rfl rfl)
  | wake w =>
    simp only [step] at h
    split at h
    case isFalse => simp at h
    case isTrue hin => simp [(hs.waiter_eq hw).2.2.1] at hin
  | runPosted w =>
    simp only [step,Option.ite_none_right_eq_some] at h
    simp [(hs.waiter_eq hw).2.2.2] at h
  | recv ex => cases hc : s.consumer <;> simp_all [step,Consumer.isSuspended]
  | awaitSuspend => cases hc : s.consumer <;> simp_all [step,Consumer.isSuspended]
  | awaitResume => cases hc : s.consumer <;> simp_all [step,Consumer.isSuspended]
  | tryRecv => cases hc : s.consumer <;> simp_all [step,Consumer.isSuspended]
  | dropReceiver => cases hc : s.consumer <;> simp_all [step,Consumer.isSuspended]

/-- `wake_waiter` schedules on the waiter's own executor when it has one and
resumes it in place otherwise. -/
theorem step_wake {s t : Sys T E} {w : Wake E} (h : step s (.wake w) = some t) :
    (w.ex ≠ none → t.posted = s.posted++[w] ∧ t.resumed = s.resumed) ∧
      (w.ex = none → t.posted = s.posted ∧ t.resumed = s.resumed++[w.handle]) := by
  simp only [step] at h
  split at h
  case isFalse => simp at h
  case isTrue =>
    cases hex : w.ex <;> simp only [hex,Option.some.injEq] at h <;> subst h <;> simp [Sys.resume]

/-- No lost and no double wakeup. -/
structure WakesExactlyOnce (s : Sys T E) : Prop where
  idle : ∀ n, s.st.waiter = some n → s.st.queue = [] ∧ s.st.closed = false
  /-- A suspension is resumed at most once, and only while it lasts. -/
  resumedOnce : s.resumed.Nodup ∧ s.consumer ≠ .broken ∧
    ∀ n ∈ s.resumed, n < s.suspensions.length ∧ n ∈ s.handed.map Wake.handle
  /-- A suspension is handed to `wake_waiter` at most once, with its own executor. -/
  handedOnce : (s.handed.map Wake.handle).Nodup ∧
    ∀ w ∈ s.handed, s.suspensions[w.handle]? = some w.ex
  taken : ∀ n a t, s.st.waiter = some n → step s a = some t →
    t.accepted ≠ s.accepted ∨ t.st.closed = true →
    t.st.waiter = none ∧ t.handed = s.handed++[⟨n,s.st.waiterEx⟩] ∧
      t.inHand = s.inHand++[⟨n,s.st.waiterEx⟩]
  through : ∀ w t, step s (.wake w) = some t →
    (w.ex ≠ none → t.posted = s.posted++[w] ∧ t.resumed = s.resumed) ∧
      (w.ex = none → t.posted = s.posted ∧ t.resumed = s.resumed++[w.handle])
  coming : s.consumer = .suspended → s.st.queue ≠ [] ∨ s.st.closed = true →
    ∃ w, (w ∈ s.inHand ∨ w ∈ s.posted) ∧ w.handle+1 = s.suspensions.length

theorem mpsc_wakes_exactly_once {as : List (Action T E)} {s : Sys T E}
    (h : Trace.run step unbounded as = some s) : WakesExactlyOnce s := by
  have hs := Inv.run h
  constructor
  case idle => exact hs.idle
  case resumedOnce =>
    refine ⟨hs.resumedOnce,hs.sound,?_⟩
    intro n hn
    have hlt := hs.resumedEarlier n hn
    exact ⟨by omega,hs.resumedHanded n hn⟩
  case handedOnce => exact ⟨hs.handedOnce,hs.handedEx⟩
  case taken => exact fun n a t hw hstep ht => step_hands_waiter hs hw hstep ht
  case through => exact fun w t => step_wake
  case coming =>
    intro hc hready
    have hw : s.st.waiter = none := by
      cases hw : s.st.waiter with
      | none => rfl
      | some n =>
        obtain ⟨hq,hcl⟩ := hs.idle n hw
        simp [hq,hcl] at hready
    have ho := hs.outstanding
    have hpos := List.length_pos_iff.mpr (hs.registered (by simp [hc,Consumer.isSuspended]))
    simp only [Sys.pending,hw,hc,Consumer.isSuspended,if_true,Option.toList_none,List.nil_append,
      ← List.map_append] at ho
    have hmem : s.suspensions.length-1 ∈ (s.inHand++s.posted).map Wake.handle := by simp [ho]
    obtain ⟨w,hin,hlast⟩ := List.mem_map.mp hmem
    exact ⟨w,List.mem_append.mp hin,by omega⟩

/-- A consumer suspended with an executor while a send takes it out. -/
theorem mpsc_wakes_exactly_once_sample :
    WakesExactlyOnce ({
      st := { queue := [5] }
      consumer := .suspended
      inHand := [⟨0,some ()⟩]
      sends := [(5,true)]
      suspensions := [some ()]
      handed := [⟨0,some ()⟩] } : Sys ℕ Unit) :=
  mpsc_wakes_exactly_once (show Trace.run step unbounded [.recv (some ()),.awaitSuspend,
    .send 5] = some _ from rfl)

end Channel
end AsioQuickjs
