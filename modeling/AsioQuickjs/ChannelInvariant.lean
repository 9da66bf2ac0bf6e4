import AsioQuickjs.Channel

/-! The wakeup invariant of the mpsc channel: a registered waiter sees an empty
open queue, and a suspended consumer has exactly one wakeup ahead of it. -/
namespace AsioQuickjs
namespace Channel

variable {T E : Type}

def MpscState.Ready (st : MpscState T E) : Prop := st.queue ≠ [] ∨ st.closed = true

theorem awaitReady_iff (st : MpscState T E) : st.awaitReady = true ↔ st.Ready := by
  simp [MpscState.awaitReady,MpscState.Ready]

def Consumer.isSuspended : Consumer E → Bool
  | .suspended => true
  | _ => false

/-- Suspensions that still have a wakeup coming, wherever it currently is. -/
def Sys.pending (s : Sys T E) : List ℕ :=
  s.st.waiter.toList++s.inHand.map Wake.handle++s.posted.map Wake.handle

structure Inv (s : Sys T E) : Prop where
  idle : ∀ h, s.st.waiter = some h → s.st.queue = [] ∧ s.st.closed = false
  outstanding : s.pending = if s.consumer.isSuspended then [s.suspensions.length-1] else []
  registered : s.consumer.isSuspended = true → s.suspensions ≠ []
  ready : s.consumer = .resuming ∨ s.consumer.isSuspended = true → s.st.waiter = none → s.st.Ready
  sound : s.consumer ≠ .broken
  handedOnce : (s.handed.map Wake.handle).Nodup
  handedEarlier : ∀ w ∈ s.handed, w.handle+s.st.waiter.toList.length < s.suspensions.length
  handedEx : ∀ w ∈ s.handed, s.suspensions[w.handle]? = some w.ex
  waiterEx : ∀ h, s.st.waiter = some h → s.suspensions[h]? = some s.st.waiterEx
  pendingHanded : ∀ w, w ∈ s.inHand ∨ w ∈ s.posted → w ∈ s.handed
  resumedOnce : s.resumed.Nodup
  resumedEarlier : ∀ h ∈ s.resumed,
    h+(if s.consumer.isSuspended then 1 else 0) < s.suspensions.length
  resumedHanded : ∀ h ∈ s.resumed, h ∈ s.handed.map Wake.handle

theorem Inv.unbounded : Inv (Channel.unbounded : Sys T E) := by
  constructor <;> simp [Channel.unbounded,Sys.pending,Consumer.isSuspended]

/-- The waiter that is registered is the one of the latest suspension, and no
other wakeup is under way. -/
theorem Inv.waiter_eq {s : Sys T E} (hs : Inv s) {h : ℕ} (hw : s.st.waiter = some h) :
    s.consumer.isSuspended = true ∧ h+1 = s.suspensions.length ∧ s.inHand = [] ∧ s.posted = [] := by
  have ho := hs.outstanding
  have hr := hs.registered
  cases hc : s.consumer.isSuspended with
  | false => simp [Sys.pending,hw,hc] at ho
  | true =>
    have hlen := List.length_pos_iff.mpr (hr hc)
    simp [Sys.pending,hw,hc] at ho
    exact ⟨rfl,by omega,ho.2.1,ho.2.2⟩

theorem Inv.wake_eq {s : Sys T E} (hs : Inv s) {w : Wake E} (hw : w ∈ s.inHand ∨ w ∈ s.posted) :
    s.consumer = .suspended ∧ w.handle+1 = s.suspensions.length ∧ s.st.waiter = none ∧
      (s.inHand = [w] ∧ s.posted = [] ∨ s.inHand = [] ∧ s.posted = [w]) := by
  have ho := hs.outstanding
  have hr := hs.registered
  cases hc : s.consumer.isSuspended with
  | false =>
    simp only [Sys.pending,hc,Bool.false_eq_true,if_false,List.append_eq_nil_iff,List.map_eq_nil_iff] at ho
    rcases hw with hw | hw <;> simp [ho.1.2,ho.2] at hw
  | true =>
    have hsus : s.consumer = .suspended := by
      cases he : s.consumer <;> simp_all [Consumer.isSuspended]
    have hlen := List.length_pos_iff.mpr (hr hc)
    simp only [Sys.pending,hc,if_true] at ho
    have hl := congrArg List.length ho
    simp only [List.length_append,List.length_map,List.length_singleton] at hl
    have hpos : 0 < s.inHand.length+s.posted.length := by
      rcases hw with hw | hw
      · exact Nat.add_pos_left (List.length_pos_of_mem hw) _
      · exact Nat.add_pos_right _ (List.length_pos_of_mem hw)
    have hn : s.st.waiter = none := by
      cases hx : s.st.waiter with
      | none => rfl
      | some x => simp [hx] at hl; omega
    rcases hw with hw | hw
    · have hpos := List.length_pos_of_mem hw
      obtain ⟨v,hv⟩ := List.length_eq_one_iff.mp (show s.inHand.length = 1 by omega)
      have hp : s.posted = [] := List.length_eq_zero_iff.mp (by omega)
      obtain rfl : w = v := by simpa [hv] using hw
      simp [hn,hv,hp] at ho
      exact ⟨hsus,by omega,hn,.inl ⟨hv,hp⟩⟩
    · have hpos := List.length_pos_of_mem hw
      obtain ⟨v,hv⟩ := List.length_eq_one_iff.mp (show s.posted.length = 1 by omega)
      have hp : s.inHand = [] := List.length_eq_zero_iff.mp (by omega)
      obtain rfl : w = v := by simpa [hv] using hw
      simp [hn,hv,hp] at ho
      exact ⟨hsus,by omega,hn,.inr ⟨hp,hv⟩⟩

theorem Inv.leave {s : Sys T E} (hs : Inv s) {r : Taken E × MpscState T E}
    (ht : r.1 = (s.st.waiter,s.st.waiterEx)) (hw : r.2.waiter = none) (hr : r.2.Ready) :
    Inv (s.leave r) := by
  rcases r with ⟨⟨w,ex⟩,st⟩
  obtain ⟨rfl,rfl⟩ : w = s.st.waiter ∧ ex = s.st.waiterEx := by simpa using ht
  cases hwait : s.st.waiter with
  | none =>
    have ho := hs.outstanding
    have he := hs.handedEarlier
    simp only [Sys.pending,hwait] at ho
    simp only [hwait] at he
    simp only at hw hr
    constructor <;> simp only [Sys.leave,Sys.pending,hw]
    · simp
    · exact ho
    · exact hs.registered
    · exact fun _ _ => hr
    · exact hs.sound
    · exact hs.handedOnce
    · exact he
    · exact hs.handedEx
    · simp
    · exact hs.pendingHanded
    · exact hs.resumedOnce
    · exact hs.resumedEarlier
    · exact hs.resumedHanded
  | some h =>
    obtain ⟨hsus,hlast,hin,hpost⟩ := hs.waiter_eq hwait
    have he := hs.handedEarlier
    have hex := hs.waiterEx h hwait
    simp only [hwait,Option.toList_some,List.length_singleton] at he
    simp only at hw hr
    constructor <;> simp only [Sys.leave,Sys.pending,hw]
    · simp
    · simp [hin,hpost,hsus]; omega
    · exact hs.registered
    · exact fun _ _ => hr
    · exact hs.sound
    · rw [List.map_append,List.nodup_append]
      refine ⟨hs.handedOnce,by simp,?_⟩
      intro a ha b hb
      obtain ⟨w,hw',rfl⟩ := List.mem_map.mp ha
      have hlt := he w hw'
      simp only [List.map_cons,List.map_nil,List.mem_singleton] at hb
      omega
    · intro w hw'
      rcases List.mem_append.mp hw' with hw' | hw'
      · have hlt := he w hw'
        simp; omega
      · obtain rfl := List.mem_singleton.mp hw'
        simp; omega
    · intro w hw'
      rcases List.mem_append.mp hw' with hw' | hw'
      · exact hs.handedEx w hw'
      · obtain rfl := List.mem_singleton.mp hw'
        exact hex
    · simp
    · simp [hin,hpost]
    · exact hs.resumedOnce
    · exact hs.resumedEarlier
    · intro x hx
      simp [List.mem_map.mp (hs.resumedHanded x hx)]

theorem Inv.resume {s u : Sys T E} (hs : Inv s) {w : Wake E}
    (hw : w ∈ s.inHand ∨ w ∈ s.posted) (hu : u = { s with inHand := [], posted := [] }) :
    Inv (u.resume w.handle) := by
  subst hu
  obtain ⟨hsus,hlast,hn,-⟩ := hs.wake_eq hw
  have hrdy := hs.ready (.inr (by simp [hsus,Consumer.isSuspended])) hn
  have hre := hs.resumedEarlier
  have he := hs.handedEarlier
  simp only [hsus,Consumer.isSuspended,if_true] at hre
  simp only [hn] at he
  constructor <;> simp only [Sys.resume,Sys.pending,hsus,hlast,if_true,hn]
  · simp
  · simp [Consumer.isSuspended]
  · simp [Consumer.isSuspended]
  · exact fun _ _ => hrdy
  · simp
  · exact hs.handedOnce
  · exact he
  · exact hs.handedEx
  · simp
  · simp
  · rw [List.nodup_append]
    refine ⟨hs.resumedOnce,by simp,?_⟩
    intro a ha b hb
    have hlt := hre a ha
    simp only [List.mem_singleton] at hb
    omega
  · intro a ha
    rcases List.mem_append.mp ha with ha | ha
    · have hlt := hre a ha
      simp [Consumer.isSuspended]; omega
    · obtain rfl := List.mem_singleton.mp ha
      simp [Consumer.isSuspended]; omega
  · intro a ha
    rcases List.mem_append.mp ha with ha | ha
    · exact hs.resumedHanded a ha
    · obtain rfl := List.mem_singleton.mp ha
      exact List.mem_map_of_mem (hs.pendingHanded w hw)

theorem leave_closeLocked {s : Sys T E} (hs : Inv s) : Inv (s.leave s.st.closeLocked) := by
  cases hc : s.st.closed with
  | true => simpa [MpscState.closeLocked,hc,Sys.leave] using hs
  | false =>
    apply hs.leave <;> simp [MpscState.closeLocked,hc,MpscState.Ready]

theorem leave_send {s : Sys T E} (hs : Inv s) (v : T) : Inv (s.leave (s.st.send v).2) := by
  cases hc : s.st.closed with
  | true => simpa [MpscState.send,hc,Sys.leave] using hs
  | false =>
    apply hs.leave <;> simp [MpscState.send,hc,MpscState.Ready]

theorem Inv.take {s : Sys T E} (hs : Inv s) (hc : s.consumer = .running ∨ s.consumer = .resuming)
    (st : MpscState T E) (hw : st.waiter = s.st.waiter) (rs : List T) :
    Inv { s with st := st, consumer := .running, received := rs } := by
  have hsus : s.consumer.isSuspended = false := by
    rcases hc with hc | hc <;> simp [hc,Consumer.isSuspended]
  have ho := hs.outstanding
  have hre := hs.resumedEarlier
  have he := hs.handedEarlier
  have hn : s.st.waiter = none := by
    cases hx : s.st.waiter with
    | none => rfl
    | some x => simp [Sys.pending,hx,hsus] at ho
  rw [hn] at hw
  simp only [Sys.pending,hsus,hn] at ho
  simp only [hsus] at hre
  simp only [hn] at he
  constructor <;> simp only [Sys.pending,hw]
  · simp
  · simpa [Consumer.isSuspended] using ho
  · simp [Consumer.isSuspended]
  · simp [Consumer.isSuspended]
  · simp
  · exact hs.handedOnce
  · exact he
  · exact hs.handedEx
  · simp
  · exact hs.pendingHanded
  · exact hs.resumedOnce
  · simpa [Consumer.isSuspended] using hre
  · exact hs.resumedHanded

theorem Inv.bookkeeping {s : Sys T E} (hs : Inv s) (st : MpscState T E)
    (hq : st.queue = s.st.queue) (hw : st.waiter = s.st.waiter) (he : st.waiterEx = s.st.waiterEx)
    (hc : st.closed = s.st.closed) (n m : ℕ) (l : List (T × Bool)) :
    Inv { s with st := st, handles := n, closing := m, sends := l } := by
  constructor <;> simp only [Sys.pending,MpscState.Ready,hq,hw,he,hc]
  · exact hs.idle
  · exact hs.outstanding
  · exact hs.registered
  · exact hs.ready
  · exact hs.sound
  · exact hs.handedOnce
  · exact hs.handedEarlier
  · exact hs.handedEx
  · exact hs.waiterEx
  · exact hs.pendingHanded
  · exact hs.resumedOnce
  · exact hs.resumedEarlier
  · exact hs.resumedHanded

theorem Inv.move {s : Sys T E} (hs : Inv s) {c : Consumer E} (hold : s.consumer.isSuspended = false)
    (hnew : c.isSuspended = false) (hb : c ≠ .broken) (hr : c = .resuming → s.st.Ready) :
    Inv { s with consumer := c } := by
  have ho := hs.outstanding
  have hre := hs.resumedEarlier
  rw [hold] at ho hre
  constructor <;> simp only [Sys.pending,hnew]
  · exact hs.idle
  · exact ho
  · simp
  · intro h _
    rcases h with h | h
    · exact hr h
    · simp at h
  · exact hb
  · exact hs.handedOnce
  · exact hs.handedEarlier
  · exact hs.handedEx
  · exact hs.waiterEx
  · exact hs.pendingHanded
  · exact hs.resumedOnce
  · exact hre
  · exact hs.resumedHanded

theorem Inv.suspend {s : Sys T E} (hs : Inv s) {ex : Option E}
    (hc : s.consumer = .suspending ex) (hr : ¬ s.st.Ready) :
    Inv { s with
      st := { s.st with waiter := some s.suspensions.length, waiterEx := ex }
      consumer := .suspended
      suspensions := s.suspensions++[ex] } := by
  have hsus : s.consumer.isSuspended = false := by simp [hc,Consumer.isSuspended]
  have ho := hs.outstanding
  have hre := hs.resumedEarlier
  simp only [Sys.pending,hsus,Bool.false_eq_true,if_false,List.append_eq_nil_iff] at ho
  simp only [hsus] at hre
  obtain ⟨⟨hwait,hin⟩,hpost⟩ := ho
  simp only [MpscState.Ready,not_or,not_not,Bool.not_eq_true] at hr
  have he : ∀ w ∈ s.handed, w.handle < s.suspensions.length := by
    intro w hw
    have h := hs.handedEarlier w hw
    omega
  constructor <;> simp only [Sys.pending,Consumer.isSuspended,if_true]
  · exact fun _ _ => hr
  · simp [hin,hpost]
  · simp
  · simp
  · simp
  · exact hs.handedOnce
  · intro w hw
    have h := he w hw
    simp; omega
  · intro w hw
    rw [List.getElem?_append_left (he w hw)]
    exact hs.handedEx w hw
  · rintro h ⟨⟩
    simp
  · exact hs.pendingHanded
  · exact hs.resumedOnce
  · intro h hh
    have hlt := hre h hh
    simp at hlt ⊢; omega
  · exact hs.resumedHanded

theorem Inv.schedule {s : Sys T E} (hs : Inv s) {w : Wake E} (hin : s.inHand = [w])
    (hpost : s.posted = []) : Inv { s with inHand := [], posted := [w] } := by
  have ho := hs.outstanding
  simp only [Sys.pending,hin,hpost] at ho
  constructor
  · exact hs.idle
  · simpa [Sys.pending] using ho
  · exact hs.registered
  · exact hs.ready
  · exact hs.sound
  · exact hs.handedOnce
  · exact hs.handedEarlier
  · exact hs.handedEx
  · exact hs.waiterEx
  · intro v hv
    have hvw : v = w := by simpa using hv
    exact hvw ▸ hs.pendingHanded w (.inl (by simp [hin]))
  · exact hs.resumedOnce
  · exact hs.resumedEarlier
  · exact hs.resumedHanded

variable [DecidableEq E]

theorem Inv.step {s t : Sys T E} {a : Action T E} (hs : Inv s) (h : step s a = some t) : Inv t := by
  cases a with
  | send v =>
    simp only [Channel.step,Option.ite_none_left_eq_some,Option.some.injEq] at h
    obtain ⟨-,rfl⟩ := h
    exact leave_send (hs.bookkeeping s.st rfl rfl rfl rfl _ _ _) v
  | close =>
    simp only [Channel.step,Option.ite_none_left_eq_some,Option.some.injEq] at h
    obtain ⟨-,rfl⟩ := h
    exact leave_closeLocked hs
  | copy =>
    simp only [Channel.step,Option.ite_none_left_eq_some,Option.some.injEq] at h
    obtain ⟨-,rfl⟩ := h
    exact hs.bookkeeping { s.st with senders := s.st.senders+1 } rfl rfl rfl rfl _ _ _
  | drop =>
    simp only [Channel.step,Option.ite_none_left_eq_some,Option.some.injEq] at h
    obtain ⟨-,rfl⟩ := h
    exact hs.bookkeeping { s.st with senders := s.st.senders-1 } rfl rfl rfl rfl _ _ _
  | dropClose =>
    simp only [Channel.step,Option.ite_none_left_eq_some,Option.some.injEq] at h
    obtain ⟨-,rfl⟩ := h
    exact leave_closeLocked (hs.bookkeeping s.st rfl rfl rfl rfl _ _ _)
  | wake w =>
    simp only [Channel.step] at h
    split at h
    case isFalse => simp at h
    case isTrue hw =>
      obtain ⟨-,-,-,⟨hin,hpost⟩ | ⟨hin,-⟩⟩ := hs.wake_eq (.inl hw)
      case inr => simp [hin] at hw
      simp only [hin,hpost,List.erase_cons_head] at h
      cases hex : w.ex with
      | none =>
        simp only [hex,Option.some.injEq] at h
        subst h
        exact hs.resume (.inl hw) (by simp)
      | some e =>
        simp only [hex,Option.some.injEq] at h
        subst h
        exact hs.schedule hin hpost
  | runPosted w =>
    simp only [Channel.step] at h
    split at h
    case isFalse => simp at h
    case isTrue hw =>
      obtain ⟨-,-,-,⟨-,hpost⟩ | ⟨hin,hpost⟩⟩ := hs.wake_eq (.inr hw)
      case inl => simp [hpost] at hw
      simp only [Option.some.injEq] at h
      subst h
      exact hs.resume (.inr hw) (by simp [hin,hpost])
  | recv ex =>
    cases hc : s.consumer <;> simp only [Channel.step,hc,reduceCtorEq,Option.some.injEq] at h
    subst h
    cases hr : s.st.awaitReady with
    | false =>
      exact hs.move (by simp [hc,Consumer.isSuspended]) (by simp [Consumer.isSuspended]) (by simp)
        (by simp)
    | true =>
      exact hs.move (by simp [hc,Consumer.isSuspended]) (by simp [Consumer.isSuspended]) (by simp)
        (fun _ => (awaitReady_iff s.st).mp hr)
  | awaitSuspend =>
    cases hc : s.consumer <;> simp only [Channel.step,hc,reduceCtorEq] at h
    case suspending ex =>
    by_cases hr : s.st.awaitReady = true
    · have hb : (s.st.awaitSuspend s.suspensions.length ex).1 = false := by
        simp [MpscState.awaitSuspend,MpscState.awaitReady] at hr ⊢
        simp [hr]
      simp only [hb,Bool.false_eq_true,if_false,Option.some.injEq] at h
      subst h
      exact hs.move (by simp [hc,Consumer.isSuspended]) (by simp [Consumer.isSuspended]) (by simp)
        (fun _ => (awaitReady_iff s.st).mp hr)
    · have hb : s.st.awaitSuspend s.suspensions.length ex =
          (true,{ s.st with waiter := some s.suspensions.length, waiterEx := ex }) := by
        have hr' := hr
        simp only [MpscState.awaitReady] at hr'
        simp [MpscState.awaitSuspend,hr']
      simp only [hb,if_true,Option.some.injEq] at h
      subst h
      exact hs.suspend hc (fun h => hr ((awaitReady_iff s.st).mpr h))
  | awaitResume =>
    cases hc : s.consumer <;> simp only [Channel.step,hc,reduceCtorEq,Option.some.injEq] at h
    subst h
    refine hs.take (.inr hc) _ ?_ _
    cases hq : s.st.queue <;> simp [MpscState.awaitResume,hq]
  | tryRecv =>
    cases hc : s.consumer <;> simp only [Channel.step,hc,reduceCtorEq,Option.some.injEq] at h
    subst h
    have ht := hs.take (.inl hc) s.st.tryRecv.2
      (by cases hq : s.st.queue <;> simp [MpscState.tryRecv,hq]) (s.received++s.st.tryRecv.1.toList)
    simpa [Sys.take,hc] using ht
  | dropReceiver =>
    cases hc : s.consumer <;> simp only [Channel.step,hc,reduceCtorEq,Option.some.injEq] at h
    subst h
    exact leave_closeLocked (hs.move (c := .gone) (by simp [hc,Consumer.isSuspended])
      (by simp [Consumer.isSuspended]) (by simp) (by simp))

theorem Inv.run {as : List (Action T E)} {s : Sys T E}
    (h : Trace.run Channel.step Channel.unbounded as = some s) : Inv s :=
  Trace.run_keeps (fun _ _ _ hs hstep => hs.step hstep) Inv.unbounded h

end Channel
end AsioQuickjs
