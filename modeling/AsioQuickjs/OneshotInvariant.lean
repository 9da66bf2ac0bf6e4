import AsioQuickjs.Oneshot

/-! The two invariants of the oneshot channel: who still has the sending end and what has
come through, and which suspension of the consumer has its wakeup ahead of it. What the
two ends agree on follows from them. -/
namespace AsioQuickjs
namespace Oneshot

open Channel (Wake Taken Consumer)

variable {T E : Type}

def Sys.Attached (s : Sys T E) (k : ℕ) : Prop := s.handles k = some true

/-- Some `Sender` has the state, or a `close` has taken it and is on its way to the lock. -/
def Sys.Live (s : Sys T E) : Prop := (∃ k, s.Attached k) ∨ ∃ next, s.sender = .closing next

/-- The state is answered: by a value or by the end of its sender. -/
def OneshotState.Ready (st : OneshotState T E) : Prop := st.sent = true ∨ st.closed = true

theorem awaitReady_iff (st : OneshotState T E) : st.awaitReady = true ↔ st.Ready := by
  simp [OneshotState.awaitReady,OneshotState.Ready]

theorem awaitSuspend_ready {st : OneshotState T E} (hr : st.Ready) (h : ℕ) (ex : Option E) :
    st.awaitSuspend h ex = (false,st) := by
  rcases hr with hr | hr <;> simp [OneshotState.awaitSuspend,hr]

theorem awaitSuspend_open {st : OneshotState T E} (hr : ¬ st.Ready) (h : ℕ) (ex : Option E) :
    st.awaitSuspend h ex = (true,{ st with waiter := some h, waiterEx := ex }) := by
  simp only [OneshotState.Ready,not_or,Bool.not_eq_true] at hr
  simp [OneshotState.awaitSuspend,hr]

theorem send_fst (st : OneshotState T E) (v : T) : (st.send v).1 = true ↔ ¬ st.Ready := by
  cases hs : st.sent <;> cases hc : st.closed <;> simp [OneshotState.send,OneshotState.Ready,hs,hc]

section

variable (s : Sys T E) (r : Taken E × OneshotState T E)

@[simp] theorem leave_st : (s.leave r).st = r.2 := by
  rcases r with ⟨⟨_ | h,ex⟩,st⟩ <;> rfl

@[simp] theorem leave_handles : (s.leave r).handles = s.handles := by
  rcases r with ⟨⟨_ | h,ex⟩,st⟩ <;> rfl

@[simp] theorem leave_sender : (s.leave r).sender = s.sender := by
  rcases r with ⟨⟨_ | h,ex⟩,st⟩ <;> rfl

@[simp] theorem leave_accepted : (s.leave r).accepted = s.accepted := by
  rcases r with ⟨⟨_ | h,ex⟩,st⟩ <;> rfl

@[simp] theorem leave_attached (k : ℕ) : (s.leave r).Attached k ↔ s.Attached k := by
  rcases r with ⟨⟨_ | h,ex⟩,st⟩ <;> rfl

@[simp] theorem leave_received : (s.leave r).received = s.received := by
  rcases r with ⟨⟨_ | h,ex⟩,st⟩ <;> rfl

end

structure Agreement (s : Sys T E) : Prop where
  exclusive : s.st.sent = true → s.st.closed = false
  held : ∀ k, s.Attached k → s.st.closed = false ∧ (s.st.sent = true → s.sender = .sent k) ∧
    ∀ next, s.sender ≠ .closing next
  unique : ∀ i k, s.Attached i → s.Attached k → i = k
  sending : ∀ k, s.sender = .sent k → s.st.sent = true
  closing : ∀ next, s.sender = .closing next → ¬ s.st.Ready
  target : ∀ dst src, s.sender = .closing (some (dst,src)) ∨ s.sender = .assigning dst src →
    ¬ s.Attached dst
  gone : ¬ s.st.Ready → s.Live
  accepted : s.accepted.length = if s.st.sent then 1 else 0
  value : s.st.value = if s.received = [] then s.accepted.head? else none
  received : s.received = [] ∨
    s.st.Ready ∧ ∃ n, s.received = s.accepted.head?::List.replicate n none

theorem agreement_channel : Agreement (channel : Sys T E) := by
  constructor <;> simp [channel,Sys.Attached,Sys.Live,Sys.accepted,OneshotState.Ready]

theorem Agreement.frame {s t : Sys T E} (hs : Agreement s)
    (hst : t.st.sent = s.st.sent ∧ t.st.closed = s.st.closed ∧ t.st.value = s.st.value)
    (hsender : t.handles = s.handles ∧ t.sender = s.sender)
    (hlogs : t.sends = s.sends ∧ t.received = s.received) : Agreement t := by
  obtain ⟨hsent,hclosed,hvalue⟩ := hst
  obtain ⟨hexcl,hheld,huniq,hsend,hclos,htarget,hgone,hacc,hval,hrec⟩ := hs
  constructor <;>
    simp only [Sys.Attached,Sys.Live,Sys.accepted,OneshotState.Ready,hsent,hclosed,hvalue,
      hsender,hlogs] <;> assumption

theorem transfer_attached (s : Sys T E) (dst src k : ℕ) :
    (s.transfer dst src).Attached k ↔
      k = dst ∧ s.Attached src ∨ k ≠ dst ∧ k ≠ src ∧ s.Attached k := by
  simp only [Sys.transfer,Sys.setHandle,Sys.Attached,Function.update_apply]
  grind

theorem setHandle_attached {s : Sys T E} {k : ℕ} {b : Option Bool} (hb : b ≠ some true) (i : ℕ) :
    (s.setHandle k b).Attached i ↔ i ≠ k ∧ s.Attached i := by
  simp only [Sys.setHandle,Sys.Attached,Function.update_apply]
  grind

theorem Agreement.open_of_idle {s : Sys T E} (hs : Agreement s) (hidle : s.sender = .idle)
    {k : ℕ} (hk : s.Attached k) : ¬ s.st.Ready := by
  obtain ⟨hclosed,hsent,-⟩ := hs.held k hk
  rintro (h | h)
  · have hsender := hsent h
    simp [hidle] at hsender
  · simp [hclosed] at h

theorem held_of_open {s : Sys T E} (h : ¬ s.st.Ready) (hidle : s.sender = .idle) (k : ℕ) :
    s.st.closed = false ∧ (s.st.sent = true → s.sender = .sent k) ∧
      ∀ next, s.sender ≠ .closing next := by
  simp only [OneshotState.Ready,not_or,Bool.not_eq_true] at h
  simp [h,hidle]

theorem Agreement.transfer {s : Sys T E} (hs : Agreement s) (hidle : s.sender = .idle)
    {dst src : ℕ} (hdst : ¬ s.Attached dst) : Agreement (s.transfer dst src) := by
  have hsender : (s.transfer dst src).sender = .idle := hidle
  have hst : (s.transfer dst src).st = s.st := rfl
  refine ⟨hs.exclusive,fun k hk => ?_,fun i k hi hk => ?_,?_,?_,?_,fun hr => ?_,hs.accepted,
    hs.value,hs.received⟩
  · rw [transfer_attached] at hk
    have hopen : ¬ s.st.Ready := by
      rcases hk with ⟨-,hk⟩ | ⟨-,-,hk⟩ <;> exact hs.open_of_idle hidle hk
    exact held_of_open hopen hidle k
  · rw [transfer_attached] at hi hk
    rcases hi with ⟨rfl,hi⟩ | ⟨-,hisrc,hi⟩ <;> rcases hk with ⟨rfl,hk⟩ | ⟨-,hksrc,hk⟩
    · rfl
    · exact absurd (hs.unique _ _ hk hi) hksrc
    · exact absurd (hs.unique _ _ hi hk) hisrc
    · exact hs.unique _ _ hi hk
  · simp [hsender]
  · simp [hsender]
  · simp [hsender]
  · rw [hst] at hr
    rcases hs.gone hr with ⟨k,hk⟩ | ⟨next,hnext⟩
    · refine .inl ?_
      by_cases hksrc : k = src
      · subst hksrc
        exact ⟨dst,(transfer_attached _ _ _ _).mpr (.inl ⟨rfl,hk⟩)⟩
      · have hkdst : k ≠ dst := fun he => hdst (he ▸ hk)
        exact ⟨k,(transfer_attached _ _ _ _).mpr (.inr ⟨hkdst,hksrc,hk⟩)⟩
    · simp [hidle] at hnext

theorem Agreement.setHandle {s : Sys T E} (hs : Agreement s) {k : ℕ} (hk : ¬ s.Attached k)
    {b : Option Bool} (hb : b ≠ some true) : Agreement (s.setHandle k b) := by
  have hsame : ∀ i, (s.setHandle k b).Attached i ↔ s.Attached i := fun i => by
    rw [setHandle_attached hb,and_iff_right_iff_imp]
    rintro hi rfl
    exact hk hi
  refine ⟨hs.exclusive,fun i hi => hs.held i ((hsame i).mp hi),?_,hs.sending,hs.closing,?_,
    fun hr => ?_,hs.accepted,hs.value,hs.received⟩
  · simpa only [hsame] using hs.unique
  · intro dst src hnext
    rw [hsame]
    exact hs.target dst src hnext
  · rcases hs.gone hr with ⟨i,hi⟩ | hnext
    · exact .inl ⟨i,(hsame i).mpr hi⟩
    · exact .inr hnext

theorem Agreement.rest {s : Sys T E} (hs : Agreement s) {k : ℕ} (hk : s.sender = .sent k) :
    Agreement { s.setHandle k (some false) with sender := .idle } := by
  have hsent := hs.sending k hk
  have hnone : ∀ i, ¬ Sys.Attached { s.setHandle k (some false) with sender := .idle } i := by
    intro i hi
    have hi' : (s.setHandle k (some false)).Attached i := hi
    rw [setHandle_attached (by simp)] at hi'
    have hsender := (hs.held i hi'.2).2.1 hsent
    rw [hk] at hsender
    exact hi'.1 (Sending.sent.inj hsender).symm
  refine ⟨hs.exclusive,?_,?_,?_,?_,?_,fun hr => absurd (.inl hsent) hr,hs.accepted,hs.value,
    hs.received⟩
  · exact fun i hi => absurd hi (hnone i)
  · exact fun i _ hi => absurd hi (hnone i)
  · simp
  · simp
  · simp

theorem Agreement.assign {s : Sys T E} (hs : Agreement s) {dst src : ℕ}
    (hk : s.sender = .assigning dst src) :
    Agreement ({ s with sender := .idle }.transfer dst src) := by
  have hidle : Agreement { s with sender := .idle } := by
    refine ⟨hs.exclusive,fun k hk' => ?_,hs.unique,?_,?_,?_,fun hr => ?_,hs.accepted,hs.value,
      hs.received⟩
    · obtain ⟨hclosed,hsent,-⟩ := hs.held k hk'
      refine ⟨hclosed,fun h => ?_,by simp⟩
      simp [hk] at hsent
      simp [hsent] at h
    · simp
    · simp
    · simp
    · rcases hs.gone hr with hlive | ⟨next,hnext⟩
      · exact .inl hlive
      · simp [hk] at hnext
  exact hidle.transfer rfl (hs.target dst src (.inr hk))

theorem Agreement.detach {s : Sys T E} (hs : Agreement s) (hidle : s.sender = .idle) {k : ℕ}
    (hk : s.Attached k) {b : Option Bool} (hb : b ≠ some true) (next : Option (ℕ × ℕ)) :
    Agreement { s.setHandle k b with sender := .closing next } := by
  have hnone : ∀ i, ¬ Sys.Attached { s.setHandle k b with sender := .closing next } i := by
    intro i hi
    have hi' : (s.setHandle k b).Attached i := hi
    rw [setHandle_attached hb] at hi'
    exact hi'.1 (hs.unique _ _ hi'.2 hk)
  have hopen := hs.open_of_idle hidle hk
  refine ⟨hs.exclusive,?_,?_,?_,?_,?_,fun _ => .inr ⟨next,rfl⟩,hs.accepted,hs.value,hs.received⟩
  · exact fun i hi => absurd hi (hnone i)
  · exact fun i _ hi => absurd hi (hnone i)
  · simp
  · exact fun _ _ => hopen
  · exact fun dst src _ => hnone dst

theorem accepted_none {s : Sys T E} (hs : Agreement s) (hopen : ¬ s.st.Ready) :
    s.st.sent = false ∧ s.st.closed = false ∧ s.accepted = [] ∧ s.received = [] := by
  have hrec := hs.received.resolve_right fun h => hopen h.1
  have hacc := hs.accepted
  simp only [OneshotState.Ready,not_or,Bool.not_eq_true] at hopen
  rw [hopen.1] at hacc
  exact ⟨hopen.1,hopen.2,List.eq_nil_of_length_eq_zero hacc,hrec⟩

theorem Agreement.closeLocked {s : Sys T E} (hs : Agreement s) {next : Option (ℕ × ℕ)}
    (hk : s.sender = .closing next) {p : Sending} (hp : ∀ k n, p ≠ .sent k ∧ p ≠ .closing n) :
    Agreement ({ s with sender := p }.leave s.st.closeLocked) := by
  have hnone : ∀ i, ¬ Sys.Attached { s with sender := p } i := fun i hi =>
    (hs.held i hi).2.2 next hk
  obtain ⟨hsent,hclosed,hacc,hrec⟩ := accepted_none hs (hs.closing next hk)
  have hacc' : Sys.accepted { s with sender := p } = [] := hacc
  have hval := hs.value
  rw [hrec,hacc,if_pos rfl,List.head?_nil] at hval
  have hst : s.st.closeLocked.2 =
      { s.st with closed := true, waiter := none, waiterEx := none } := by
    simp [OneshotState.closeLocked,hsent,hclosed]
  constructor
  · simp [hst,hsent]
  · exact fun k hk => absurd ((leave_attached _ _ k).mp hk) (hnone k)
  · exact fun k _ hk => absurd ((leave_attached _ _ k).mp hk) (hnone k)
  · simp [fun k => (hp k none).1]
  · simp [fun n => (hp 0 n).2]
  · simpa using fun k _ _ => hnone k
  · simp [hst,OneshotState.Ready]
  · simp [hst,hsent,hacc']
  · rw [leave_accepted,hacc',leave_received,leave_st,hst]
    simp [hrec,hval]
  · simp [hrec]

theorem Agreement.send {s : Sys T E} (hs : Agreement s) (hidle : s.sender = .idle) {k : ℕ}
    (hk : s.Attached k) (v : T) :
    Agreement ({ s with sends := s.sends++[(v,true)], sender := .sent k }.leave
      (s.st.send v).2) := by
  obtain ⟨hsent,hclosed,hacc,hrec⟩ := accepted_none hs (hs.open_of_idle hidle hk)
  have hst : (s.st.send v).2.2 =
      { s.st with sent := true, value := some v, waiter := none, waiterEx := none } := by
    simp [OneshotState.send,hsent,hclosed]
  have hacc' : Sys.accepted { s with sends := s.sends++[(v,true)], sender := .sent k } = [v] := by
    simp only [Sys.accepted] at hacc
    simp [Sys.accepted,hacc]
  have hunique : ∀ i, Sys.Attached { s with sends := s.sends++[(v,true)], sender := .sent k } i →
      k = i := fun i hi => hs.unique k i hk hi
  constructor
  · simp [hst,hclosed]
  · intro i hi
    rw [leave_attached] at hi
    simp [hst,hclosed,hunique i hi]
  · intro i j hi hj
    rw [leave_attached] at hi hj
    rw [← hunique i hi,← hunique j hj]
  · simp [hst]
  · simp
  · simp
  · simp [hst,OneshotState.Ready]
  · simp [hst,hacc']
  · rw [leave_accepted,hacc',leave_received,leave_st,hst]
    simp [hrec]
  · simp [hrec]

theorem Agreement.take {s : Sys T E} (hs : Agreement s) (hr : s.st.Ready) :
    Agreement { s with
      st := s.st.awaitResume.2
      consumer := .running
      received := s.received++[s.st.awaitResume.1] } := by
  have hval := hs.value
  refine ⟨hs.exclusive,hs.held,hs.unique,hs.sending,hs.closing,hs.target,hs.gone,hs.accepted,?_,
    .inr ⟨hr,?_⟩⟩
  · simp [OneshotState.awaitResume]
  · rcases hs.received with hrec | ⟨-,n,hrec⟩
    · rw [hrec,if_pos rfl] at hval
      exact ⟨0,by simp [OneshotState.awaitResume,hval,hrec]; rfl⟩
    · rw [hrec,if_neg (by simp)] at hval
      exact ⟨n+1,by simp [OneshotState.awaitResume,hval,hrec,List.replicate_succ']; rfl⟩

theorem Agreement.close {s t : Sys T E} (hs : Agreement s) {k : ℕ} {b : Option Bool}
    (hb : b ≠ some true) {next : Option (ℕ × ℕ)} (h : close s k b next = some t) :
    Agreement t := by
  revert h
  fun_cases Oneshot.close s k b next <;> rintro ⟨⟩
  case case1 hk hidle => exact hs.detach hidle hk hb next
  case case2 hk _ => exact hs.setHandle (by simp [Sys.Attached,hk]) hb

theorem Agreement.sendStep {s t : Sys T E} (hs : Agreement s) {k : ℕ} {v : T}
    (h : Oneshot.send s k v = some t) : Agreement t := by
  have hrefused : Agreement { s with sends := s.sends++[(v,false)] } := by
    have hacc : Sys.accepted { s with sends := s.sends++[(v,false)] } = s.accepted := by
      simp [Sys.accepted]
    refine ⟨hs.exclusive,hs.held,hs.unique,hs.sending,hs.closing,hs.target,hs.gone,?_,?_,?_⟩
    · rw [hacc]
      exact hs.accepted
    · rw [hacc]
      exact hs.value
    · rw [hacc]
      exact hs.received
  revert h
  fun_cases Oneshot.send s k v <;> rintro ⟨⟩
  case case1 hk hidle _ _ => exact hs.send hidle hk v
  case case2 => exact hrefused
  case case3 => exact hrefused

variable [DecidableEq E] in
theorem Agreement.step {s t : Sys T E} {a : Action T E} (hs : Agreement s)
    (hr : s.consumer = .resuming → s.st.Ready) (h : step s a = some t) : Agreement t := by
  cases a with
  | construct k =>
    simp only [Oneshot.step,Option.ite_none_right_eq_some,Option.some.injEq] at h
    obtain ⟨hk,rfl⟩ := h
    exact hs.setHandle (by simp [Sys.Attached,hk]) (by simp)
  | send k v => exact hs.sendStep h
  | reset =>
    cases hk : s.sender <;> simp only [Oneshot.step,hk,reduceCtorEq,Option.some.injEq] at h
    subst h
    exact hs.rest hk
  | close k => exact hs.close (by simp) h
  | drop k => exact hs.close (by simp) h
  | moveConstruct dst src =>
    simp only [Oneshot.step] at h
    revert h
    fun_cases moveConstruct s dst src <;> rintro ⟨⟩
    rename_i _ hdst hidle
    exact hs.transfer hidle (by simp [Sys.Attached,hdst])
  | moveAssign dst src =>
    simp only [Oneshot.step] at h
    revert h
    fun_cases moveAssign s dst src <;> try rintro ⟨⟩
    · exact hs
    · exact fun h => hs.close (by simp) h
    · rename_i hdst hidle _ hdetached
      exact hs.transfer hidle (by simpa [Sys.Attached,hdst] using hdetached)
  | closeLocked =>
    cases hk : s.sender <;> simp only [Oneshot.step,hk,reduceCtorEq] at h
    rename_i next
    rcases next with _ | ⟨dst,src⟩ <;> cases h <;> exact hs.closeLocked hk (by simp)
  | assign =>
    cases hk : s.sender <;> simp only [Oneshot.step,hk,reduceCtorEq,Option.some.injEq] at h
    subst h
    exact hs.assign hk
  | wake w =>
    simp only [Oneshot.step,Option.ite_none_right_eq_some] at h
    obtain ⟨-,h⟩ := h
    cases hex : w.ex <;> simp only [hex,Option.some.injEq] at h <;> subst h <;>
      exact hs.frame ⟨rfl,rfl,rfl⟩ ⟨rfl,rfl⟩ ⟨rfl,rfl⟩
  | runPosted w =>
    simp only [Oneshot.step,Option.ite_none_right_eq_some,Option.some.injEq] at h
    obtain ⟨-,rfl⟩ := h
    exact hs.frame ⟨rfl,rfl,rfl⟩ ⟨rfl,rfl⟩ ⟨rfl,rfl⟩
  | recv ex =>
    cases hc : s.consumer <;> simp only [Oneshot.step,hc,reduceCtorEq,Option.some.injEq] at h
    subst h
    exact hs.frame ⟨rfl,rfl,rfl⟩ ⟨rfl,rfl⟩ ⟨rfl,rfl⟩
  | awaitSuspend =>
    cases hc : s.consumer <;> simp only [Oneshot.step,hc,reduceCtorEq] at h
    simp only [OneshotState.awaitSuspend] at h
    split at h <;> split at h <;> simp only [Option.some.injEq] at h <;> subst h <;>
      exact hs.frame ⟨rfl,rfl,rfl⟩ ⟨rfl,rfl⟩ ⟨rfl,rfl⟩
  | awaitResume =>
    cases hc : s.consumer <;> simp only [Oneshot.step,hc,reduceCtorEq,Option.some.injEq] at h
    subst h
    exact hs.take (hr hc)

/-- Suspensions that still have a wakeup coming, wherever it currently is. -/
def Sys.pending (s : Sys T E) : List ℕ :=
  s.st.waiter.toList++s.inHand.map Wake.handle++s.posted.map Wake.handle

structure Wakeup (s : Sys T E) : Prop where
  idle : ∀ h, s.st.waiter = some h → ¬ s.st.Ready
  ready : s.consumer = .resuming ∨ s.consumer.isSuspended = true → s.st.waiter = none → s.st.Ready
  order : s.resumed++s.pending = List.range s.suspensions
  one : s.pending.length = if s.consumer.isSuspended then 1 else 0
  taken : s.handed++s.st.waiter.toList = List.range s.suspensions
  sound : s.consumer ≠ .broken

theorem wakeup_channel : Wakeup (channel : Sys T E) := by
  constructor <;> simp [channel,Sys.pending,Consumer.isSuspended]

theorem Wakeup.frame {s t : Sys T E} (hs : Wakeup s)
    (hst : t.st.waiter = s.st.waiter ∧ t.st.sent = s.st.sent ∧ t.st.closed = s.st.closed)
    (hconsumer : t.consumer = s.consumer ∧ t.suspensions = s.suspensions)
    (hwakes : t.inHand = s.inHand ∧ t.posted = s.posted ∧ t.handed = s.handed ∧
      t.resumed = s.resumed) : Wakeup t := by
  obtain ⟨hidle,hready,horder,hone,htaken,hsound⟩ := hs
  constructor <;>
    simp only [Sys.pending,OneshotState.Ready,hst,hconsumer,hwakes] <;> assumption

theorem last_range {l : List ℕ} {x n : ℕ} (h : l++[x] = List.range n) :
    x+1 = n ∧ l = List.range x := by
  cases n with
  | zero => simp at h
  | succ n =>
    rw [List.range_succ] at h
    obtain ⟨hl,hx⟩ := List.append_inj' h rfl
    obtain rfl : x = n := by simpa using hx
    exact ⟨rfl,hl⟩

/-- Where there is a waiter, it is the latest suspension and no other wakeup is coming. -/
theorem Wakeup.waiter_eq {s : Sys T E} (hs : Wakeup s) {h : ℕ} (hw : s.st.waiter = some h) :
    s.consumer.isSuspended = true ∧ s.inHand = [] ∧ s.posted = [] := by
  have hone := hs.one
  cases hc : s.consumer.isSuspended with
  | false => simp [Sys.pending,hw,hc] at hone
  | true => simpa [Sys.pending,hw,hc] using hone

theorem Wakeup.wake_eq {s : Sys T E} (hs : Wakeup s) {w : Wake E}
    (hw : w ∈ s.inHand ∨ w ∈ s.posted) :
    s.consumer = .suspended ∧ w.handle+1 = s.suspensions ∧ s.resumed = List.range w.handle ∧
      s.st.waiter = none ∧ (s.inHand = [w] ∧ s.posted = [] ∨ s.inHand = [] ∧ s.posted = [w]) := by
  have hone := hs.one
  have hsus : s.consumer.isSuspended = true := by
    by_contra hc
    simp only [Sys.pending,hc,if_false,List.length_eq_zero_iff,List.append_eq_nil_iff,
      List.map_eq_nil_iff] at hone
    rcases hw with hw | hw <;> simp [hone] at hw
  have hsuspended : s.consumer = .suspended := by
    cases he : s.consumer <;> simp_all [Consumer.isSuspended]
  rw [hsus,if_pos rfl] at hone
  obtain ⟨x,hx⟩ := List.length_eq_one_iff.mp hone
  have hlast := last_range (hx ▸ hs.order)
  have hwaiter : s.st.waiter = none := by
    cases he : s.st.waiter with
    | none => rfl
    | some h =>
      obtain ⟨-,hin,hpost⟩ := hs.waiter_eq he
      rcases hw with hw | hw <;> simp [hin,hpost] at hw
  have hlists : s.inHand = [w] ∧ s.posted = [] ∨ s.inHand = [] ∧ s.posted = [w] := by
    simp only [Sys.pending,List.length_append,List.length_map] at hone
    rcases hw with hw | hw
    · have hpos := List.length_pos_of_mem hw
      obtain ⟨v,hv⟩ := List.length_eq_one_iff.mp (show s.inHand.length = 1 by omega)
      have hp : s.posted = [] := List.length_eq_zero_iff.mp (by omega)
      obtain rfl : w = v := by simpa [hv] using hw
      exact .inl ⟨hv,hp⟩
    · have hpos := List.length_pos_of_mem hw
      obtain ⟨v,hv⟩ := List.length_eq_one_iff.mp (show s.posted.length = 1 by omega)
      have hp : s.inHand = [] := List.length_eq_zero_iff.mp (by omega)
      obtain rfl : w = v := by simpa [hv] using hw
      exact .inr ⟨hp,hv⟩
  obtain rfl : x = w.handle := by
    rcases hlists with ⟨hin,hpost⟩ | ⟨hin,hpost⟩ <;>
      simpa [Sys.pending,hwaiter,hin,hpost,eq_comm] using hx
  exact ⟨hsuspended,hlast.1,hlast.2,hwaiter,hlists⟩

theorem Wakeup.leave {s : Sys T E} (hs : Wakeup s) {r : Taken E × OneshotState T E}
    (ht : r.1.1 = s.st.waiter) (hw : r.2.waiter = none) (hr : r.2.Ready) :
    Wakeup (s.leave r) := by
  rcases r with ⟨⟨w,ex⟩,st⟩
  obtain rfl : w = s.st.waiter := ht
  have horder := hs.order
  have hone := hs.one
  have htaken := hs.taken
  simp only at hw hr
  cases hwait : s.st.waiter with
  | none =>
    simp only [Sys.pending,hwait] at horder hone htaken
    constructor <;> simp only [Sys.leave,Sys.pending,hw]
    · simp
    · exact fun _ _ => hr
    · exact horder
    · exact hone
    · exact htaken
    · exact hs.sound
  | some h =>
    obtain ⟨hsus,hin,hpost⟩ := hs.waiter_eq hwait
    simp only [Sys.pending,hwait,hin,hpost] at horder hone htaken
    constructor <;> simp only [Sys.leave,Sys.pending,hw,hin,hpost]
    · simp
    · exact fun _ _ => hr
    · simpa using horder
    · simpa using hone
    · simpa using htaken
    · exact hs.sound

theorem Wakeup.resume {s u : Sys T E} (hs : Wakeup s) {w : Wake E}
    (hw : w ∈ s.inHand ∨ w ∈ s.posted) (hu : u = { s with inHand := [], posted := [] }) :
    Wakeup (u.resume w.handle) := by
  subst hu
  obtain ⟨hsus,hlast,hresumed,hwaiter,-⟩ := hs.wake_eq hw
  have hready := hs.ready (.inr (by simp [hsus,Consumer.isSuspended])) hwaiter
  have htaken := hs.taken
  rw [hwaiter] at htaken
  constructor <;> simp only [Sys.resume,Sys.pending,hsus,hlast,if_true,hwaiter]
  · simp
  · exact fun _ _ => hready
  · simp [hresumed,← hlast,List.range_succ]
  · simp [Consumer.isSuspended]
  · exact htaken
  · simp

theorem Wakeup.move {s : Sys T E} (hs : Wakeup s) {st : OneshotState T E} {c : Consumer E}
    {rs : List (Option T)} (hold : s.consumer.isSuspended = false)
    (hst : st.waiter = s.st.waiter ∧ st.sent = s.st.sent ∧ st.closed = s.st.closed)
    (hnew : c.isSuspended = false) (hb : c ≠ .broken) (hr : c = .resuming → s.st.Ready) :
    Wakeup { s with st := st, consumer := c, received := rs } := by
  have hone := hs.one
  rw [hold] at hone
  constructor <;> simp only [Sys.pending,OneshotState.Ready,hst,hnew]
  · exact hs.idle
  · rintro (h | h) -
    · exact hr h
    · cases h
  · exact hs.order
  · exact hone
  · exact hs.taken
  · exact hb

theorem Wakeup.suspend {s : Sys T E} (hs : Wakeup s) {ex : Option E}
    (hc : s.consumer = .suspending ex) (hr : ¬ s.st.Ready) :
    Wakeup { s with
      st := { s.st with waiter := some s.suspensions, waiterEx := ex }
      consumer := .suspended
      suspensions := s.suspensions+1 } := by
  have hone := hs.one
  have horder := hs.order
  have htaken := hs.taken
  have hnone : s.pending = [] := by simpa [hc,Consumer.isSuspended] using hone
  simp only [hnone,List.append_nil] at horder
  simp only [Sys.pending,List.append_eq_nil_iff,List.map_eq_nil_iff,Option.toList_eq_nil_iff]
    at hnone
  simp only [hnone,Option.toList_none,List.append_nil] at htaken
  constructor <;> simp only [Sys.pending,Consumer.isSuspended,if_true,hnone]
  · exact fun _ _ => hr
  · simp
  · simp [horder,List.range_succ]
  · simp
  · simp [htaken,List.range_succ]
  · simp

theorem Wakeup.closeLocked {s : Sys T E} (hs : Wakeup s) :
    Wakeup (s.leave s.st.closeLocked) := by
  by_cases hr : s.st.closed || s.st.sent
  · simpa [OneshotState.closeLocked,hr,Sys.leave] using hs
  · apply hs.leave <;> simp [OneshotState.closeLocked,hr,OneshotState.Ready]

theorem Wakeup.sendStep {s t : Sys T E} (hs : Wakeup s) {k : ℕ} {v : T}
    (h : Oneshot.send s k v = some t) : Wakeup t := by
  have hframe : ∀ l p, Wakeup { s with sends := l, sender := p } := fun _ _ =>
    hs.frame ⟨rfl,rfl,rfl⟩ ⟨rfl,rfl⟩ ⟨rfl,rfl,rfl,rfl⟩
  revert h
  fun_cases Oneshot.send s k v <;> rintro ⟨⟩
  case case1 _ _ r hsent =>
    have hr : ¬ s.st.Ready := (send_fst s.st v).mp hsent
    simp only [OneshotState.Ready,not_or,Bool.not_eq_true] at hr
    have hsend : s.st.send v = (true,(s.st.waiter,s.st.waiterEx),
        { s.st with sent := true, value := some v, waiter := none, waiterEx := none }) := by
      simp [OneshotState.send,hr]
    refine (hframe _ _).leave ?_ ?_ ?_ <;> simp [r,hsend,OneshotState.Ready]
  case case2 => exact hframe _ _
  case case3 => exact hframe _ _

theorem Wakeup.close {s t : Sys T E} (hs : Wakeup s) {k : ℕ} {b : Option Bool}
    {next : Option (ℕ × ℕ)} (h : Oneshot.close s k b next = some t) : Wakeup t := by
  revert h
  fun_cases Oneshot.close s k b next <;> rintro ⟨⟩ <;>
    exact hs.frame ⟨rfl,rfl,rfl⟩ ⟨rfl,rfl⟩ ⟨rfl,rfl,rfl,rfl⟩

variable [DecidableEq E] in
theorem Wakeup.step {s t : Sys T E} {a : Action T E} (hs : Wakeup s) (h : step s a = some t) :
    Wakeup t := by
  cases a with
  | construct k =>
    simp only [Oneshot.step,Option.ite_none_right_eq_some,Option.some.injEq] at h
    obtain ⟨-,rfl⟩ := h
    exact hs.frame ⟨rfl,rfl,rfl⟩ ⟨rfl,rfl⟩ ⟨rfl,rfl,rfl,rfl⟩
  | send k v => exact hs.sendStep h
  | reset =>
    cases hk : s.sender <;> simp only [Oneshot.step,hk,reduceCtorEq,Option.some.injEq] at h
    subst h
    exact hs.frame ⟨rfl,rfl,rfl⟩ ⟨rfl,rfl⟩ ⟨rfl,rfl,rfl,rfl⟩
  | close k => exact hs.close h
  | drop k => exact hs.close h
  | moveConstruct dst src =>
    simp only [Oneshot.step] at h
    revert h
    fun_cases moveConstruct s dst src <;> rintro ⟨⟩
    exact hs.frame ⟨rfl,rfl,rfl⟩ ⟨rfl,rfl⟩ ⟨rfl,rfl,rfl,rfl⟩
  | moveAssign dst src =>
    simp only [Oneshot.step] at h
    revert h
    fun_cases moveAssign s dst src <;> try rintro ⟨⟩
    · exact hs
    · exact fun h => hs.close h
    · exact hs.frame ⟨rfl,rfl,rfl⟩ ⟨rfl,rfl⟩ ⟨rfl,rfl,rfl,rfl⟩
  | closeLocked =>
    have hframe : ∀ p, Wakeup { s with sender := p } := fun _ =>
      hs.frame ⟨rfl,rfl,rfl⟩ ⟨rfl,rfl⟩ ⟨rfl,rfl,rfl,rfl⟩
    cases hk : s.sender <;> simp only [Oneshot.step,hk,reduceCtorEq] at h
    rename_i next
    rcases next with _ | ⟨dst,src⟩ <;> cases h <;> exact (hframe _).closeLocked
  | assign =>
    cases hk : s.sender <;> simp only [Oneshot.step,hk,reduceCtorEq,Option.some.injEq] at h
    subst h
    exact hs.frame ⟨rfl,rfl,rfl⟩ ⟨rfl,rfl⟩ ⟨rfl,rfl,rfl,rfl⟩
  | wake w =>
    simp only [Oneshot.step,Option.ite_none_right_eq_some,List.contains_iff_mem] at h
    obtain ⟨hw,h⟩ := h
    obtain ⟨-,-,-,-,⟨hin,hpost⟩ | ⟨hin,-⟩⟩ := hs.wake_eq (.inl hw)
    case inr => simp [hin] at hw
    simp only [hin,hpost,List.erase_cons_head] at h
    cases hex : w.ex with
    | none =>
      simp only [hex,Option.some.injEq] at h
      subst h
      exact hs.resume (.inl hw) (by simp)
    | some e =>
      simp only [hex,Option.some.injEq] at h
      subst h
      have horder := hs.order
      have hone := hs.one
      simp only [Sys.pending,hin,hpost] at horder hone
      refine ⟨hs.idle,hs.ready,?_,?_,hs.taken,hs.sound⟩
      · simpa [Sys.pending,hpost] using horder
      · simpa [Sys.pending,hpost] using hone
  | runPosted w =>
    simp only [Oneshot.step,Option.ite_none_right_eq_some,Option.some.injEq,
      List.contains_iff_mem] at h
    obtain ⟨hw,rfl⟩ := h
    obtain ⟨-,-,-,-,⟨-,hpost⟩ | ⟨hin,hpost⟩⟩ := hs.wake_eq (.inr hw)
    case inl => simp [hpost] at hw
    exact hs.resume (.inr hw) (by simp [hin,hpost])
  | recv ex =>
    cases hc : s.consumer <;> simp only [Oneshot.step,hc,reduceCtorEq,Option.some.injEq] at h
    subst h
    cases hr : s.st.awaitReady with
    | false =>
      exact hs.move (by simp [hc,Consumer.isSuspended]) ⟨rfl,rfl,rfl⟩
        (by simp [Consumer.isSuspended]) (by simp) (by simp)
    | true =>
      exact hs.move (by simp [hc,Consumer.isSuspended]) ⟨rfl,rfl,rfl⟩
        (by simp [Consumer.isSuspended]) (by simp) (fun _ => (awaitReady_iff s.st).mp hr)
  | awaitSuspend =>
    cases hc : s.consumer <;> simp only [Oneshot.step,hc,reduceCtorEq] at h
    case suspending ex =>
    by_cases hr : s.st.Ready
    · simp only [awaitSuspend_ready hr,Bool.false_eq_true,if_false,Option.some.injEq] at h
      subst h
      exact hs.move (by simp [hc,Consumer.isSuspended]) ⟨rfl,rfl,rfl⟩
        (by simp [Consumer.isSuspended]) (by simp) (fun _ => hr)
    · simp only [awaitSuspend_open hr,if_true,Option.some.injEq] at h
      subst h
      exact hs.suspend hc hr
  | awaitResume =>
    cases hc : s.consumer <;> simp only [Oneshot.step,hc,reduceCtorEq,Option.some.injEq] at h
    subst h
    exact hs.move (by simp [hc,Consumer.isSuspended]) ⟨rfl,rfl,rfl⟩
      (by simp [Consumer.isSuspended]) (by simp) (by simp)

theorem Wakeup.resuming {s : Sys T E} (hs : Wakeup s) (hc : s.consumer = .resuming) :
    s.st.Ready := by
  refine hs.ready (.inl hc) ?_
  cases hw : s.st.waiter with
  | none => rfl
  | some h =>
    have hsus := (hs.waiter_eq hw).1
    simp [hc,Consumer.isSuspended] at hsus

theorem inv_run [DecidableEq E] {as : List (Action T E)} {s : Sys T E}
    (h : Trace.run step channel as = some s) : Agreement s ∧ Wakeup s :=
  Trace.run_keeps (I := fun s => Agreement s ∧ Wakeup s)
    (fun _ _ _ hs hstep => ⟨hs.1.step hs.2.resuming hstep,hs.2.step hstep⟩)
    ⟨agreement_channel,wakeup_channel⟩ h

/-- What the two ends agree on. `received` are the answers of the calls of `recv`. -/
structure Agrees (s : Sys T E) : Prop where
  exclusive : ¬ (s.st.sent = true ∧ s.st.closed = true)
  sentOnce : s.accepted.length ≤ 1
  first : ∀ r rs, s.received = r::rs → r = s.accepted.head? ∧ ∀ q ∈ rs, q = none
  waiter : ∀ h, s.st.waiter = some h → s.st.sent = false ∧ s.st.closed = false ∧ s.Live
  /-- A suspended receiver has a live sender or its wakeup is on the way. -/
  coming : s.consumer = .suspended →
    (∃ h, s.st.waiter = some h) ∨ ∃ w, w ∈ s.inHand ∨ w ∈ s.posted
  wokenOnce : s.handed.Nodup ∧ s.resumed.Nodup ∧ s.consumer ≠ .broken

theorem oneshot_agrees [DecidableEq E] {as : List (Action T E)} {s : Sys T E}
    (h : Trace.run step channel as = some s) : Agrees s := by
  obtain ⟨hs,hw⟩ := inv_run h
  have hnodup := List.nodup_range (n := s.suspensions)
  constructor
  case exclusive =>
    rintro ⟨hsent,hclosed⟩
    simp [hs.exclusive hsent] at hclosed
  case sentOnce =>
    rw [hs.accepted]
    split <;> simp
  case first =>
    intro r rs hr
    rcases hs.received with hrec | ⟨-,n,hrec⟩
    · simp [hrec] at hr
    · obtain ⟨rfl,rfl⟩ : s.accepted.head? = r ∧ List.replicate n none = rs := by
        simpa [hrec] using hr
      exact ⟨rfl,fun q hq => List.eq_of_mem_replicate hq⟩
  case waiter =>
    intro n hn
    have hopen := hw.idle n hn
    have hlive := hs.gone hopen
    simp only [OneshotState.Ready,not_or,Bool.not_eq_true] at hopen
    exact ⟨hopen.1,hopen.2,hlive⟩
  case coming =>
    intro hc
    have hone := hw.one
    rw [hc] at hone
    simp only [Sys.pending,Consumer.isSuspended,if_true,List.length_append,List.length_map] at hone
    rcases hwait : s.st.waiter with _ | n
    · right
      rw [hwait] at hone
      rcases hin : s.inHand with _ | ⟨w,ws⟩
      · rcases hpost : s.posted with _ | ⟨w,ws⟩
        · simp [hin,hpost] at hone
        · exact ⟨w,.inr (by simp)⟩
      · exact ⟨w,.inl (by simp)⟩
    · exact .inl ⟨n,rfl⟩
  case wokenOnce =>
    refine ⟨?_,?_,hw.sound⟩
    · exact (List.nodup_append.mp (hw.taken ▸ hnodup)).1
    · exact (List.nodup_append.mp (hw.order ▸ hnodup)).1

/-- A receiver that waits, a value sent to it and a move-assignment over the sender. -/
theorem oneshot_agrees_sample : ∃ s : Sys ℕ Unit,
    Trace.run step channel [.recv none,.awaitSuspend,.send 0 5,.reset,.wake ⟨0,none⟩,
      .awaitResume,.construct 1,.moveAssign 0 1,.recv none,.awaitResume] = some s ∧
    s.received = [some 5,none] ∧ Agrees s :=
  ⟨_,rfl,rfl,oneshot_agrees (show Trace.run step channel [.recv none,.awaitSuspend,.send 0 5,
    .reset,.wake ⟨0,none⟩,.awaitResume,.construct 1,.moveAssign 0 1,.recv none,
    .awaitResume] = some _ from rfl)⟩

end Oneshot
end AsioQuickjs
