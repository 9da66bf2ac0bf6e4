import AsioQuickjs.Bytes
import AsioQuickjs.Channel
import AsioQuickjs.Tally

/-! The special members of `mpsc::Sender` in `src/channel.hpp`, over any number of channels and of
handles. The count of a channel is kept by hand; a handle that lets go of the last one closes. -/
namespace AsioQuickjs
namespace SenderHandles

open Channel (MpscState)

variable {T E : Type}

/-- Who calls `close`: a `release` that finds itself the last, or a call of `Sender::close` or the
end of the receiver. -/
inductive Closer
  | release | other
  deriving DecidableEq

/-- A channel is its number. A handle that exists has a `state_`, which may be null. -/
structure Sys (T E : Type) where
  channels : List (MpscState T E) := []
  handles : Table ℕ (Option ℕ) := ∅
  /-- The calls of `close` in order. -/
  closings : List (ℕ × Closer) := []

namespace Sys

/-- The `state_` of a handle. -/
def pointer (s : Sys T E) (h : ℕ) : Option ℕ := (s.handles.lookup h).join

def point (s : Sys T E) (h : ℕ) (p : Option ℕ) : Sys T E :=
  { s with handles := s.handles.insert h p }

def senders (s : Sys T E) (c : ℕ) : ℤ := (s.channels[c]?.map MpscState.senders).getD 0

def fetchAdd (s : Sys T E) (c : ℕ) (d : ℤ) : Sys T E :=
  { s with channels := s.channels.modify c fun st => { st with senders := st.senders+d } }

/-- `mpsc_state::close`, without the coroutine that it wakes. -/
def close (s : Sys T E) (c : ℕ) (who : Closer) : Sys T E :=
  { s with
    channels := s.channels.modify c fun st => st.closeLocked.2
    closings := s.closings++[(c,who)] }

def release (s : Sys T E) (h : ℕ) : Sys T E :=
  match s.pointer h with
  | none => s
  | some c =>
    let lastSender := s.senders c = 1
    let s := s.fetchAdd c (-1)
    let s := if lastSender then s.close c .release else s
    s.point h none

/-- `state_ = o.state_` with the count of what is now pointed to. -/
def copyFrom (s : Sys T E) (h o : ℕ) : Sys T E :=
  match s.pointer o with
  | none => s.point h none
  | some c => (s.point h (some c)).fetchAdd c 1

/-- `state_ = std::move(o.state_)`. -/
def moveFrom (s : Sys T E) (h o : ℕ) : Sys T E := (s.point h (s.pointer o)).point o none

def copyAssign (s : Sys T E) (h o : ℕ) : Sys T E :=
  if h = o then s else (s.release h).copyFrom h o

def moveAssign (s : Sys T E) (h o : ℕ) : Sys T E :=
  if h = o then s else (s.release h).moveFrom h o

/-- `mpsc::unbounded`, the one that gives a state to the constructor that takes it. -/
def unbounded (s : Sys T E) (h : ℕ) : Sys T E :=
  { s with channels := s.channels++[({} : MpscState T E)] }.point h (some s.channels.length)

def destroy (s : Sys T E) (h : ℕ) : Sys T E :=
  { s.release h with handles := (s.release h).handles.erase h }

def live (s : Sys T E) (c : ℕ) : List ℕ := s.handles.keys.filter fun h => s.pointer h = some c

end Sys

inductive Action
  | construct (h : ℕ) | unbounded (h : ℕ)
  | copy (h o : ℕ) | move (h o : ℕ)
  | copyAssign (h o : ℕ) | moveAssign (h o : ℕ)
  | destroy (h : ℕ)
  | close (c : ℕ)

/-- A constructor makes a new handle; all else is about handles that exist. -/
def step (s : Sys T E) : Action → Option (Sys T E)
  | .construct h => if h ∈ s.handles then none else some (s.point h none)
  | .unbounded h => if h ∈ s.handles then none else some (s.unbounded h)
  | .copy h o => if h ∉ s.handles ∧ o ∈ s.handles then some (s.copyFrom h o) else none
  | .move h o => if h ∉ s.handles ∧ o ∈ s.handles then some (s.moveFrom h o) else none
  | .copyAssign h o => if h ∈ s.handles ∧ o ∈ s.handles then some (s.copyAssign h o) else none
  | .moveAssign h o => if h ∈ s.handles ∧ o ∈ s.handles then some (s.moveAssign h o) else none
  | .destroy h => if h ∈ s.handles then some (s.destroy h) else none
  | .close c => if c < s.channels.length then some (s.close c .other) else none

@[simp] theorem pointer_point (s : Sys T E) (h : ℕ) (p : Option ℕ) :
    (s.point h p).pointer = Function.update s.pointer h p := by
  funext k
  simp only [Sys.pointer,Sys.point,lookup_insert_ite,Function.update_apply]
  split <;> rfl

theorem pointer_of_not_mem {s : Sys T E} {h : ℕ} (hs : h ∉ s.handles) : s.pointer h = none := by
  rw [Sys.pointer,AList.lookup_eq_none.mpr hs]
  rfl

theorem pointer_erase (s : Sys T E) (h : ℕ) :
    ({ s with handles := s.handles.erase h } : Sys T E).pointer =
      Function.update s.pointer h none := by
  funext k
  simp only [Sys.pointer,lookup_erase_ite,Function.update_apply]
  split <;> rfl

def one (p : Option ℕ) (c : ℕ) : ℤ := if p = some c then 1 else 0

@[simp] theorem one_none (c : ℕ) : one none c = 0 := rfl

@[simp] theorem one_self (c : ℕ) : one (some c) c = 1 := if_pos rfl

theorem one_of_ne {c d : ℕ} (h : d ≠ c) : one (some d) c = 0 :=
  if_neg fun he => h (Option.some.inj he)

theorem one_nonneg (p : Option ℕ) (c : ℕ) : 0 ≤ one p c := by
  unfold one
  split <;> decide

theorem counts_update {p : ℕ → Option ℕ} {c : ℕ} {n : ℤ}
    (h : Tally.Counts (fun k => one (p k) c) n) (k : ℕ) (q : Option ℕ) :
    Tally.Counts (fun j => one (Function.update p k q j) c) (n+one q c-one (p k) c) := by
  refine h.move k (fun j hj => by rw [Function.update_of_ne hj]) ?_
  rw [Function.update_self]
  omega

/-- The channel is counted right and was closed by a `release` exactly if nothing is left. -/
structure Kept (p : ℕ → Option ℕ) (closings : List (ℕ × Closer)) (c : ℕ)
    (st : MpscState T E) : Prop where
  counts : Tally.Counts (fun k => one (p k) c) st.senders
  released : closings.count (c,.release) = if st.senders = 0 then 1 else 0
  closed : st.closed = true ↔ ∃ who, (c,who) ∈ closings

structure Inv (s : Sys T E) : Prop where
  kept : ∀ c st, s.channels[c]? = some st → Kept s.pointer s.closings c st
  pointed : ∀ k c, s.pointer k = some c → c < s.channels.length
  closings : ∀ x ∈ s.closings, x.1 < s.channels.length

theorem inv_initial : Inv ({} : Sys T E) := by
  refine ⟨fun c st h => ?_,fun k c h => ?_,fun x hx => absurd hx List.not_mem_nil⟩
  · cases h
  · cases h

theorem Kept.pos {p : ℕ → Option ℕ} {closings : List (ℕ × Closer)} {c k : ℕ}
    {st : MpscState T E} (h : Kept p closings c st) (hk : p k = some c) : 0 < st.senders :=
  h.counts.pos (fun j => one_nonneg (p j) c) (i:=k) (by simp [hk])

theorem inv_of_pointer {s t : Sys T E} (h : Inv s) (hchannels : t.channels = s.channels)
    (hclosings : t.closings = s.closings)
    (hcounts : ∀ c n, Tally.Counts (fun k => one (s.pointer k) c) n →
      Tally.Counts (fun k => one (t.pointer k) c) n)
    (hpointed : ∀ k c, t.pointer k = some c → ∃ j, s.pointer j = some c) : Inv t := by
  refine ⟨fun c st hc => ?_,fun k c hk => ?_,fun x hx => ?_⟩
  · rw [hchannels] at hc
    have hkept := h.kept c st hc
    exact ⟨hcounts c _ hkept.counts,hclosings ▸ hkept.released,hclosings ▸ hkept.closed⟩
  · obtain ⟨j,hj⟩ := hpointed k c hk
    exact hchannels ▸ h.pointed j c hj
  · exact hchannels ▸ h.closings x (hclosings ▸ hx)

theorem inv_null {s t : Sys T E} (h : Inv s) {k : ℕ} (hk : s.pointer k = none)
    (hchannels : t.channels = s.channels) (hclosings : t.closings = s.closings)
    (ht : t.pointer = Function.update s.pointer k none) : Inv t := by
  have hsame : t.pointer = s.pointer := by rw [ht,← hk,Function.update_eq_self]
  exact inv_of_pointer h hchannels hclosings (fun c n hn => hsame ▸ hn)
    fun j c hj => ⟨j,hsame ▸ hj⟩

theorem inv_moveFrom {s : Sys T E} (h : Inv s) {k o : ℕ} (hk : s.pointer k = none) (hne : k ≠ o) :
    Inv (s.moveFrom k o) := by
  have hp : (s.moveFrom k o).pointer =
      Function.update (Function.update s.pointer k (s.pointer o)) o none := by
    rw [Sys.moveFrom,pointer_point,pointer_point]
  refine inv_of_pointer h rfl rfl (fun c n hn => ?_) fun j c hj => ?_
  · have hmoved := counts_update (counts_update hn k (s.pointer o)) o none
    rw [Function.update_of_ne hne.symm,hk,one_none] at hmoved
    rw [hp]
    have hcount : n+one (s.pointer o) c-0+0-one (s.pointer o) c = n := by omega
    rwa [hcount] at hmoved
  · rw [hp] at hj
    rcases eq_or_ne j o with rfl | hjo
    · rw [Function.update_self] at hj
      cases hj
    · rw [Function.update_of_ne hjo] at hj
      rcases eq_or_ne j k with rfl | hjk
      · rw [Function.update_self] at hj
        exact ⟨o,hj⟩
      · rw [Function.update_of_ne hjk] at hj
        exact ⟨j,hj⟩

theorem getElem?_fetchAdd (s : Sys T E) (c : ℕ) (d : ℤ) (j : ℕ) :
    (s.fetchAdd c d).channels[j]? =
      s.channels[j]?.map fun st => { st with senders := st.senders+if j = c then d else 0 } := by
  rw [Sys.fetchAdd,List.getElem?_modify]
  rcases eq_or_ne c j with rfl | hj
  · simp
  · simp [hj,hj.symm]

theorem length_fetchAdd (s : Sys T E) (c : ℕ) (d : ℤ) :
    (s.fetchAdd c d).channels.length = s.channels.length := List.length_modify _ _ _

theorem Kept.update {p : ℕ → Option ℕ} {closings : List (ℕ × Closer)} {c : ℕ}
    {st : MpscState T E} (h : Kept p closings c st) (k : ℕ) (q : Option ℕ) {n : ℤ}
    (hn : n = st.senders+one q c-one (p k) c) (hzero : n = 0 ↔ st.senders = 0) :
    Kept (Function.update p k q) closings c { st with senders := n } := by
  subst hn
  refine ⟨counts_update h.counts k q,?_,h.closed⟩
  rw [h.released]
  exact if_congr hzero.symm rfl rfl

theorem pointed_update {s : Sys T E} (h : Inv s) {k : ℕ} {q : Option ℕ}
    (hq : ∀ c, q = some c → c < s.channels.length) (j c : ℕ)
    (hj : Function.update s.pointer k q j = some c) : c < s.channels.length := by
  rcases eq_or_ne j k with rfl | hjk
  · rw [Function.update_self] at hj
    exact hq c hj
  · rw [Function.update_of_ne hjk] at hj
    exact h.pointed j c hj

theorem inv_copyFrom {s : Sys T E} (h : Inv s) {k o : ℕ} (hk : s.pointer k = none) :
    Inv (s.copyFrom k o) := by
  rw [Sys.copyFrom]
  cases ho : s.pointer o with
  | none => exact inv_null h hk rfl rfl (pointer_point s k none)
  | some c =>
    have hp : ((s.point k (some c)).fetchAdd c 1).pointer = Function.update s.pointer k (some c) :=
      pointer_point s k (some c)
    refine ⟨fun d st hd => ?_,fun j d hj => ?_,fun x hx => ?_⟩
    · rw [getElem?_fetchAdd] at hd
      obtain ⟨st,hst,rfl⟩ := Option.map_eq_some_iff.mp hd
      have hkept := h.kept d st hst
      rw [hp]
      refine hkept.update k (some c) ?_ ?_
      · rw [hk,one_none,Int.sub_zero,one]
        simp [eq_comm]
      · split
        · -- the other handle counts already
          rename_i hdc
          have := hkept.pos (hdc ▸ ho)
          omega
        · simp
    · rw [hp] at hj
      exact (length_fetchAdd _ c 1).symm ▸
        pointed_update h (fun e he => Option.some.inj he ▸ h.pointed o c ho) j d hj
    · exact (length_fetchAdd _ c 1).symm ▸ h.closings x hx

theorem getElem?_close (s : Sys T E) (c : ℕ) (who : Closer) (j : ℕ) :
    (s.close c who).channels[j]? =
      s.channels[j]?.map fun st => if j = c then st.closeLocked.2 else st := by
  rw [Sys.close,List.getElem?_modify]
  rcases eq_or_ne c j with rfl | hj
  · simp
  · simp [hj,hj.symm]

theorem length_close (s : Sys T E) (c : ℕ) (who : Closer) :
    (s.close c who).channels.length = s.channels.length := List.length_modify _ _ _

@[simp] theorem closeLocked_senders (st : MpscState T E) :
    st.closeLocked.2.senders = st.senders := by
  rw [MpscState.closeLocked]
  split <;> rfl

@[simp] theorem closeLocked_closed (st : MpscState T E) : st.closeLocked.2.closed = true := by
  rw [MpscState.closeLocked]
  split
  · assumption
  · rfl

theorem Kept.closeOther {p : ℕ → Option ℕ} {closings : List (ℕ × Closer)} {c d : ℕ}
    {st : MpscState T E} (h : Kept p closings c st) (hd : c ≠ d) (who : Closer) :
    Kept p (closings++[(d,who)]) c st := by
  refine ⟨h.counts,?_,?_⟩
  · rw [List.count_append,h.released,List.count_eq_zero_of_not_mem,Nat.add_zero]
    simp [hd]
  · rw [h.closed]
    simp [hd]

theorem inv_close {s : Sys T E} (h : Inv s) {c : ℕ} (hc : c < s.channels.length) :
    Inv (s.close c .other) := by
  refine ⟨fun d st hd => ?_,fun j d hj => ?_,fun x hx => ?_⟩
  · rw [getElem?_close] at hd
    obtain ⟨st,hst,rfl⟩ := Option.map_eq_some_iff.mp hd
    have hkept := h.kept d st hst
    split
    · rename_i hdc
      subst hdc
      refine ⟨closeLocked_senders st ▸ hkept.counts,?_,?_⟩
      · rw [closeLocked_senders,← hkept.released]
        simp [Sys.close]
      · simp [Sys.close]
    · rename_i hdc
      exact hkept.closeOther hdc .other
  · exact (length_close s c .other).symm ▸ h.pointed j d hj
  · rw [length_close]
    rcases List.mem_append.mp hx with hx | hx
    · exact h.closings x hx
    · rw [List.mem_singleton.mp hx]
      exact hc

theorem Kept.release {p : ℕ → Option ℕ} {closings : List (ℕ × Closer)} {c d k : ℕ}
    {st : MpscState T E} (h : Kept p closings d st) (hk : p k = some c)
    (hstay : d = c → st.senders ≠ 1) :
    Kept (Function.update p k none) closings d
      { st with senders := st.senders+if d = c then -1 else 0 } := by
  refine h.update k none ?_ ?_
  · rw [hk,one_none,one]
    rcases eq_or_ne d c with rfl | hd
    · simp [sub_eq_add_neg]
    · simp [hd,hd.symm]
  · split
    · rename_i hd
      have hne := hstay hd
      have hpos := h.pos (hd ▸ hk)
      omega
    · simp

/-- The last one leaves: the count is zero and the call of `close` is the first of a `release`. -/
theorem Kept.last {p : ℕ → Option ℕ} {closings : List (ℕ × Closer)} {c k : ℕ}
    {st : MpscState T E} (h : Kept p closings c st) (hk : p k = some c) (hlast : st.senders = 1) :
    Kept (Function.update p k none) (closings++[(c,.release)]) c
      ({ st with senders := st.senders+-1 } : MpscState T E).closeLocked.2 := by
  have hcounts := counts_update h.counts k none
  have hzero : st.senders+one none c-one (p k) c = st.senders+-1 := by
    rw [hk,one_none,one_self]
    omega
  rw [hzero] at hcounts
  refine ⟨(closeLocked_senders _).symm ▸ hcounts,?_,?_⟩
  · rw [closeLocked_senders,List.count_append,h.released,hlast]
    simp
  · simp [closeLocked_closed]

theorem pointer_release (s : Sys T E) (k : ℕ) :
    (s.release k).pointer = Function.update s.pointer k none := by
  rw [Sys.release]
  cases hk : s.pointer k with
  | none =>
    dsimp only
    rw [← hk,Function.update_eq_self]
  | some c =>
    dsimp only
    split
    · exact pointer_point _ k none
    · exact pointer_point _ k none

theorem inv_release_rest {s : Sys T E} (h : Inv s) {k c : ℕ} (hk : s.pointer k = some c)
    (hrest : s.senders c ≠ 1) : Inv ((s.fetchAdd c (-1)).point k none) := by
  have hp : ((s.fetchAdd c (-1)).point k none).pointer = Function.update s.pointer k none :=
    pointer_point _ k none
  refine ⟨fun d st hd => ?_,fun j d hj => ?_,fun x hx => ?_⟩
  · have hat := getElem?_fetchAdd s c (-1) d
    obtain ⟨st,hst,rfl⟩ := Option.map_eq_some_iff.mp (hat.symm.trans hd)
    rw [hp]
    refine (h.kept d st hst).release hk fun he hone => ?_
    subst he
    rw [Sys.senders,hst] at hrest
    exact hrest hone
  · rw [hp] at hj
    exact (length_fetchAdd s c (-1)).symm ▸ pointed_update h (fun e he => by cases he) j d hj
  · exact (length_fetchAdd s c (-1)).symm ▸ h.closings x hx

theorem inv_release_last {s : Sys T E} (h : Inv s) {k c : ℕ} (hk : s.pointer k = some c)
    (hlast : s.senders c = 1) : Inv (((s.fetchAdd c (-1)).close c .release).point k none) := by
  have hp : (((s.fetchAdd c (-1)).close c .release).point k none).pointer =
      Function.update s.pointer k none := pointer_point _ k none
  have hclosings : (((s.fetchAdd c (-1)).close c .release).point k none).closings =
      s.closings++[(c,.release)] := rfl
  have hlength : (((s.fetchAdd c (-1)).close c .release).point k none).channels.length =
      s.channels.length := (length_close _ c .release).trans (length_fetchAdd s c (-1))
  refine ⟨fun d st hd => ?_,fun j d hj => ?_,fun x hx => ?_⟩
  · have hat := getElem?_close (s.fetchAdd c (-1)) c .release d
    rw [getElem?_fetchAdd,Option.map_map] at hat
    obtain ⟨st,hst,rfl⟩ := Option.map_eq_some_iff.mp (hat.symm.trans hd)
    have hkept := h.kept d st hst
    rw [hp,hclosings]
    rcases eq_or_ne d c with rfl | hdc
    · have hone : st.senders = 1 := by rwa [Sys.senders,hst] at hlast
      simpa using hkept.last hk hone
    · simpa [hdc] using (hkept.release hk fun he => absurd he hdc).closeOther hdc .release
  · rw [hp] at hj
    exact hlength.symm ▸ pointed_update h (fun e he => by cases he) j d hj
  · rw [hclosings] at hx
    rw [hlength]
    rcases List.mem_append.mp hx with hx | hx
    · exact h.closings x hx
    · rw [List.mem_singleton.mp hx]
      exact h.pointed k c hk

theorem inv_release {s : Sys T E} (h : Inv s) (k : ℕ) : Inv (s.release k) := by
  rw [Sys.release]
  cases hk : s.pointer k with
  | none => exact h
  | some c =>
    dsimp only
    split
    · rename_i hlast
      exact inv_release_last h hk hlast
    · rename_i hrest
      exact inv_release_rest h hk hrest

theorem Kept.fresh {p : ℕ → Option ℕ} {closings : List (ℕ × Closer)} {c k : ℕ}
    (hk : p k = none) (hp : ∀ j, p j ≠ some c) (hclosings : ∀ x ∈ closings, x.1 ≠ c) :
    Kept (Function.update p k (some c)) closings c ({} : MpscState T E) := by
  have hnone : Tally.Counts (fun j => one (p j) c) 0 := Tally.Counts.none fun j => if_neg (hp j)
  have hcounts := counts_update hnone k (some c)
  rw [hk,one_none,one_self] at hcounts
  refine ⟨hcounts,List.count_eq_zero.mpr fun hx => hclosings _ hx rfl,?_⟩
  constructor
  · intro h
    cases h
  · rintro ⟨who,hx⟩
    exact absurd rfl (hclosings _ hx)

theorem length_unbounded (s : Sys T E) (k : ℕ) :
    (s.unbounded k).channels.length = s.channels.length+1 := by
  simp [Sys.unbounded,Sys.point]

theorem inv_unbounded {s : Sys T E} (h : Inv s) {k : ℕ} (hk : s.pointer k = none) :
    Inv (s.unbounded k) := by
  have hp : (s.unbounded k).pointer = Function.update s.pointer k (some s.channels.length) :=
    pointer_point _ k _
  have hlength := length_unbounded s k
  refine ⟨fun d st hd => ?_,fun j d hj => ?_,fun x hx => ?_⟩
  · have hat : (s.channels++[({} : MpscState T E)])[d]? = some st := hd
    rw [hp]
    rcases Nat.lt_trichotomy d s.channels.length with hlt | rfl | hgt
    · rw [List.getElem?_append_left hlt] at hat
      have hne : s.channels.length ≠ d := Nat.ne_of_gt hlt
      refine (h.kept d st hat).update k (some s.channels.length) (n:=st.senders) ?_ Iff.rfl
      rw [hk,one_none,one_of_ne hne]
      omega
    · rw [List.getElem?_concat_length] at hat
      obtain rfl := Option.some.inj hat
      exact Kept.fresh hk (fun j hj => Nat.lt_irrefl _ (h.pointed j _ hj))
        fun x hx he => Nat.ne_of_lt (h.closings x hx) he
    · rw [List.getElem?_eq_none (by simpa using Nat.succ_le_of_lt hgt)] at hat
      cases hat
  · rw [hp] at hj
    rw [hlength]
    rcases eq_or_ne j k with rfl | hjk
    · rw [Function.update_self] at hj
      obtain rfl := Option.some.inj hj
      omega
    · rw [Function.update_of_ne hjk] at hj
      have := h.pointed j d hj
      omega
  · rw [hlength]
    have := h.closings x hx
    omega

theorem inv_copyAssign {s : Sys T E} (h : Inv s) (k o : ℕ) : Inv (s.copyAssign k o) := by
  rw [Sys.copyAssign]
  split
  · exact h
  · refine inv_copyFrom (inv_release h k) ?_
    rw [pointer_release,Function.update_self]

theorem inv_moveAssign {s : Sys T E} (h : Inv s) (k o : ℕ) : Inv (s.moveAssign k o) := by
  rw [Sys.moveAssign]
  split
  · exact h
  · rename_i hne
    refine inv_moveFrom (inv_release h k) ?_ hne
    rw [pointer_release,Function.update_self]

theorem inv_destroy {s : Sys T E} (h : Inv s) (k : ℕ) : Inv (s.destroy k) := by
  refine inv_null (inv_release h k) ?_ rfl rfl (pointer_erase _ k)
  rw [pointer_release,Function.update_self]

theorem length_release (s : Sys T E) (k : ℕ) :
    (s.release k).channels.length = s.channels.length := by
  rw [Sys.release]
  cases s.pointer k with
  | none => rfl
  | some c =>
    dsimp only
    split
    · exact (length_close _ c .release).trans (length_fetchAdd s c (-1))
    · exact length_fetchAdd s c (-1)

theorem length_copyFrom (s : Sys T E) (k o : ℕ) :
    (s.copyFrom k o).channels.length = s.channels.length := by
  rw [Sys.copyFrom]
  cases s.pointer o with
  | none => rfl
  | some c => exact length_fetchAdd _ c 1

theorem length_copyAssign (s : Sys T E) (k o : ℕ) :
    (s.copyAssign k o).channels.length = s.channels.length := by
  rw [Sys.copyAssign]
  split
  · rfl
  · rw [length_copyFrom,length_release]

theorem length_moveAssign (s : Sys T E) (k o : ℕ) :
    (s.moveAssign k o).channels.length = s.channels.length := by
  rw [Sys.moveAssign]
  split
  · rfl
  · exact length_release s k

theorem step_keeps {s t : Sys T E} {a : Action} (h : Inv s) (hstep : step s a = some t) :
    Inv t ∧ s.channels.length ≤ t.channels.length := by
  cases a with
  | construct k =>
    obtain ⟨hk,ht⟩ := Option.ite_none_left_eq_some.mp hstep
    cases ht
    exact ⟨inv_null h (pointer_of_not_mem hk) rfl rfl (pointer_point s k none),Nat.le_refl _⟩
  | unbounded k =>
    obtain ⟨hk,ht⟩ := Option.ite_none_left_eq_some.mp hstep
    cases ht
    exact ⟨inv_unbounded h (pointer_of_not_mem hk),(length_unbounded s k).ge.trans' (Nat.le_succ _)⟩
  | copy k o =>
    obtain ⟨⟨hk,-⟩,ht⟩ := Option.ite_none_right_eq_some.mp hstep
    cases ht
    exact ⟨inv_copyFrom h (pointer_of_not_mem hk),(length_copyFrom s k o).ge⟩
  | move k o =>
    obtain ⟨⟨hk,ho⟩,ht⟩ := Option.ite_none_right_eq_some.mp hstep
    cases ht
    exact ⟨inv_moveFrom h (pointer_of_not_mem hk) fun he => hk (he ▸ ho),Nat.le_refl _⟩
  | copyAssign k o =>
    obtain ⟨-,ht⟩ := Option.ite_none_right_eq_some.mp hstep
    cases ht
    exact ⟨inv_copyAssign h k o,(length_copyAssign s k o).ge⟩
  | moveAssign k o =>
    obtain ⟨-,ht⟩ := Option.ite_none_right_eq_some.mp hstep
    cases ht
    exact ⟨inv_moveAssign h k o,(length_moveAssign s k o).ge⟩
  | destroy k =>
    obtain ⟨-,ht⟩ := Option.ite_none_right_eq_some.mp hstep
    cases ht
    exact ⟨inv_destroy h k,(length_release s k).ge⟩
  | close c =>
    obtain ⟨hc,ht⟩ := Option.ite_none_right_eq_some.mp hstep
    cases ht
    exact ⟨inv_close h hc,(length_close s c .other).ge⟩

theorem run_inv {s : Sys T E} {as : List Action} (h : Trace.run step {} as = some s) : Inv s :=
  Trace.run_keeps (fun _ _ _ hs ha => (step_keeps hs ha).1) inv_initial h

theorem mem_live {s : Sys T E} {c k : ℕ} : k ∈ s.live c ↔ s.pointer k = some c := by
  simp only [Sys.live,List.mem_filter,decide_eq_true_eq,and_iff_right_iff_imp]
  intro hk
  by_contra hmem
  rw [pointer_of_not_mem hmem] at hk
  cases hk

theorem live_nodup (s : Sys T E) (c : ℕ) : (s.live c).Nodup := s.handles.keys_nodup.filter _

theorem senders_eq {s : Sys T E} (h : Inv s) {c : ℕ} {st : MpscState T E}
    (hc : s.channels[c]? = some st) : st.senders = (s.live c).length :=
  (h.kept c st hc).counts.eq_length (live_nodup s c) fun k => by simp [one,mem_live]

theorem count_release {s : Sys T E} (h : Inv s) {c : ℕ} {st : MpscState T E}
    (hc : s.channels[c]? = some st) :
    s.closings.count (c,.release) = if s.live c = [] then 1 else 0 := by
  rw [(h.kept c st hc).released,senders_eq h hc]
  exact if_congr (by simp) rfl rfl

theorem closed_iff {s : Sys T E} (h : Inv s) {c : ℕ} {st : MpscState T E}
    (hc : s.channels[c]? = some st) :
    st.closed = true ↔ s.live c = [] ∨ (c,.other) ∈ s.closings := by
  have hrelease : (c,Closer.release) ∈ s.closings ↔ s.live c = [] := by
    rw [← List.count_pos_iff,count_release h hc]
    split <;> simp [*]
  rw [(h.kept c st hc).closed,← hrelease]
  constructor
  · rintro ⟨who,hx⟩
    cases who with
    | release => exact .inl hx
    | other => exact .inr hx
  · rintro (hx | hx)
    · exact ⟨_,hx⟩
    · exact ⟨_,hx⟩

/-- In every run, at every channel: the count is that of the handles that point to it, a `release`
has closed it once if there are none left and not at all before, and nothing else than that and a
call of `close` closes it; the step that closes it is the one that takes the last handle. -/
theorem closed_with_last_handle {s : Sys T E} {as : List Action}
    (h : Trace.run step {} as = some s) {c : ℕ} {st : MpscState T E}
    (hc : s.channels[c]? = some st) :
    st.senders = (s.live c).length ∧
      s.closings.count (c,.release) = (if s.live c = [] then 1 else 0) ∧
      (st.closed = true ↔ s.live c = [] ∨ (c,.other) ∈ s.closings) ∧
      ∀ a t, step s a = some t →
        (t.closings.count (c,.release) = s.closings.count (c,.release)+1 ↔
          s.live c ≠ [] ∧ t.live c = []) := by
  have hi := run_inv h
  refine ⟨senders_eq hi hc,count_release hi hc,closed_iff hi hc,fun a t ha => ?_⟩
  have hlt : c < t.channels.length :=
    Nat.lt_of_lt_of_le (List.getElem?_eq_some_iff.mp hc).1 (step_keeps hi ha).2
  rw [count_release hi hc,count_release (step_keeps hi ha).1 (List.getElem?_eq_getElem hlt)]
  by_cases hs : s.live c = [] <;> by_cases ht : t.live c = [] <;> simp [hs,ht]

/-- Two handles of one channel assigned to each other, one to itself, one from another channel;
the first channel is closed as the last of its handles goes. -/
theorem closed_with_last_handle_sample :
    ∃ (s : Sys ℕ Unit) (st : MpscState ℕ Unit),
      Trace.run step {} [.unbounded 0,.copy 1 0,.copyAssign 0 1,.moveAssign 1 1,.unbounded 2,
        .moveAssign 0 2,.destroy 1] = some s ∧ s.channels[0]? = some st ∧
      s.live 0 = [] ∧ s.live 1 = [0] ∧ s.closings = [(0,.release)] ∧
      st.senders = (s.live 0).length ∧
        s.closings.count (0,.release) = (if s.live 0 = [] then 1 else 0) ∧
        (st.closed = true ↔ s.live 0 = [] ∨ (0,.other) ∈ s.closings) ∧
        ∀ a t, step s a = some t →
          (t.closings.count (0,.release) = s.closings.count (0,.release)+1 ↔
            s.live 0 ≠ [] ∧ t.live 0 = []) :=
  ⟨_,_,rfl,rfl,by decide +kernel,by decide +kernel,by decide +kernel,
    @closed_with_last_handle ℕ Unit _ [.unbounded 0,.copy 1 0,.copyAssign 0 1,.moveAssign 1 1,
      .unbounded 2,.moveAssign 0 2,.destroy 1] rfl 0 _ rfl⟩

end SenderHandles
end AsioQuickjs
