import AsioQuickjs.Bytes
import AsioQuickjs.Trace

/-! The numbers by which a script names the connections and the transfers of a host. They are
counted in 64 bits and handed out in 32, and what comes back is extended with its sign. -/
namespace AsioQuickjs
namespace Handles

/-- A counter and the table of the entries that it has numbered. An entry stands for the
session of a request or for the transfer of a fetch, and is known by how many were served
before it; `live` are the entries, with their identifiers, that have not ended. -/
structure Registry where
  nextId : ℕ := 1
  served : ℕ := 0
  table : Table ℕ ℕ := ∅
  live : List (ℕ × ℕ) := []

namespace Registry

variable (r : Registry)

/-- `next_id++` on a `uint64_t`. -/
def count : Registry := { r with nextId := (r.nextId+1) % 2^64, served := r.served+1 }

def add (id k : ℕ) : Registry := { r with live := r.live++[(id,k)] }

def insert (id k : ℕ) : Registry := { r with table := r.table.insert id k }

def erase (id : ℕ) : Registry := { r with table := r.table.erase id }

def leave (id k : ℕ) : Registry := { r with live := r.live.filter (· ≠ (id,k)) }

/-- A native that is called with a handle takes the entry it finds out of the table. -/
def take (z : ℤ) : Registry :=
  match r.table.lookup (uint64OfInt32 z) with
  | none => r
  | some k => (r.erase (uint64OfInt32 z)).leave (uint64OfInt32 z) k

/-- The handle of every live entry finds that entry. -/
def Exact : Prop :=
  ∀ id k, (id,k) ∈ r.live → r.table.lookup (uint64OfInt32 (int32OfUInt64 id)) = some k

end Registry

/-- The tables of a host, and the fetches whose coroutine has not yet made its transfer, or
waits for it. -/
structure Host where
  connections : Registry := {}
  transfers : Registry := {}
  issued : List (ℕ × ℕ) := []
  running : List (ℕ × ℕ) := []

namespace Host

def request (h : Host) : Host :=
  let r := h.connections
  { h with connections := (r.count.insert r.nextId r.served).add r.nextId r.served }

/-- `http_connections.erase(conn_id)`, with the response that the host sends itself. -/
def replied (h : Host) (id k : ℕ) : Host :=
  { h with connections := (h.connections.erase id).leave id k }

def streamed (h : Host) (id k : ℕ) : Host := { h with connections := h.connections.leave id k }

def sendHttpResponseNative (h : Host) (connId : ℤ) : Host :=
  { h with connections := h.connections.take connId }

def nativeFetch (h : Host) : Host :=
  let r := h.transfers
  { h with transfers := r.count, issued := h.issued++[(r.nextId,r.served)] }

/-- `async_fetch`, which does not store a transfer under zero. -/
def asyncFetch (h : Host) (id k : ℕ) : Host :=
  { h with
    transfers := (if id ≠ 0 then h.transfers.insert id k else h.transfers).add id k
    issued := h.issued.erase (id,k)
    running := h.running++[(id,k)] }

/-- `native_fetch_coro` behind `async_fetch`, whatever came of it. -/
def fetched (h : Host) (id k : ℕ) : Host :=
  { h with
    transfers := (h.transfers.erase id).leave id k
    issued := h.issued.erase (id,k)
    running := h.running.erase (id,k) }

def nativeFetchAbort (h : Host) (id : ℤ) : Host := { h with transfers := h.transfers.take id }

end Host

inductive Action
  | request
  | replied (id k : ℕ)
  | streamed (id k : ℕ)
  | sendHttpResponse (connId : ℤ)
  | fetch
  | start (id k : ℕ)
  | fetched (id k : ℕ)
  | abort (id : ℤ)

def step (h : Host) : Action → Option Host
  | .request => some h.request
  | .replied id k => if (id,k) ∈ h.connections.live then some (h.replied id k) else none
  | .streamed id k => if (id,k) ∈ h.connections.live then some (h.streamed id k) else none
  | .sendHttpResponse connId => some (h.sendHttpResponseNative connId)
  | .fetch => some h.nativeFetch
  | .start id k => if (id,k) ∈ h.issued then some (h.asyncFetch id k) else none
  | .fetched id k =>
    if (id,k) ∈ h.issued ∨ (id,k) ∈ h.running then some (h.fetched id k) else none
  | .abort id => some (h.nativeFetchAbort id)

def Exact (h : Host) : Prop := h.connections.Exact ∧ h.transfers.Exact

/-- The identifiers that come back from a script as they were. -/
def Short (id : ℕ) : Prop := id < 2^31 ∨ 2^64-2^31 ≤ id

instance : DecidablePred Short := fun _ => inferInstanceAs (Decidable (_ ∨ _))

/-- No live entry has this identifier. -/
def Registry.Unused (r : Registry) (id : ℕ) : Prop := ∀ k, (id,k) ∉ r.live

/-- The condition on a step: a request or a transfer gets an identifier that comes back and that
no live entry has, a transfer not zero; and what the end of a fetch erases is its own. -/
def Fresh (h : Host) : Action → Prop
  | .request => Short h.connections.nextId ∧ h.connections.Unused h.connections.nextId
  | .start id _ => id ≠ 0 ∧ Short id ∧ h.transfers.Unused id
  | .fetched id k => ∀ j, (id,j) ∈ h.transfers.live → j = k
  | _ => True

theorem short_iff {id : ℕ} (h : id < 2^64) :
    uint64OfInt32 (int32OfUInt64 id) = id ↔ Short id := by
  unfold uint64OfInt32 int32OfUInt64 Short
  split <;> omega

namespace Registry

/-- Every live entry is in the table, under an identifier that comes back. -/
structure Sound (r : Registry) : Prop where
  next : r.nextId < 2^64
  stored : ∀ id k, (id,k) ∈ r.live → r.table.lookup id = some k
  short : ∀ id k, (id,k) ∈ r.live → uint64OfInt32 (int32OfUInt64 id) = id
  old : ∀ id k, r.table.lookup id = some k → k < r.served

variable {r : Registry} {id k : ℕ}

theorem Sound.exact (hr : r.Sound) : r.Exact := fun id k h => by
  rw [hr.short id k h,hr.stored id k h]

theorem sound_count (hr : r.Sound) : r.count.Sound where
  next := Nat.mod_lt _ (by decide)
  stored := hr.stored
  short := hr.short
  old id k h := Nat.lt_succ_of_lt (hr.old id k h)

theorem sound_leave (hr : r.Sound) (id k : ℕ) : (r.leave id k).Sound where
  next := hr.next
  stored i j h := hr.stored i j (List.mem_filter.mp h).1
  short i j h := hr.short i j (List.mem_filter.mp h).1
  old := hr.old

theorem sound_insert_add (hr : r.Sound) (hid : Short id) (hlt : id < 2^64) (hunused : r.Unused id)
    (hk : k < r.served) : ((r.insert id k).add id k).Sound where
  next := hr.next
  stored i j h := by
    change (r.table.insert id k).lookup i = some j
    rw [lookup_insert_ite]
    rcases List.mem_append.mp h with h | h
    · rw [if_neg (fun hi : i = id => hunused j (hi ▸ h))]
      exact hr.stored i j h
    · cases List.mem_singleton.mp h
      rw [if_pos rfl]
  short i j h := by
    rcases List.mem_append.mp h with h | h
    · exact hr.short i j h
    · cases List.mem_singleton.mp h
      exact (short_iff hlt).mpr hid
  old i j h := by
    change (r.table.insert id k).lookup i = some j at h
    rw [lookup_insert_ite] at h
    split at h
    · cases h
      exact hk
    · exact hr.old i j h

/-- An entry that is new is not found under its handle, or hides another, if its identifier
does not come back or is in use. -/
theorem not_exact_insert_add (hr : r.Sound) (hlt : id < 2^64)
    (hnew : ∀ i, r.table.lookup i ≠ some k) (h : ¬ (Short id ∧ r.Unused id)) :
    ¬ ((r.insert id k).add id k).Exact := by
  intro hexact
  have hown := hexact id k (List.mem_append_right _ (List.mem_singleton.mpr rfl))
  change (r.table.insert id k).lookup _ = some k at hown
  rw [lookup_insert_ite] at hown
  split at hown
  · next hback =>
    refine h ⟨(short_iff hlt).mp hback,fun j hj => ?_⟩
    have hother := hexact id j (List.mem_append_left _ hj)
    change (r.table.insert id k).lookup _ = some j at hother
    rw [hback,lookup_insert_ite,if_pos rfl] at hother
    exact hnew id (by rw [hr.stored id j hj,hother])
  · exact hnew _ hown

theorem not_exact_add (hnew : ∀ i, r.table.lookup i ≠ some k) : ¬ (r.add id k).Exact :=
  fun hexact => hnew _ (hexact id k (List.mem_append_right _ (List.mem_singleton.mpr rfl)))

theorem sound_erase_leave (hr : r.Sound) (h : ∀ j, (id,j) ∈ r.live → j = k) :
    ((r.erase id).leave id k).Sound where
  next := hr.next
  stored i j hj := by
    obtain ⟨hmem,hne⟩ := List.mem_filter.mp hj
    change (r.table.erase id).lookup i = some j
    rw [lookup_erase_ite,if_neg]
    · exact hr.stored i j hmem
    · rintro rfl
      obtain rfl := h j hmem
      simp at hne
  short i j hj := hr.short i j (List.mem_filter.mp hj).1
  old i j hj := by
    change (r.table.erase id).lookup i = some j at hj
    rw [lookup_erase_ite] at hj
    split at hj
    · cases hj
    · exact hr.old i j hj

theorem not_exact_erase_leave (hr : r.Sound) {j : ℕ} (hj : (id,j) ∈ r.live) (hne : j ≠ k) :
    ¬ ((r.erase id).leave id k).Exact := by
  intro hexact
  have hlost := hexact id j (List.mem_filter.mpr ⟨hj,by simpa using hne⟩)
  change (r.table.erase id).lookup _ = some j at hlost
  rw [hr.short id j hj,lookup_erase_ite,if_pos rfl] at hlost
  cases hlost

theorem sound_take (hr : r.Sound) (z : ℤ) : (r.take z).Sound := by
  rw [take]
  split
  · exact hr
  · next k hk =>
    refine sound_erase_leave hr fun j hj => ?_
    have hstored := hr.stored _ j hj
    rw [hk] at hstored
    exact (Option.some.inj hstored).symm

theorem lookup_take {z : ℤ} (h : (r.take z).table.lookup id = some k) :
    r.table.lookup id = some k := by
  rw [take] at h
  split at h
  · exact h
  · change (r.table.erase _).lookup id = some k at h
    rw [lookup_erase_ite] at h
    split at h
    · cases h
    · exact h

end Registry

/-- Both tables are sound, and a transfer that is still to be made has a number of its own. -/
structure Inv (h : Host) : Prop where
  connections : h.connections.Sound
  transfers : h.transfers.Sound
  bound : ∀ p ∈ h.issued, p.1 < 2^64 ∧ p.2 < h.transfers.served
  new : ∀ p ∈ h.issued, ∀ i, h.transfers.table.lookup i ≠ some p.2
  distinct : (h.issued.map Prod.snd).Nodup

theorem Registry.Sound.new {r : Registry} (hr : r.Sound) (i : ℕ) :
    r.table.lookup i ≠ some r.served := fun h => lt_irrefl _ (hr.old i r.served h)

theorem Inv.keeps {h g : Host} (hi : Inv h) (hconnections : g.connections.Sound)
    (htransfers : g.transfers.Sound) (hserved : h.transfers.served ≤ g.transfers.served)
    (hlookup : ∀ i k, g.transfers.table.lookup i = some k → h.transfers.table.lookup i = some k)
    (hissued : g.issued.Sublist h.issued) : Inv g where
  connections := hconnections
  transfers := htransfers
  bound p hp := by
    obtain ⟨hid,hk⟩ := hi.bound p (hissued.subset hp)
    exact ⟨hid,by omega⟩
  new p hp i hl := hi.new p (hissued.subset hp) i (hlookup i p.2 hl)
  distinct := hi.distinct.sublist (hissued.map Prod.snd)

theorem lookup_of_erase {t : Table ℕ ℕ} {id i k : ℕ} (h : (t.erase id).lookup i = some k) :
    t.lookup i = some k := by
  rw [lookup_erase_ite] at h
  split at h
  · cases h
  · exact h

theorem inv_request {h : Host} (hi : Inv h) (hC : Fresh h .request) : Inv h.request :=
  hi.keeps (Registry.sound_insert_add (Registry.sound_count hi.connections) hC.1
      hi.connections.next hC.2 (Nat.lt_succ_self _))
    hi.transfers le_rfl (fun _ _ hl => hl) (List.Sublist.refl _)

theorem inv_nativeFetch {h : Host} (hi : Inv h) : Inv h.nativeFetch where
  connections := hi.connections
  transfers := Registry.sound_count hi.transfers
  bound p hp := by
    rcases List.mem_append.mp hp with hp | hp
    · obtain ⟨hid,hk⟩ := hi.bound p hp
      exact ⟨hid,Nat.lt_succ_of_lt hk⟩
    · rw [List.mem_singleton.mp hp]
      exact ⟨hi.transfers.next,Nat.lt_succ_self _⟩
  new p hp i := by
    rcases List.mem_append.mp hp with hp | hp
    · exact hi.new p hp i
    · rw [List.mem_singleton.mp hp]
      exact hi.transfers.new i
  distinct := by
    simp only [Host.nativeFetch,List.map_append,List.map_cons,List.map_nil]
    refine hi.distinct.append (List.nodup_singleton _) ?_
    rw [List.disjoint_singleton]
    intro hmem
    obtain ⟨p,hp,hk⟩ := List.mem_map.mp hmem
    exact absurd (hi.bound p hp).2 (by omega)

theorem ne_of_mem_erase {h : Host} (hi : Inv h) {id k : ℕ} (hmem : (id,k) ∈ h.issued)
    {p : ℕ × ℕ} (hp : p ∈ h.issued.erase (id,k)) : p.2 ≠ k := by
  intro hk
  have hnodup : h.issued.Nodup := hi.distinct.of_map _
  have hne : p ≠ (id,k) := fun heq => by
    rw [heq] at hp
    exact (hnodup.not_mem_erase) hp
  exact hne (List.inj_on_of_nodup_map hi.distinct (List.mem_of_mem_erase hp) hmem hk)

theorem inv_asyncFetch {h : Host} {id k : ℕ} (hi : Inv h) (hmem : (id,k) ∈ h.issued)
    (hC : Fresh h (.start id k)) : Inv (h.asyncFetch id k) := by
  obtain ⟨hzero,hshort,hunused⟩ := hC
  obtain ⟨hlt,hk⟩ := hi.bound (id,k) hmem
  have htransfers : (h.asyncFetch id k).transfers = (h.transfers.insert id k).add id k := by
    rw [Host.asyncFetch,if_pos hzero]
  refine ⟨hi.connections,?_,fun p hp => ?_,fun p hp i => ?_,?_⟩
  · rw [htransfers]
    exact Registry.sound_insert_add hi.transfers hshort hlt hunused hk
  · rw [htransfers]
    exact hi.bound p (List.mem_of_mem_erase hp)
  · rw [htransfers]
    change (h.transfers.table.insert id k).lookup i ≠ some p.2
    rw [lookup_insert_ite]
    split
    · exact fun heq => ne_of_mem_erase hi hmem hp (Option.some.inj heq).symm
    · exact hi.new p (List.mem_of_mem_erase hp) i
  · exact hi.distinct.sublist ((List.erase_sublist ..).map Prod.snd)

theorem inv_step (h : Host) (a : Action) (g : Host) (hi : Inv h) (hC : Fresh h a)
    (hstep : step h a = some g) : Inv g := by
  cases a with
  | request =>
    cases hstep
    exact inv_request hi hC
  | replied id k =>
    obtain ⟨hmem,hg⟩ := Option.ite_none_right_eq_some.mp hstep
    cases hg
    refine hi.keeps (Registry.sound_erase_leave hi.connections fun j hj => ?_) hi.transfers le_rfl
      (fun _ _ hl => hl) (List.Sublist.refl _)
    have hsame := hi.connections.stored id j hj
    rw [hi.connections.stored id k hmem] at hsame
    exact (Option.some.inj hsame).symm
  | streamed id k =>
    obtain ⟨-,hg⟩ := Option.ite_none_right_eq_some.mp hstep
    cases hg
    exact hi.keeps (Registry.sound_leave hi.connections id k) hi.transfers le_rfl
      (fun _ _ hl => hl) (List.Sublist.refl _)
  | sendHttpResponse connId =>
    cases hstep
    exact hi.keeps (Registry.sound_take hi.connections connId) hi.transfers le_rfl
      (fun _ _ hl => hl) (List.Sublist.refl _)
  | fetch =>
    cases hstep
    exact inv_nativeFetch hi
  | start id k =>
    obtain ⟨hmem,hg⟩ := Option.ite_none_right_eq_some.mp hstep
    cases hg
    exact inv_asyncFetch hi hmem hC
  | fetched id k =>
    obtain ⟨-,hg⟩ := Option.ite_none_right_eq_some.mp hstep
    cases hg
    exact hi.keeps hi.connections (Registry.sound_erase_leave hi.transfers hC) le_rfl
      (fun _ _ hl => lookup_of_erase hl) (List.erase_sublist ..)
  | abort id =>
    cases hstep
    refine hi.keeps hi.connections (Registry.sound_take hi.transfers id) ?_
      (fun _ _ hl => Registry.lookup_take hl) (List.Sublist.refl _)
    simp only [Host.nativeFetchAbort,Registry.take]
    split <;> exact le_rfl

theorem not_exact_step (h : Host) (a : Action) (g : Host) (hi : Inv h) (hC : ¬ Fresh h a)
    (hstep : step h a = some g) : ¬ Exact g := by
  cases a with
  | request =>
    cases hstep
    exact fun hexact => Registry.not_exact_insert_add (Registry.sound_count hi.connections)
      hi.connections.next hi.connections.new hC hexact.1
  | start id k =>
    obtain ⟨hmem,hg⟩ := Option.ite_none_right_eq_some.mp hstep
    cases hg
    intro hexact
    have htransfers := hexact.2
    by_cases hzero : id = 0
    · rw [Host.asyncFetch,if_neg (not_not.mpr hzero)] at htransfers
      exact Registry.not_exact_add (hi.new (id,k) hmem) htransfers
    · rw [Host.asyncFetch,if_pos hzero] at htransfers
      exact Registry.not_exact_insert_add hi.transfers (hi.bound (id,k) hmem).1
        (hi.new (id,k) hmem) (fun hC' => hC ⟨hzero,hC'⟩) htransfers
  | fetched id k =>
    obtain ⟨-,hg⟩ := Option.ite_none_right_eq_some.mp hstep
    cases hg
    obtain ⟨j,hj⟩ := not_forall.mp hC
    obtain ⟨hj,hne⟩ := Classical.not_imp.mp hj
    exact fun hexact => Registry.not_exact_erase_leave hi.transfers hj hne hexact.2
  | replied id k | streamed id k | sendHttpResponse connId | fetch | abort id =>
    exact absurd trivial hC

theorem inv_init : Inv {} where
  connections := ⟨by decide,by simp,by simp,by simp⟩
  transfers := ⟨by decide,by simp,by simp,by simp⟩
  bound := by simp
  new := by simp
  distinct := by simp

/-- Along a run all handles find their own connection or transfer exactly if each is given an
identifier that comes back and that no live one has. -/
theorem exact_iff_fresh {as : List Action} {h : Host} (hrun : Trace.run step {} as = some h) :
    (∀ bs g, bs <+: as → Trace.run step {} bs = some g → Exact g) ↔
      Trace.Meets step Fresh {} as :=
  Trace.always_iff_meets inv_step (fun _ hi => ⟨hi.connections.exact,hi.transfers.exact⟩)
    not_exact_step inv_init hrun

theorem exact_iff_fresh_sample :
    (∀ bs g, bs <+: [.request,.fetch,.start 1 0,.sendHttpResponse 1,.abort 1] →
        Trace.run step {} bs = some g → Exact g) ↔
      Trace.Meets step Fresh {} [.request,.fetch,.start 1 0,.sendHttpResponse 1,.abort 1] := by
  have hrun : Trace.run step {} [.request,.fetch,.start 1 0,.sendHttpResponse 1,.abort 1] =
    some _ := rfl
  exact exact_iff_fresh hrun

def serve (n : ℕ) : List Action := (List.range n).flatMap fun k => [.request,.replied (k+1) k]

theorem erase_singleton (id k : ℕ) : AList.erase id (AList.singleton id k : Table ℕ ℕ) = ∅ :=
  AList.ext (List.kerase_cons_eq rfl)

theorem run_serve {n : ℕ} (h : n+1 < 2^64) :
    Trace.run step {} (serve n) = some { connections := { nextId := n+1, served := n } } := by
  induction n with
  | zero => rfl
  | succ n ih =>
    rw [serve,List.range_succ,List.flatMap_append,List.flatMap_singleton,← serve]
    refine Trace.run_append.mpr ⟨_,ih (by omega),?_⟩
    refine Trace.run_cons.mpr ⟨_,rfl,Trace.run_cons.mpr ⟨_,if_pos (by simp [Host.request,
      Registry.add,Registry.insert,Registry.count]),?_⟩⟩
    simp [Host.request,Host.replied,Registry.add,Registry.insert,Registry.count,Registry.erase,
      Registry.leave,erase_singleton]
    omega

/-- The request behind so many others is not found under its handle, if its identifier does
not come back. -/
theorem not_exact_serve {n : ℕ} (h : n+1 < 2^64) (hshort : ¬ Short (n+1)) :
    ∃ g, Trace.run step {} (serve n++[.request]) = some g ∧ ¬ Exact g := by
  have hi : Inv { connections := { nextId := n+1, served := n } } := by
    refine ⟨⟨h,by simp,by simp,by simp⟩,inv_init.transfers,by simp,by simp,by simp⟩
  refine ⟨_,Trace.run_append.mpr ⟨_,run_serve h,rfl⟩,?_⟩
  exact not_exact_step _ .request _ hi (fun hC => hshort hC.1) rfl

/-- The request number 2147483648 is lost. -/
theorem request_lost :
    ∃ g, Trace.run step {} (serve (2^31-1)++[.request]) = some g ∧ ¬ Exact g :=
  not_exact_serve (by decide) (by decide)

end Handles
end AsioQuickjs
