import AsioQuickjs.Trace
import Mathlib.Data.List.Count
import Mathlib.Logic.Function.Basic

/-! The transfers of `fetch.cpp` and `curl_runtime.cpp` as raw pointers: the private slot of
curl and `fetch_transfers` hold them, three places delete them, and a completion runs JavaScript
before the place that called it goes on to delete. -/
namespace AsioQuickjs
namespace Transfers

/-- How far the coroutine of a fetch is: posted to the loop, running, waiting for its promise,
posted again with the value there, or behind its `co_await`. -/
inductive Coro
  | none | posted | running | waiting | ready | done
  deriving DecidableEq

/-- A fetch with its transfer, once `made`, and the client that only this transfer uses. `queued`
counts the messages in the multi handle, `priv` is the private slot of the easy handle, and
`completes` and `deletes` count what was done to the transfer. -/
structure Fetch where
  id : UInt64 := 0
  coro : Coro := .none
  value : Bool := false
  made : Bool := false
  easy : Bool := false
  priv : Bool := false
  inMulti : Bool := false
  queued : ℕ := 0
  finished : Bool := false
  complete : Bool := false
  completes : ℕ := 0
  deletes : ℕ := 0

/-- What is on the call stack: JavaScript, the loop of `on_multi_messages`, a `delete tr` to
come, `async_fetch` behind `add_transfer`, and `native_fetch_coro` behind its `co_await`. -/
inductive Frame
  | script
  | messages (i : ℕ) | delete (i : ℕ) | added (i : ℕ) | resume (i : ℕ)
  deriving DecidableEq

structure World where
  fetches : ℕ → Fetch := fun _ => {}
  count : ℕ := 0
  nextFetchId : UInt64 := 1
  fetchTransfers : UInt64 → Option ℕ := fun _ => .none
  stack : List Frame := []
  inLoop : Bool := false
  usedAfterDelete : Bool := false

/-- `Transfer::finish` of a transfer that is not finished. -/
def Fetch.finish (t : Fetch) : Fetch :=
  { t with
    finished := true
    complete := false
    easy := false
    priv := t.priv && !t.easy
    inMulti := t.inMulti && !t.easy
    queued := if t.easy then 0 else t.queued
    completes := if t.complete then t.completes+1 else t.completes
    value := t.value || t.complete }

namespace World

def set (w : World) (i : ℕ) (t : Fetch) : World :=
  { w with fetches := Function.update w.fetches i t }

@[simp] theorem set_self (w : World) (i : ℕ) (t : Fetch) : (w.set i t).fetches i = t :=
  Function.update_self ..

theorem set_of_ne (w : World) {i j : ℕ} (h : j ≠ i) (t : Fetch) :
    (w.set i t).fetches j = w.fetches j :=
  Function.update_of_ne h ..

def push (w : World) (fs : List Frame) : World := { w with stack := fs++w.stack }

def erase (w : World) (id : UInt64) : World :=
  { w with fetchTransfers := Function.update w.fetchTransfers id none }

def use (w : World) (i : ℕ) : World :=
  { w with usedAfterDelete := w.usedAfterDelete || decide (0 < (w.fetches i).deletes) }

/-- `delete tr`. -/
def delete (w : World) (i : ℕ) : World :=
  (w.use i).set i { w.fetches i with deletes := (w.fetches i).deletes+1 }

/-- `Transfer::finish`. The callback gives the promise its value, and a coroutine that waits for
it goes on at once in the loop, and by a posted handler elsewhere. -/
def finish (w : World) (i : ℕ) : World :=
  let t := w.fetches i
  let w := w.use i
  if t.finished then w
  else if t.complete ∧ t.coro = .waiting then
    if w.inLoop then (w.set i { t.finish with coro := .running }).push [.resume i]
    else w.set i { t.finish with coro := .ready }
  else w.set i t.finish

/-- The body of `async_fetch`. The client, the easy handle and `curl_multi_add_handle` may each
fail. -/
def asyncFetch (w : World) (i : ℕ) (client easy added : Bool) : World :=
  let t : Fetch := { w.fetches i with coro := .running }
  let w : World := { w with inLoop := true }
  if !client then (w.set i t).push [.resume i]
  else
    let w : World := if t.id = 0 then w
      else { w with fetchTransfers := Function.update w.fetchTransfers t.id (some i) }
    let t := { t with made := true, complete := true, easy := easy, priv := easy }
    if easy && added then (w.set i { t with inMulti := true }).push [.messages i,.added i]
    else
      let w := if t.id = 0 then w else w.erase t.id
      (((w.set i t).push [.resume i]).finish i).delete i

/-- `native_fetch_fn`, and a call of `async_fetch` from C++, which leaves the id at zero. -/
def spawn (w : World) (id : UInt64) : World :=
  { w.set w.count { id := id, coro := .posted } with count := w.count+1 }

/-- `native_fetch_abort_fn`, up to `delete tr`. -/
def nativeFetchAbort (w : World) (z : Int32) : World :=
  let id := z.toInt64.toUInt64
  match w.fetchTransfers id with
  | none => w
  | some i => ((w.erase id).push [.delete i]).finish i

def advance (w : World) : Option World :=
  match w.stack with
  | .messages i::k =>
    let t := w.fetches i
    if t.queued = 0 then some { w with stack := k }
    else
      let w := w.set i { t with queued := t.queued-1 }
      if t.priv then some ((w.push [.delete i]).finish i) else some w
  | .delete i::k => some ({ w with stack := k }.delete i)
  | .added i::k =>
    if (w.fetches i).value then some { w with stack := .resume i::k }
    else some { w.set i { w.fetches i with coro := .waiting } with stack := k }
  | .resume i::k =>
    some {
      (w.erase (w.fetches i).id).set i { w.fetches i with coro := .done } with
      stack := .script::k }
  | _ => none

end World

/-- The loop runs a handler of its own, the posted body of a fetch, a socket or timer action of a
client, or a coroutine that was posted; a script is run outside of the loop; JavaScript fetches,
aborts and returns; curl queues a message, or calls `write_cb` or `header_cb` with the pointer it
has; C++ goes on. -/
inductive Action
  | handler | eval
  | start (i : ℕ) (client easy added : Bool)
  | socketAction (i : ℕ)
  | resumePosted (i : ℕ)
  | fetch | asyncFetch
  | abort (z : Int32)
  | ret
  | message (i : ℕ) | callback (i : ℕ)
  | advance

def step (w : World) : Action → Option World
  | .handler => if w.stack = [] then some { w with inLoop := true, stack := [.script] } else none
  | .eval => if w.stack = [] then some { w with inLoop := false, stack := [.script] } else none
  | .start i client easy added =>
    if w.stack = [] ∧ (w.fetches i).coro = .posted then some (w.asyncFetch i client easy added)
    else none
  | .socketAction i =>
    if w.stack = [] then some { w with inLoop := true, stack := [.messages i] } else none
  | .resumePosted i =>
    if w.stack = [] ∧ (w.fetches i).coro = .ready then
      some {
        w.set i { w.fetches i with coro := .running } with
        inLoop := true, stack := [.resume i] }
    else none
  | .fetch =>
    if w.stack.head? = some .script then
      some { w.spawn w.nextFetchId with nextFetchId := w.nextFetchId+1 }
    else none
  | .asyncFetch => if w.stack.head? = some .script then some (w.spawn 0) else none
  | .abort z => if w.stack.head? = some .script then some (w.nativeFetchAbort z) else none
  | .ret =>
    match w.stack with
    | .script::k => some { w with stack := k }
    | _ => none
  | .message i =>
    if (w.fetches i).inMulti then
      some (w.set i { w.fetches i with queued := (w.fetches i).queued+1 })
    else none
  | .callback i => if (w.fetches i).inMulti then some (w.use i) else none
  | .advance => w.advance

def start : World := {}

/-- The callback is there until the transfer finishes, which calls it once, and the private slot
points to a transfer that is not finished, as does every easy handle in a multi handle. -/
structure Fetch.Ok (t : Fetch) : Prop where
  complete : t.complete = (t.made && !t.finished)
  completes : t.completes = t.finished.toNat
  value : t.value = t.finished
  made : t.finished = true → t.made = true
  priv : t.priv = true → t.made = true ∧ t.finished = false ∧ t.easy = true
  inMulti : t.inMulti = true → t.priv = true
  posted : t.coro = .posted → t.made = false

theorem Fetch.ok_new (id : UInt64) (c : Coro) : ({ id := id, coro := c } : Fetch).Ok :=
  ⟨rfl,rfl,rfl,(nomatch ·),(nomatch ·),(nomatch ·),fun _ => rfl⟩

theorem Fetch.Ok.withCoro {t : Fetch} (h : t.Ok) {c : Coro} (hc : c ≠ .posted) :
    ({ t with coro := c } : Fetch).Ok :=
  ⟨h.complete,h.completes,h.value,h.made,h.priv,h.inMulti,fun hp => absurd hp hc⟩

theorem Fetch.Ok.withCounts {t : Fetch} (h : t.Ok) (queued deletes : ℕ) :
    ({ t with queued := queued, deletes := deletes } : Fetch).Ok :=
  ⟨h.complete,h.completes,h.value,h.made,h.priv,h.inMulti,h.posted⟩

theorem Fetch.Ok.finish {t : Fetch} (h : t.Ok) (hmade : t.made = true) (hf : t.finished = false)
    {c : Coro} (hc : c ≠ .posted) : ({ t.finish with coro := c } : Fetch).Ok := by
  have hcomplete : t.complete = true := by simp [h.complete,hmade,hf]
  refine ⟨by simp [Fetch.finish,hmade],?_,?_,fun _ => hmade,fun hp => ?_,fun hm => ?_,
    fun hp => absurd hp hc⟩
  · simp [Fetch.finish,hcomplete,h.completes,hf]
  · simp [Fetch.finish,hcomplete]
  · simp only [Fetch.finish,Bool.and_eq_true,Bool.not_eq_true'] at hp
    rw [(h.priv hp.1).2.2] at hp
    exact absurd hp.2 (by decide)
  · simp only [Fetch.finish,Bool.and_eq_true,Bool.not_eq_true'] at hm
    rw [(h.priv (h.inMulti hm.1)).2.2] at hm
    exact absurd hm.2 (by decide)

namespace Frame

def target : Frame → Option ℕ
  | .script => none
  | .messages i | .delete i | .added i | .resume i => some i

theorem ne_of_target {f g : Frame} {i j : ℕ} (hf : f.target = some i) (hg : g.target = some j)
    (h : j ≠ i) : f ≠ g := by
  rintro rfl
  exact h (Option.some.inj (hg.symm.trans hf))

end Frame

/-- The frames of C++ above the JavaScript that called it, or above the loop. -/
def top (k : List Frame) : List Frame := k.takeWhile (· ≠ .script)

theorem top_of_head {k : List Frame} (h : k.head? = some .script) : top k = [] := by
  cases k with
  | nil => cases h
  | cons f k =>
    cases Option.some.inj h
    rfl

/-- C++ that no JavaScript lies between is about one fetch. -/
def Aligned : List Frame → Prop
  | [] => True
  | f::k => Aligned k ∧ ∀ i, f.target = some i → ∀ g ∈ top k, g.target = some i

@[simp] theorem top_script (k : List Frame) : top (.script::k) = [] := rfl

theorem mem_top_cons {f g : Frame} {k : List Frame} (h : g ∈ top (f::k)) : g = f ∨ g ∈ top k := by
  cases f with
  | script => cases h
  | _ => exact List.mem_cons.mp h

/-- The coroutine of the fetch is going on, before any JavaScript can run. -/
def GoesOn (k : List Frame) (i : ℕ) : Prop := .added i ∈ top k ∨ .resume i ∈ top k

/-- A transfer is deleted once it is finished, or will be by a frame of the stack; the table holds
live transfers, or one whose coroutine is going on to take it out. -/
structure World.Inv (w : World) : Prop where
  fetches : ∀ i, (w.fetches i).Ok
  there : ∀ i, (w.fetches i).made = true ∨ (w.fetches i).coro = .posted → i < w.count
  balance : ∀ i, (w.fetches i).deletes+w.stack.count (.delete i) = (w.fetches i).finished.toNat
  aligned : Aligned w.stack
  entries : ∀ id i, w.fetchTransfers id = some i → (w.fetches i).id = id ∧
    (w.fetches i).made = true ∧ ((w.fetches i).finished = true → GoesOn w.stack i)
  waiting : ∀ i, (w.fetches i).made = true → (w.fetches i).finished = false →
    (w.fetches i).coro = .waiting ∨ .added i ∈ top w.stack
  resume : ∀ i, .resume i ∈ w.stack → (w.fetches i).made = true → (w.fetches i).finished = true
  outside : w.inLoop = false → ∀ f ∈ w.stack, f = .script ∨ ∃ i, f = .delete i
  clean : w.usedAfterDelete = false

theorem inv_start : start.Inv := by
  refine ⟨fun _ => Fetch.ok_new 0 .none,fun i h => ?_,fun _ => rfl,trivial,?_,?_,?_,?_,rfl⟩
  · rcases h with h | h <;> cases h
  · intro id i h
    cases h
  · intro i h
    cases h
  · intro i h
    cases h
  · intro _ f h
    cases h

namespace World

variable {w : World}

/-- A transfer that is not finished, or that a frame is to delete, has not been deleted. -/
theorem Inv.not_deleted (h : w.Inv) {i : ℕ}
    (hi : (w.fetches i).finished = false ∨ .delete i ∈ w.stack) : (w.fetches i).deletes = 0 := by
  have hbalance := h.balance i
  rcases hi with hf | hmem
  · rw [hf,Bool.toNat_false] at hbalance
    omega
  · have hpos := List.count_pos_iff.mpr hmem
    have hle := Bool.toNat_le (w.fetches i).finished
    omega

theorem use_of_deletes {i : ℕ} (hdel : (w.fetches i).deletes = 0) : w.use i = w := by
  simp [use,hdel]

theorem Inv.use (h : w.Inv) {i : ℕ}
    (hi : (w.fetches i).finished = false ∨ .delete i ∈ w.stack) : w.use i = w :=
  use_of_deletes (h.not_deleted hi)

/-- The stack changes by frames that delete nothing. What the table and the coroutines need of
it is there after. -/
theorem inv_stack (h : w.Inv) {k : List Frame} {b : Bool}
    (hcount : ∀ i, k.count (.delete i) = w.stack.count (.delete i)) (hal : Aligned k)
    (hgoes : ∀ id i, w.fetchTransfers id = some i → (w.fetches i).finished = true →
      GoesOn w.stack i → GoesOn k i)
    (hwait : ∀ i, (w.fetches i).made = true → (w.fetches i).finished = false →
      .added i ∈ top w.stack → (w.fetches i).coro = .waiting ∨ .added i ∈ top k)
    (hresume : ∀ i, .resume i ∈ k → (w.fetches i).made = true → (w.fetches i).finished = true)
    (hout : b = false → ∀ f ∈ k, f = .script ∨ ∃ i, f = .delete i) :
    ({ w with stack := k, inLoop := b } : World).Inv := by
  refine ⟨h.fetches,h.there,fun i => ?_,hal,fun id i hi => ?_,fun i hm hf => ?_,hresume,hout,
    h.clean⟩
  · rw [hcount]
    exact h.balance i
  · obtain ⟨hid,hmade,hfin⟩ := h.entries id i hi
    exact ⟨hid,hmade,fun hf => hgoes id i hi hf (hfin hf)⟩
  · exact (h.waiting i hm hf).elim .inl (hwait i hm hf)

/-- One fetch changes with the table, the stack and the loop: no frame of another fetch comes or
goes or is buried, and the table holds no other fetch anew. -/
theorem inv_change (h : w.Inv) {i : ℕ} {t : Fetch} {table : UInt64 → Option ℕ} {k : List Frame}
    {b : Bool} (ht : t.Ok) (hi : t.made = true ∨ t.coro = .posted → i < w.count)
    (hbalance : t.deletes+k.count (.delete i) = t.finished.toNat) (hal : Aligned k)
    (hentry : ∀ id, table id = some i →
      t.id = id ∧ t.made = true ∧ (t.finished = true → GoesOn k i))
    (hwaiting : t.made = true → t.finished = false → t.coro = .waiting ∨ .added i ∈ top k)
    (hresume : .resume i ∈ k → t.made = true → t.finished = true)
    (htable : ∀ id j, j ≠ i → table id = some j → w.fetchTransfers id = some j)
    (hframes : ∀ f j, f.target = some j → j ≠ i →
      k.count f = w.stack.count f ∧ (f ∈ top w.stack → f ∈ top k))
    (hout : b = false → ∀ f ∈ k, f = .script ∨ ∃ j, f = .delete j) :
    ({ w.set i t with fetchTransfers := table, stack := k, inLoop := b } : World).Inv := by
  refine ⟨fun j => ?_,fun j hj => ?_,fun j => ?_,hal,fun id j hj => ?_,fun j hm hf => ?_,
    fun j hj hm => ?_,hout,h.clean⟩ <;> by_cases hji : j = i
  · rw [hji,set_self]
    exact ht
  · rw [set_of_ne _ hji]
    exact h.fetches j
  · rw [hji,set_self] at hj
    exact hji ▸ hi hj
  · rw [set_of_ne _ hji] at hj
    exact h.there j hj
  · rw [hji,set_self]
    exact hbalance
  · rw [set_of_ne _ hji,show List.count _ _ = _ from (hframes (.delete j) j rfl hji).1]
    exact h.balance j
  · subst hji
    rw [set_self]
    exact hentry id hj
  · rw [set_of_ne _ hji]
    obtain ⟨hid,hm,hfin⟩ := h.entries id j (htable id j hji hj)
    exact ⟨hid,hm,fun hf => (hfin hf).imp (hframes _ j rfl hji).2 (hframes _ j rfl hji).2⟩
  · subst hji
    rw [set_self] at hm hf ⊢
    exact hwaiting hm hf
  · rw [set_of_ne _ hji] at hm hf ⊢
    exact (h.waiting j hm hf).imp id (hframes _ j rfl hji).2
  · subst hji
    rw [set_self] at hm ⊢
    exact hresume hj hm
  · rw [set_of_ne _ hji] at hm ⊢
    refine h.resume j ?_ hm
    rw [← List.count_pos_iff,← (hframes _ j rfl hji).1]
    exact List.count_pos_iff.mpr hj

theorem inv_set (h : w.Inv) {i : ℕ} {t : Fetch} (ht : t.Ok)
    (hkeep : (w.fetches i).made = true →
      t.id = (w.fetches i).id ∧
        ((w.fetches i).finished = false → (w.fetches i).coro = .waiting → t.coro = .waiting))
    (hmade : t.made = (w.fetches i).made) (hfin : t.finished = (w.fetches i).finished)
    (hdel : t.deletes = (w.fetches i).deletes)
    (hposted : t.coro = .posted → i < w.count) : (w.set i t).Inv := by
  refine inv_change h ht (fun hj => ?_) ?_ h.aligned (fun id hid => ?_) (fun hm hf => ?_)
    (fun hi hm => ?_) (fun _ _ _ hj => hj) (fun _ _ _ _ => ⟨rfl,id⟩) h.outside
  · rw [hmade] at hj
    exact hj.elim (fun hm => h.there i (.inl hm)) hposted
  · rw [hdel,hfin]
    exact h.balance i
  · obtain ⟨hid',hm,hgoes⟩ := h.entries id i hid
    rw [(hkeep hm).1,hmade,hfin]
    exact ⟨hid',hm,hgoes⟩
  · rw [hmade] at hm
    rw [hfin] at hf
    exact (h.waiting i hm hf).imp ((hkeep hm).2 hf) id
  · rw [hfin]
    exact h.resume i hi (hmade ▸ hm)

theorem inv_erase (h : w.Inv) (id : UInt64) : (w.erase id).Inv := by
  refine ⟨h.fetches,h.there,h.balance,h.aligned,fun id' i hi => ?_,h.waiting,h.resume,h.outside,
    h.clean⟩
  by_cases hid : id' = id
  · simp [World.erase,hid] at hi
  · exact h.entries id' i (by simpa [World.erase,hid] using hi)

theorem Inv.erased (h : w.Inv) (i : ℕ) (id : UInt64) :
    (w.erase (w.fetches i).id).fetchTransfers id ≠ some i := by
  intro hi
  by_cases hid : id = (w.fetches i).id
  · simp [World.erase,hid] at hi
  · have hi : w.fetchTransfers id = some i := by simpa [World.erase,hid] using hi
    exact hid (h.entries id i hi).1.symm

/-- A live transfer has finished and is deleted by the frame above; the coroutine goes on, or the
table no longer holds the transfer. -/
theorem inv_finished (h : w.Inv) {i : ℕ} (hmade : (w.fetches i).made = true)
    (hf : (w.fetches i).finished = false) (htop : ∀ g ∈ top w.stack, g.target = some i)
    {c : Coro} (hc : c ≠ .posted) (fs : List Frame) (hfs : fs = [] ∨ fs = [.resume i])
    (hgoes : GoesOn (fs++.delete i::w.stack) i ∨ ∀ id, w.fetchTransfers id ≠ some i)
    (hout : w.inLoop = false → fs = []) :
    ({ w.set i { (w.fetches i).finish with coro := c } with
      stack := fs++.delete i::w.stack } : World).Inv := by
  have hbalance := h.balance i
  rw [hf,Bool.toNat_false] at hbalance
  have haligned : Aligned (.delete i::w.stack) := by
    refine ⟨h.aligned,fun j hj g hg => ?_⟩
    rw [← hj]
    exact htop g hg
  refine inv_change h ((h.fetches i).finish hmade hf hc) (fun _ => h.there i (.inl hmade)) ?_ ?_
    (fun id hid => ?_) (fun _ => (nomatch ·)) (fun _ _ => rfl) (fun _ _ _ hj => hj)
    (fun f j hj hji => ?_) (fun hl f hfmem => ?_)
  · change (w.fetches i).deletes+(fs++.delete i::w.stack).count (.delete i) = 1
    rcases hfs with rfl | rfl <;> simp <;> omega
  · rcases hfs with rfl | rfl
    · exact haligned
    · refine ⟨haligned,fun j hj g hg => ?_⟩
      rcases mem_top_cons (f := .delete i) hg with rfl | hg
      · exact hj
      · rw [← hj]
        exact htop g hg
  · obtain ⟨hid',hm,-⟩ := h.entries id i hid
    exact ⟨hid',hm,fun _ => hgoes.resolve_right fun hnone => hnone id hid⟩
  · have hdelete : .delete i ≠ f := Frame.ne_of_target rfl hj hji
    have hresume : .resume i ≠ f := Frame.ne_of_target rfl hj hji
    rcases hfs with rfl | rfl
    · exact ⟨List.count_cons_of_ne hdelete,List.mem_cons_of_mem _⟩
    · refine ⟨?_,fun hg => List.mem_cons_of_mem _ (List.mem_cons_of_mem _ hg)⟩
      exact (List.count_cons_of_ne hresume).trans (List.count_cons_of_ne hdelete)
  · rw [hout hl] at hfmem
    rcases List.mem_cons.mp hfmem with rfl | hfmem
    · exact .inr ⟨i,rfl⟩
    · exact h.outside hl f hfmem

/-- `native_fetch_abort_fn` and `on_multi_messages` finish a live transfer that they delete then.
The frames of C++ are about it, and it runs in the loop or is out of the table. -/
theorem inv_finish (h : w.Inv) {i : ℕ} (hmade : (w.fetches i).made = true)
    (hf : (w.fetches i).finished = false) (htop : ∀ g ∈ top w.stack, g.target = some i)
    (hgone : w.inLoop = true ∨ ∀ id, w.fetchTransfers id ≠ some i) :
    ((w.push [.delete i]).finish i).Inv := by
  have huse : (w.push [.delete i]).use i = w.push [.delete i] :=
    use_of_deletes (h.not_deleted (.inl hf))
  have hfetch : (w.push [.delete i]).fetches = w.fetches := rfl
  have hcomplete : (w.fetches i).complete = true := by
    simp [(h.fetches i).complete,hmade,hf]
  have hposted : (w.fetches i).coro ≠ .posted := by
    intro hp
    rw [(h.fetches i).posted hp] at hmade
    cases hmade
  simp only [World.finish,huse,hfetch,hf,hcomplete,Bool.false_eq_true,if_false,true_and]
  split
  · next hw =>
    split
    · next hl =>
      refine inv_finished h hmade hf htop (c := .running) (by decide) [.resume i] (.inr rfl)
        (.inl (.inr (List.mem_cons_self ..))) (fun hl' => ?_)
      rw [show w.inLoop = true from hl] at hl'
      cases hl'
    · next hl =>
      exact inv_finished h hmade hf htop (c := .ready) (by decide) [] (.inl rfl)
        (.inr (hgone.resolve_left hl)) (fun _ => rfl)
  · next hw =>
    have hadded := (h.waiting i hmade hf).resolve_left hw
    exact inv_finished h hmade hf htop (c := (w.fetches i).coro) hposted [] (.inl rfl)
      (.inl (.inl (List.mem_cons_of_mem _ hadded))) (fun _ => rfl)

theorem Inv.live (h : w.Inv) (htop : top w.stack = []) {id : UInt64} {i : ℕ}
    (hi : w.fetchTransfers id = some i) :
    (w.fetches i).made = true ∧ (w.fetches i).finished = false := by
  obtain ⟨-,hmade,hfin⟩ := h.entries id i hi
  refine ⟨hmade,Bool.eq_false_iff.mpr fun hf => ?_⟩
  simpa [GoesOn,htop] using hfin hf

theorem inv_nativeFetchAbort (h : w.Inv) (htop : top w.stack = []) (z : Int32) :
    (w.nativeFetchAbort z).Inv := by
  simp only [nativeFetchAbort]
  split
  · exact h
  · next i hi =>
    obtain ⟨hmade,hf⟩ := h.live htop hi
    rw [← (h.entries _ i hi).1]
    refine inv_finish (inv_erase h _) hmade hf (fun g hg => ?_) (.inr (h.erased i))
    rw [show top (w.erase (w.fetches i).id).stack = [] from htop] at hg
    cases hg

theorem inv_spawn (h : w.Inv) (id : UInt64) : (w.spawn id).Inv := by
  have hmade : (w.fetches w.count).made = false := Bool.eq_false_iff.mpr fun hm =>
    Nat.lt_irrefl _ (h.there w.count (.inl hm))
  have hf : (w.fetches w.count).finished = false := Bool.eq_false_iff.mpr fun hf => by
    rw [(h.fetches w.count).made hf] at hmade
    cases hmade
  have hmore : ({ w with count := w.count+1 } : World).Inv :=
    ⟨h.fetches,fun i hi => Nat.lt_succ_of_lt (h.there i hi),h.balance,h.aligned,h.entries,h.waiting,
      h.resume,h.outside,h.clean⟩
  refine inv_set hmore (Fetch.ok_new id .posted) (fun hm => ?_) hmade.symm hf.symm
    (h.not_deleted (.inl hf)).symm (fun _ => Nat.lt_succ_self _)
  rw [show (w.fetches w.count).made = true from hm] at hmade
  cases hmade

theorem Inv.inLoop (h : w.Inv) {f : Frame} (hf : f ∈ w.stack)
    (hne : f ≠ .script ∧ ∀ i, f ≠ .delete i) : w.inLoop = true :=
  Bool.of_not_eq_false fun hl => (h.outside hl f hf).elim hne.1 fun ⟨i,hi⟩ => hne.2 i hi

theorem inv_messages (h : w.Inv) {i : ℕ} {k : List Frame} (hstack : w.stack = .messages i::k)
    {w' : World} (ha : w.advance = some w') : w'.Inv := by
  have hal : Aligned (.messages i::k) := hstack ▸ h.aligned
  simp only [advance,hstack] at ha
  split at ha
  · obtain rfl := Option.some.inj ha
    have htop : ∀ {f}, f ≠ .messages i → f ∈ top w.stack → f ∈ top k := fun hne hf =>
      (mem_top_cons (hstack ▸ hf)).resolve_left hne
    refine inv_stack h (b := w.inLoop) (fun j => ?_) hal.1 (fun _ j _ _ hj => ?_)
      (fun j _ _ hj => .inr ?_) (fun j hj => ?_) (fun hl f hf => ?_)
    · simp [hstack]
    · exact hj.imp (htop (by simp)) (htop (by simp))
    · exact htop (by simp) hj
    · exact h.resume j (hstack ▸ List.mem_cons_of_mem _ hj)
    · exact h.outside hl f (hstack ▸ List.mem_cons_of_mem _ hf)
  · have hset : (w.set i { w.fetches i with queued := (w.fetches i).queued-1 }).Inv :=
      inv_set h ((h.fetches i).withCounts _ (w.fetches i).deletes)
        (fun _ => ⟨rfl,fun _ => id⟩) rfl rfl rfl fun hp => h.there i (.inr hp)
    split at ha
    · next hp =>
      obtain rfl := Option.some.inj ha
      obtain ⟨hmade,hf,-⟩ := (h.fetches i).priv hp
      refine inv_finish hset (by rw [set_self]; exact hmade) (by rw [set_self]; exact hf)
        (fun g hg => ?_) (.inl (h.inLoop (hstack ▸ List.mem_cons_self ..) (by simp)))
      have hg : g ∈ top w.stack := hg
      rcases mem_top_cons (hstack ▸ hg) with rfl | hg
      · rfl
      · exact hal.2 i rfl g hg
    · obtain rfl := Option.some.inj ha
      exact hset

theorem inv_delete (h : w.Inv) {i : ℕ} {k : List Frame} (hstack : w.stack = .delete i::k)
    {w' : World} (ha : w.advance = some w') : w'.Inv := by
  have hdel := h.not_deleted (i := i) (.inr (hstack ▸ List.mem_cons_self ..))
  have hal : Aligned (.delete i::k) := hstack ▸ h.aligned
  have htop : ∀ {f}, f ∈ top w.stack → f = .delete i ∨ f ∈ top k := fun hf =>
    mem_top_cons (hstack ▸ hf)
  have hbalance := h.balance i
  rw [hstack,List.count_cons_self] at hbalance
  have hdelete : World.delete { w with stack := k } i =
      { w.set i { w.fetches i with deletes := (w.fetches i).deletes+1 } with stack := k } := by
    rw [World.delete,use_of_deletes (w := { w with stack := k }) hdel]
    rfl
  simp only [advance,hstack] at ha
  obtain rfl := Option.some.inj ha
  rw [hdelete]
  refine inv_change h ((h.fetches i).withCounts (w.fetches i).queued _) (h.there i) ?_ hal.1
    (fun id hid => ?_) (fun hm hf => ?_) (fun hi => h.resume i (hstack ▸ List.mem_cons_of_mem _ hi))
    (fun _ _ _ hj => hj) (fun f j hj hji => ?_)
    (fun hl f hf => h.outside hl f (hstack ▸ List.mem_cons_of_mem _ hf))
  · change (w.fetches i).deletes+1+k.count (.delete i) = (w.fetches i).finished.toNat
    omega
  · obtain ⟨hid',hm,hfin⟩ := h.entries id i hid
    exact ⟨hid',hm,fun hf => (hfin hf).imp (fun hg => (htop hg).resolve_left (by simp))
      fun hg => (htop hg).resolve_left (by simp)⟩
  · exact (h.waiting i hm hf).imp id fun hg => (htop hg).resolve_left (by simp)
  · have hne : .delete i ≠ f := Frame.ne_of_target rfl hj hji
    rw [hstack,List.count_cons_of_ne hne]
    exact ⟨rfl,fun hg => (htop (hstack ▸ hg)).resolve_left hne.symm⟩

theorem inv_added (h : w.Inv) {i : ℕ} {k : List Frame} (hstack : w.stack = .added i::k)
    {w' : World} (ha : w.advance = some w') : w'.Inv := by
  have hal : Aligned (.added i::k) := hstack ▸ h.aligned
  have htop : ∀ {f}, f ∈ top w.stack → f = .added i ∨ f ∈ top k := fun hf =>
    mem_top_cons (hstack ▸ hf)
  have hsub : ∀ {f}, f ∈ k → f ∈ w.stack := fun hf => hstack ▸ List.mem_cons_of_mem _ hf
  have hloop := h.inLoop (f := .added i) (hstack ▸ List.mem_cons_self ..) (by simp)
  have hout : w.inLoop = false → ∀ f ∈ k, f = .script ∨ ∃ j, f = .delete j := fun hl f hf =>
    h.outside hl f (hsub hf)
  simp only [advance,hstack] at ha
  split at ha
  · next hv =>
    obtain rfl := Option.some.inj ha
    have hf : (w.fetches i).finished = true := by rw [← (h.fetches i).value,hv]
    refine inv_stack h (b := w.inLoop) (fun j => by simp [hstack]) hal (fun _ j _ _ hj => ?_)
      (fun j _ hnot hj => ?_) (fun j hj hm => ?_) (fun hl => ?_)
    · rcases hj with hj | hj
      · rcases htop hj with hji | hj
        · cases hji
          exact .inr (List.mem_cons_self ..)
        · exact .inl (List.mem_cons_of_mem _ hj)
      · exact .inr (List.mem_cons_of_mem _ ((htop hj).resolve_left (by simp)))
    · rcases htop hj with hji | hj
      · cases hji
        rw [hf] at hnot
        cases hnot
      · exact .inr (List.mem_cons_of_mem _ hj)
    · rcases List.mem_cons.mp hj with hji | hj
      · cases hji
        exact hf
      · exact h.resume j (hsub hj) hm
    · rw [hloop] at hl
      cases hl
  · next hv =>
    obtain rfl := Option.some.inj ha
    have hf : (w.fetches i).finished = false := by
      rw [← (h.fetches i).value]
      exact Bool.eq_false_iff.mpr hv
    have hset := inv_set h ((h.fetches i).withCoro (c := .waiting) (by decide))
      (fun _ => ⟨rfl,fun _ _ => rfl⟩) rfl rfl rfl (nomatch ·)
    refine inv_stack hset (b := w.inLoop) (fun j => ?_) hal.1 (fun _ j _ hfj hj => ?_)
      (fun j _ _ hj => ?_) (fun j hj => hset.resume j (hsub hj)) hout
    · change k.count (.delete j) = w.stack.count (.delete j)
      simp [hstack]
    · refine hj.imp (fun hj => (htop hj).resolve_left ?_) fun hj => (htop hj).resolve_left (by simp)
      intro hji
      cases hji
      rw [set_self] at hfj
      rw [show (w.fetches i).finished = true from hfj] at hf
      cases hf
    · rcases htop hj with hji | hj
      · cases hji
        rw [set_self]
        exact .inl rfl
      · exact .inr hj

/-- `native_fetch_coro` takes the id out and runs the JavaScript that waits for the result. The
frames up to the next JavaScript are about the same fetch. -/
theorem inv_resume (h : w.Inv) {i : ℕ} {k : List Frame} (hstack : w.stack = .resume i::k)
    {w' : World} (ha : w.advance = some w') : w'.Inv := by
  have hmem : .resume i ∈ w.stack := hstack ▸ List.mem_cons_self ..
  have hal : Aligned (.resume i::k) := hstack ▸ h.aligned
  have htop : ∀ {f}, f ∈ top w.stack → f.target = some i := by
    intro f hf
    rcases mem_top_cons (hstack ▸ hf) with rfl | hf
    · rfl
    · exact hal.2 i rfl f hf
  have hgoes : ∀ {j}, GoesOn w.stack j → j = i := fun hj =>
    hj.elim (fun hj => Option.some.inj (htop hj)) fun hj => Option.some.inj (htop hj)
  have hset := inv_set (inv_erase h (w.fetches i).id) (i := i)
    ((h.fetches i).withCoro (c := .done) (by decide))
    (fun hm => ⟨rfl,fun hf => absurd (h.resume i hmem hm) (Bool.eq_false_iff.mp hf)⟩) rfl rfl rfl
    (nomatch ·)
  simp only [advance,hstack] at ha
  obtain rfl := Option.some.inj ha
  refine inv_stack hset (b := w.inLoop) (fun j => ?_) ⟨hal.1,fun _ hj => nomatch hj⟩
    (fun id j hj _ hg => ?_) (fun j hm hf hj => ?_) (fun j hj => ?_) (fun hl f hf => ?_)
  · change (Frame.script::k).count (.delete j) = w.stack.count (.delete j)
    simp [hstack]
  · cases hgoes hg
    exact absurd hj (h.erased i id)
  · cases hgoes (.inl hj)
    have hfin := hset.resume i hmem hm
    rw [hf] at hfin
    cases hfin
  · have hj := (List.mem_cons.mp hj).resolve_left (by simp)
    exact hset.resume j (hstack ▸ List.mem_cons_of_mem _ hj)
  · rcases List.mem_cons.mp hf with rfl | hf
    · exact .inl rfl
    · exact h.outside hl f (hstack ▸ List.mem_cons_of_mem _ hf)

theorem inv_ret (h : w.Inv) {k : List Frame} (hstack : w.stack = .script::k) :
    ({ w with stack := k } : World).Inv := by
  have hal : Aligned (.script::k) := hstack ▸ h.aligned
  refine inv_stack h (b := w.inLoop) (fun i => by simp [hstack]) hal.1 (fun _ i _ _ hg => ?_)
    (fun i _ _ hg => ?_) (fun i hi => h.resume i (hstack ▸ List.mem_cons_of_mem _ hi))
    (fun hl f hf => h.outside hl f (hstack ▸ List.mem_cons_of_mem _ hf))
  · rw [hstack] at hg
    simp [GoesOn] at hg
  · rw [hstack] at hg
    cases hg

theorem inv_advance (h : w.Inv) {w' : World} (ha : w.advance = some w') : w'.Inv := by
  rcases hstack : w.stack with _ | ⟨_ | i | i | i | i,k⟩
  · simp [advance,hstack] at ha
  · simp [advance,hstack] at ha
  · exact inv_messages h hstack ha
  · exact inv_delete h hstack ha
  · exact inv_added h hstack ha
  · exact inv_resume h hstack ha

/-- From the loop, or where it does not run, C++ begins with a frame that deletes nothing. -/
theorem inv_begin (h : w.Inv) (hstack : w.stack = []) {f : Frame} {b : Bool}
    (hne : ∀ i, f ≠ .delete i)
    (hresume : ∀ i, f = .resume i → (w.fetches i).made = true → (w.fetches i).finished = true)
    (hout : b = false → f = .script) :
    ({ w with stack := [f], inLoop := b } : World).Inv := by
  refine inv_stack h (fun i => ?_) ⟨trivial,fun _ _ _ hg => nomatch hg⟩ (fun _ i _ _ hg => ?_)
    (fun i _ _ hg => ?_) (fun i hi => ?_) (fun hl g hg => ?_)
  · simp [hstack,hne]
  · rw [hstack] at hg
    simp [GoesOn,top] at hg
  · rw [hstack] at hg
    cases hg
  · exact hresume i (List.mem_singleton.mp hi).symm
  · rw [List.mem_singleton.mp hg]
    exact .inl (hout hl)

theorem inv_resumePosted (h : w.Inv) (hstack : w.stack = []) {i : ℕ}
    (hready : (w.fetches i).coro = .ready) :
    ({ w.set i { w.fetches i with coro := .running } with
      inLoop := true, stack := [.resume i] } : World).Inv := by
  have hfin : (w.fetches i).made = true → (w.fetches i).finished = true := fun hm =>
    Bool.of_not_eq_false fun hf => by
      rcases h.waiting i hm hf with hw | hadded
      · rw [hready] at hw
        cases hw
      · rw [hstack] at hadded
        cases hadded
  have hset := inv_set h ((h.fetches i).withCoro (c := .running) (by decide))
    (fun hm => ⟨rfl,fun hf => absurd (hfin hm) (Bool.eq_false_iff.mp hf)⟩) rfl rfl rfl (nomatch ·)
  refine inv_begin hset hstack (by simp) (fun j hj hm => ?_) (nomatch ·)
  cases hj
  rw [set_self] at hm ⊢
  exact hfin hm

/-- `async_fetch` begins: the record of the fetch changes and the table is as before, but for an
entry of this fetch, which is live. -/
theorem inv_starting (h : w.Inv) (hstack : w.stack = []) {i : ℕ} (hi : i < w.count)
    (hnot : (w.fetches i).made = false) {t : Fetch} (ht : t.Ok)
    (hdel : t.deletes = t.finished.toNat) {table : UInt64 → Option ℕ}
    (htable : ∀ id j, table id = some j → w.fetchTransfers id = some j ∨
      (j = i ∧ t.id = id ∧ t.made = true ∧ t.finished = false))
    {k : List Frame} (hk : k = [.messages i,.added i] ∧ t.finished = false ∨
      k = [.resume i] ∧ t.made = t.finished) :
    ({ w.set i t with fetchTransfers := table, stack := k, inLoop := true } : World).Inv := by
  have hnone : ∀ {f j}, f.target = some j → j ≠ i → f ∉ k := by
    intro f j hj hji hf
    rcases hk with ⟨rfl,-⟩ | ⟨rfl,-⟩
    · simp only [List.mem_cons,List.not_mem_nil,or_false] at hf
      rcases hf with rfl | rfl <;> exact Frame.ne_of_target rfl hj hji rfl
    · exact Frame.ne_of_target rfl hj hji (List.mem_singleton.mp hf).symm
  refine inv_change h ht (fun _ => hi) ?_ ?_ (fun id hid => ?_) (fun hm hf => ?_) (fun hg hm => ?_)
    (fun id j hji hj => ?_) (fun f j hj hji => ?_) (nomatch ·)
  · rcases hk with ⟨rfl,-⟩ | ⟨rfl,-⟩ <;> simpa using hdel
  · rcases hk with ⟨rfl,-⟩ | ⟨rfl,-⟩
    · exact ⟨⟨trivial,fun _ _ _ hg => nomatch hg⟩,fun _ hj _ hg => by
        rw [← hj,List.mem_singleton.mp hg]
        rfl⟩
    · exact ⟨trivial,fun _ _ _ hg => nomatch hg⟩
  · rcases htable id i hid with hold | ⟨-,hid,hm,hf⟩
    · rw [(h.entries id i hold).2.1] at hnot
      cases hnot
    · exact ⟨hid,hm,fun hf' => absurd hf' (Bool.eq_false_iff.mp hf)⟩
  · rcases hk with ⟨rfl,-⟩ | ⟨-,hsame⟩
    · exact .inr (List.mem_cons_of_mem _ (List.mem_cons_self ..))
    · rw [hsame,hf] at hm
      cases hm
  · rcases hk with ⟨rfl,-⟩ | ⟨-,hsame⟩
    · simp at hg
    · rw [← hsame,hm]
  · exact (htable id j hj).resolve_right fun hself => hji hself.1
  · rw [hstack,List.count_eq_zero_of_not_mem (hnone hj hji)]
    exact ⟨rfl,fun hg => nomatch hg⟩

theorem failed_start {i : ℕ} (hf : (w.fetches i).finished = false)
    (hcoro : (w.fetches i).coro = .running) (hdel : (w.fetches i).deletes = 0) :
    (w.finish i).delete i = w.set i { (w.fetches i).finish with deletes := 1 } := by
  have hfinish : w.finish i = w.set i (w.fetches i).finish := by
    simp [finish,use_of_deletes hdel,hf,hcoro]
  have hdel' : (w.fetches i).finish.deletes = 0 := hdel
  rw [hfinish,World.delete,use_of_deletes (by rw [set_self,hdel']),set_self,hdel']
  simp [World.set]

theorem inv_asyncFetch (h : w.Inv) (hstack : w.stack = []) {i : ℕ}
    (hposted : (w.fetches i).coro = .posted) (client easy added : Bool) :
    (w.asyncFetch i client easy added).Inv := by
  have hok := h.fetches i
  have hnot := hok.posted hposted
  have hf : (w.fetches i).finished = false := Bool.eq_false_iff.mpr fun hf => by
    rw [hok.made hf] at hnot
    cases hnot
  have hdel := h.not_deleted (.inl hf)
  have hcompletes : (w.fetches i).completes = 0 := by rw [hok.completes,hf]; rfl
  have hvalue : (w.fetches i).value = false := by rw [hok.value,hf]
  have hmulti : (w.fetches i).inMulti = false := Bool.eq_false_iff.mpr fun hm => by
    rw [(hok.priv (hok.inMulti hm)).1] at hnot
    cases hnot
  have hi := h.there i (.inr hposted)
  cases client with
  | false =>
    have hw : w.asyncFetch i false easy added =
        { w.set i { w.fetches i with coro := .running } with
          stack := [.resume i], inLoop := true } := by
      simp [asyncFetch,push,set,hstack]
    rw [hw]
    refine inv_starting h hstack hi hnot (hok.withCoro (c := .running) (by decide)) ?_
      (fun _ _ => .inl) (.inr ⟨rfl,hnot.trans hf.symm⟩)
    change (w.fetches i).deletes = (w.fetches i).finished.toNat
    rw [hdel,hf]
    rfl
  | true =>
    cases hadd : easy && added with
    | true =>
      obtain ⟨rfl,rfl⟩ : easy = true ∧ added = true := by simpa using hadd
      let t : Fetch := { w.fetches i with
        coro := .running, made := true, complete := true, easy := true, priv := true,
        inMulti := true }
      let table := if (w.fetches i).id = 0 then w.fetchTransfers
        else Function.update w.fetchTransfers (w.fetches i).id (some i)
      have hw : w.asyncFetch i true true true = { w.set i t with
          fetchTransfers := table, stack := [.messages i,.added i], inLoop := true } := by
        by_cases hid : (w.fetches i).id = 0 <;>
          simp [asyncFetch,push,set,hstack,hid,t,table]
      have ht : t.Ok := by
        refine ⟨?_,hok.completes,hok.value,fun _ => rfl,fun _ => ⟨rfl,hf,rfl⟩,fun _ => rfl,
          (nomatch ·)⟩
        simp [t,hf]
      rw [hw]
      refine inv_starting h hstack hi hnot ht (by simp [t,hdel,hf]) (fun id j hj => ?_)
        (.inl ⟨rfl,hf⟩)
      simp only [table] at hj
      split at hj
      · exact .inl hj
      · by_cases hid : id = (w.fetches i).id
        · rw [hid,Function.update_self] at hj
          exact .inr ⟨(Option.some.inj hj).symm,hid.symm,rfl,hf⟩
        · rw [Function.update_of_ne hid] at hj
          exact .inl hj
    | false =>
      let t : Fetch := { w.fetches i with
        coro := .running, made := true, complete := true, easy := easy, priv := easy }
      let table := if (w.fetches i).id = 0 then w.fetchTransfers
        else Function.update w.fetchTransfers (w.fetches i).id none
      have hw : w.asyncFetch i true easy added = { w.set i { t.finish with deletes := 1 } with
          fetchTransfers := table, stack := [.resume i], inLoop := true } := by
        let v : World := { w.set i t with
          fetchTransfers := table, stack := [.resume i], inLoop := true }
        have hv : v.fetches i = t := Function.update_self ..
        have hstart : w.asyncFetch i true easy added = (v.finish i).delete i := by
          by_cases hid : (w.fetches i).id = 0 <;>
            simp [asyncFetch,push,set,erase,hadd,hstack,hid,t,table,v]
        rw [hstart,failed_start (by rw [hv]; exact hf) (by rw [hv]) (by rw [hv]; exact hdel),hv]
        simp [set,v]
      have ht : ({ t.finish with deletes := 1 } : Fetch).Ok := by
        refine ⟨?_,?_,?_,fun _ => rfl,?_,?_,(nomatch ·)⟩
        · simp [t,Fetch.finish]
        · simp [t,Fetch.finish,hcompletes]
        · simp [t,Fetch.finish]
        · simp [t,Fetch.finish]
        · simp [t,Fetch.finish,hmulti]
      rw [hw]
      refine inv_starting h hstack hi hnot ht rfl (fun id j hj => ?_) (.inr ⟨rfl,rfl⟩)
      simp only [table] at hj
      split at hj
      · exact .inl hj
      · by_cases hid : id = (w.fetches i).id
        · simp [hid] at hj
        · rw [Function.update_of_ne hid] at hj
          exact .inl hj

theorem inv_step {w : World} (a : Action) (w' : World) (h : w.Inv) (hs : step w a = some w') :
    w'.Inv := by
  cases a with
  | handler | eval =>
    simp only [step,Option.ite_none_right_eq_some,Option.some.injEq] at hs
    obtain ⟨hstack,rfl⟩ := hs
    exact inv_begin h hstack (by simp) (by simp) fun _ => rfl
  | start i client easy added =>
    simp only [step,Option.ite_none_right_eq_some,Option.some.injEq] at hs
    obtain ⟨⟨hstack,hposted⟩,rfl⟩ := hs
    exact inv_asyncFetch h hstack hposted client easy added
  | socketAction i =>
    simp only [step,Option.ite_none_right_eq_some,Option.some.injEq] at hs
    obtain ⟨hstack,rfl⟩ := hs
    exact inv_begin h hstack (by simp) (by simp) (nomatch ·)
  | resumePosted i =>
    simp only [step,Option.ite_none_right_eq_some,Option.some.injEq] at hs
    obtain ⟨⟨hstack,hready⟩,rfl⟩ := hs
    exact inv_resumePosted h hstack hready
  | fetch =>
    simp only [step,Option.ite_none_right_eq_some,Option.some.injEq] at hs
    obtain ⟨-,rfl⟩ := hs
    have hspawn := inv_spawn h w.nextFetchId
    exact ⟨hspawn.fetches,hspawn.there,hspawn.balance,hspawn.aligned,hspawn.entries,hspawn.waiting,
      hspawn.resume,hspawn.outside,hspawn.clean⟩
  | asyncFetch =>
    simp only [step,Option.ite_none_right_eq_some,Option.some.injEq] at hs
    obtain ⟨-,rfl⟩ := hs
    exact inv_spawn h 0
  | abort z =>
    simp only [step,Option.ite_none_right_eq_some,Option.some.injEq] at hs
    obtain ⟨hhead,rfl⟩ := hs
    exact inv_nativeFetchAbort h (top_of_head hhead) z
  | ret =>
    simp only [step] at hs
    split at hs
    · next k hstack =>
      obtain rfl := Option.some.inj hs
      exact inv_ret h hstack
    · cases hs
  | message i =>
    simp only [step,Option.ite_none_right_eq_some,Option.some.injEq] at hs
    obtain ⟨-,rfl⟩ := hs
    exact inv_set h ((h.fetches i).withCounts _ (w.fetches i).deletes)
      (fun _ => ⟨rfl,fun _ => id⟩) rfl rfl rfl fun hp => h.there i (.inr hp)
  | callback i =>
    simp only [step,Option.ite_none_right_eq_some,Option.some.injEq] at hs
    obtain ⟨hmulti,rfl⟩ := hs
    have hok := h.fetches i
    rw [h.use (.inl (hok.priv (hok.inMulti hmulti)).2.1)]
    exact h
  | advance => exact inv_advance h hs

end World

open World

/-- Over every run, each transfer completes and is deleted at most once and no pointer is followed
after its `delete`; between handlers the table holds live transfers only. -/
theorem transfers_live {w : World} {as : List Action} (h : Trace.run step start as = some w) :
    (∀ i, (w.fetches i).completes ≤ 1 ∧ (w.fetches i).deletes ≤ 1) ∧ w.usedAfterDelete = false ∧
    (w.stack = [] → ∀ id i, w.fetchTransfers id = some i →
      (w.fetches i).made = true ∧ (w.fetches i).finished = false ∧ (w.fetches i).deletes = 0) := by
  have hinv : w.Inv := Trace.run_keeps (fun _ a t hi hs => inv_step a t hi hs) inv_start h
  refine ⟨fun i => ⟨?_,?_⟩,hinv.clean,fun hstack id i hi => ?_⟩
  · rw [(hinv.fetches i).completes]
    exact Bool.toNat_le _
  · have hbalance := hinv.balance i
    have hle := Bool.toNat_le (w.fetches i).finished
    omega
  · obtain ⟨hmade,hf⟩ := hinv.live (by rw [hstack]; rfl) hi
    exact ⟨hmade,hf,hinv.not_deleted (.inl hf)⟩

/-- Fetches 1 and 2 wait. The completion of fetch 0, which comes inside of `add_transfer`, aborts
fetch 1; the completion of fetch 1 tries the ids of both again. Fetch 2 goes on. -/
def nested : List Action :=
  [.handler,.fetch,.fetch,.fetch,.ret,
    .start 1 true true true,.advance,.advance,.start 2 true true true,.advance,.advance,
    .start 0 true true true,.message 0,.advance,.advance,.advance,.advance,.advance,
    .abort 2,.advance,.abort 1,.abort 2,.ret,.advance,.ret]

theorem transfers_live_sample :
    ∃ w, Trace.run step start nested = some w ∧
      (∀ i, (w.fetches i).completes ≤ 1 ∧ (w.fetches i).deletes ≤ 1) ∧ w.usedAfterDelete = false ∧
      (∀ id i, w.fetchTransfers id = some i →
        (w.fetches i).made = true ∧ (w.fetches i).finished = false ∧ (w.fetches i).deletes = 0) ∧
      (w.fetches 0).deletes = 1 ∧ (w.fetches 1).deletes = 1 ∧ w.fetchTransfers 3 = some 2 := by
  have hends : (Trace.run step start nested).any (fun w => decide (w.stack = [] ∧
      (w.fetches 0).deletes = 1 ∧ (w.fetches 1).deletes = 1 ∧ w.fetchTransfers 3 = some 2)) := by
    decide +kernel
  obtain ⟨w,hw,hend⟩ := (Option.any_eq_true _ _).mp hends
  obtain ⟨hstack,hdeletes⟩ := of_decide_eq_true hend
  obtain ⟨hcounts,hclean,htable⟩ := transfers_live hw
  exact ⟨w,hw,hcounts,hclean,htable hstack,hdeletes⟩

end Transfers
end AsioQuickjs
