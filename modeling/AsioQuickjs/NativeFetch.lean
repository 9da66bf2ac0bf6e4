import AsioQuickjs.Bytes
import AsioQuickjs.Trace

/-! `__nativeFetch` and `__nativeFetchAbort` of `src/fetch.cpp` with the part of the
curl client under them that a transfer passes through. A fetch is named by its id. -/
namespace AsioQuickjs
namespace NativeFetch

/-- What the transfer reads of the options. -/
structure FetchOptions where
  url : Bytes
  failOnRedirect : Bool := false
  deriving DecidableEq

structure FetchResult where
  ok : Bool := false
  status : ℤ := 0
  statusText : Bytes := []
  body : Bytes := []
  url : Bytes := []
  error : Bytes := []
  headers : List (Bytes × Bytes) := []
  redirected : Bool := false
  aborted : Bool := false
  deriving DecidableEq

/-- What curl reports of a finished easy handle; `error` is `none` for `CURLE_OK`. -/
structure Report where
  error : Option Bytes := none
  effectiveUrl : Option Bytes := none
  responseCode : ℤ := 0
  redirectCount : ℕ := 0
  statusText : Bytes := []
  responseHeaders : List (Bytes × Bytes) := []
  body : Bytes := []
  deriving DecidableEq

/-- `Transfer::make_result`. -/
def makeResult (o : FetchOptions) (p : Report) : FetchResult :=
  let r : FetchResult :=
    { url := p.effectiveUrl.getD o.url, status := p.responseCode
      redirected := decide (0 < p.redirectCount), statusText := p.statusText
      headers := p.responseHeaders }
  match p.error with
  | none =>
    if o.failOnRedirect ∧ 300 ≤ p.responseCode ∧ p.responseCode < 400 then
      { r with error := ascii "redirect not allowed", body := p.body }
    else { r with ok := true, body := p.body }
  | some e => { r with error := e }

/-- The result of `Transfer::abort`. -/
def abortedResult (o : FetchOptions) : FetchResult :=
  { aborted := true, error := ascii "aborted", url := o.url }

def noClientResult (o : FetchOptions) : FetchResult :=
  { error := ascii "curl client not available", url := o.url }

/-- What `std::move` leaves behind, and `async_fetch` returns, where the transfer
could not be added. -/
def movedFromResult : FetchResult := {}

/-- How far the coroutine of a fetch has got: posted to the loop, its transfer in the
multi handle, its result there but itself still to be resumed, promise resolved. -/
inductive Stage
  | posted (o : FetchOptions)
  | inMulti (o : FetchOptions)
  | ready (r : FetchResult)
  | resolved (r : FetchResult)
  deriving DecidableEq

structure Host where
  nextFetchId : ℕ := 1
  pendingOps : ℕ := 0
  /-- From ids to the transfers of the fetches they name. -/
  fetchTransfers : Table ℕ ℕ := ∅
  fetches : Table ℕ Stage := ∅

/-- What becomes of a transfer when the coroutine's body first runs. -/
inductive Start
  | noClient
  | notAdded
  | added
  | doneAtOnce (p : Report)
  deriving DecidableEq

def Start.adds : Start → Bool
  | .noClient => false
  | .notAdded => false
  | .added => true
  | .doneAtOnce _ => true

namespace Host

def stage (h : Host) (id : ℕ) : Option Stage := h.fetches.lookup id

/-- `native_fetch_fn`; a missing url is thrown back before anything changes. -/
def nativeFetch (h : Host) (o : FetchOptions) : Host :=
  if o.url = [] then h
  else
    { h with
      nextFetchId := h.nextFetchId+1
      pendingOps := h.pendingOps+1
      fetches := h.fetches.insert h.nextFetchId (.posted o) }

/-- `native_fetch_coro` behind its `co_await`. -/
def deliver (h : Host) (id : ℕ) (r : FetchResult) : Host :=
  { h with
    fetchTransfers := h.fetchTransfers.erase id
    fetches := h.fetches.insert id (.resolved r)
    pendingOps := h.pendingOps-1 }

/-- The body of `async_fetch` up to its `co_await`, or to the end where it does not wait. -/
def startBody (h : Host) (id : ℕ) (o : FetchOptions) : Start → Host
  | .noClient => h.deliver id (noClientResult o)
  | .notAdded => h.deliver id movedFromResult
  | .added =>
    { h with
      fetchTransfers := h.fetchTransfers.insert id id
      fetches := h.fetches.insert id (.inMulti o) }
  | .doneAtOnce p => h.deliver id (makeResult o p)

/-- `Transfer::abort`: the coroutine is resumed through `asio::dispatch`, at once when
the caller runs inside the loop and by a later event otherwise. -/
def abortTransfer (h : Host) (id : ℕ) (o : FetchOptions) (inLoop : Bool) : Host :=
  if inLoop then h.deliver id (abortedResult o)
  else { h with fetches := h.fetches.insert id (.ready (abortedResult o)) }

/-- `native_fetch_abort_fn`. -/
def nativeFetchAbort (h : Host) (z : ℤ) (inLoop : Bool) : Host :=
  match h.fetchTransfers.lookup (uint64OfInt32 z) with
  | none => h
  | some tr =>
    let h := { h with fetchTransfers := h.fetchTransfers.erase (uint64OfInt32 z) }
    match h.stage tr with
    | some (.inMulti o) => h.abortTransfer tr o inLoop
    | _ => h

end Host

/-- A script starts a fetch or aborts one by the id it was given; the loop runs a
posted body, hears from curl that a transfer is done, or resumes a coroutine. -/
inductive Action
  | fetch (o : FetchOptions)
  | abort (id : ℕ) (inLoop : Bool)
  | body (id : ℕ) (o : Start)
  | done (id : ℕ) (p : Report)
  | resume (id : ℕ)
  deriving DecidableEq

def step (h : Host) : Action → Option Host
  | .fetch o => some (h.nativeFetch o)
  | .abort id inLoop =>
    if id < h.nextFetchId then some (h.nativeFetchAbort (int32OfUInt64 id) inLoop) else none
  | .body id o => match h.stage id with
    | some (.posted opts) => some (h.startBody id opts o)
    | _ => none
  | .done id p => match h.stage id with
    | some (.inMulti o) => some (h.deliver id (makeResult o p))
    | _ => none
  | .resume id => match h.stage id with
    | some (.ready r) => some (h.deliver id r)
    | _ => none

/-- The promise of this fetch has been handed out and not yet resolved. -/
def Unresolved (h : Host) (id : ℕ) : Prop :=
  ∃ st, h.stage id = some st ∧ ∀ r, st ≠ .resolved r

/-- An abort of the fetch is not lost: its transfer is not added later on, no result
but an aborted one is delivered, and such a one can always be delivered. -/
structure AbortKept (h : Host) (id : ℕ) (inLoop : Bool) : Prop where
  neverAdded : ∀ as t, Trace.run step h (.abort id inLoop::as) = some t →
    ∀ o : Start, o.adds = true → Action.body id o ∉ as
  onlyAborted : ∀ as t r, Trace.run step h (.abort id inLoop::as) = some t →
    t.stage id = some (.resolved r) → r.aborted = true
  delivered : ∀ as t, Trace.run step h (.abort id inLoop::as) = some t →
    ∃ bs u r, Trace.run step t bs = some u ∧ u.stage id = some (.resolved r)

/-- The posted body has run and its transfer is in the multi handle, under an id that
survives the passage through `int32_t`; or an abort was there before. -/
def Timely (h : Host) (id : ℕ) : Prop :=
  ((∃ o, h.stage id = some (.inMulti o)) ∧ uint64OfInt32 (int32OfUInt64 id) = id) ∨
    ∃ r, h.stage id = some (.ready r)

end NativeFetch
end AsioQuickjs
