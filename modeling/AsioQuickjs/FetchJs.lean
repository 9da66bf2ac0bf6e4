import AsioQuickjs.Headers
import AsioQuickjs.NativeFetch

/-! `src/js/fetch.js` from the point where the native fetch is under way, with the
`Response` constructor that its results pass through. -/
namespace AsioQuickjs

structure Response where
  status : ℤ
  statusText : JsString
  ok : Bool
  url : JsString
  redirected : Bool
  type : JsString
  headers : Headers
  /-- `_body`: `none` for `null`. -/
  body : Option Bytes
  deriving DecidableEq

namespace Response

structure Init where
  status : ℤ := 200
  statusText : JsString := []
  headers : Headers := {}
  url : JsString := []
  redirected : Bool := false
  type : JsString := js "default"

def isNullBodyStatus (status : ℤ) : Bool := status == 204 || status == 205 || status == 304

/-- The constructor for a body that is `null` or a byte array. -/
def new (body : Option Bytes) (init : Init) : Except JsError Response :=
  (Headers.ofHeaders init.headers).bind fun headers =>
    if init.status < 200 ∨ 599 < init.status then
      .error (.rangeError (js "Invalid status code"))
    else if init.statusText.any fun c => 0xff < c || c = 0x0a || c = 0x0d then
      .error (.typeError (js "Invalid statusText"))
    else if body ≠ none ∧ isNullBodyStatus init.status then
      .error (.typeError (js "Response with null body status cannot have body"))
    else .ok
      { status := init.status
        statusText := init.statusText
        ok := 200 ≤ init.status && init.status < 300
        url := init.url
        redirected := init.redirected
        type := init.type
        headers := { headers with guard := .response }
        body }

end Response

namespace Fetch

open NativeFetch (FetchResult)

/-- The object that `make_raw_result` builds for the script. -/
structure RawResult where
  ok : Bool
  status : ℤ
  statusText : JsString
  url : JsString
  body : Bytes
  redirected : Bool
  aborted : Bool
  error : Option JsString
  headers : List (JsString × JsString)

/-- `static_cast<int32_t>` of a `long`. -/
def int32OfLong (z : ℤ) : ℤ :=
  if z % 2^32 < 2^31 then z % 2^32 else z % 2^32-2^32

/-- `make_raw_result`; `newString` is how QuickJS reads the bytes of a new string. -/
def makeRawResult (newString : Bytes → JsString) (r : FetchResult) : RawResult where
  ok := r.ok
  status := int32OfLong r.status
  statusText := newString r.statusText
  url := newString r.url
  body := r.body
  redirected := r.redirected
  aborted := r.aborted
  error := if r.error ≠ [] then some (newString r.error) else none
  headers := r.headers.map fun h => (newString (cStr h.1),newString (cStr h.2))

/-- Pairs that `append` rejects are left out. -/
def pairsToHeaders (pairs : List (JsString × JsString)) : Headers :=
  pairs.foldl (fun h p => match h.append p.1 p.2 with
    | .ok t => t
    | .error _ => h) {}

def responseFromRaw (raw : RawResult) : Except JsError Response :=
  (Response.new (some raw.body)
    { status := raw.status
      statusText := raw.statusText
      headers := pairsToHeaders raw.headers
      url := raw.url
      redirected := raw.redirected
      type := js "basic" }).map fun res =>
    { res with headers := { res.headers with guard := .immutable } }

/-- Why a fetch is rejected. -/
inductive Reason
  | signalReason
  | abortError
  | error (e : JsError)
  deriving DecidableEq

/-- What the promise of a fetch is settled with. -/
inductive Settlement
  | resolved (res : Response)
  | rejected (reason : Reason)
  deriving DecidableEq

/-- The state of the promise executor. `settlements` are the calls of its `resolve`
and `reject`, in order. -/
structure State where
  signalAborted : Bool := false
  settled : Bool := false
  listening : Bool := true
  settlements : List Settlement := []
  deriving DecidableEq

namespace State

def settle (s : State) (x : Settlement) : State :=
  if s.settled then s
  else { s with settled := true, listening := false, settlements := s.settlements++[x] }

def abortCb (s : State) : State := s.settle (.rejected .signalReason)

def abort (s : State) : State :=
  if s.signalAborted then s
  else if s.listening then { s with signalAborted := true }.abortCb
  else { s with signalAborted := true }

/-- The callback for the native result. An exception in it rejects a promise that
nobody holds. -/
def onNative (s : State) (raw : RawResult) : State :=
  if s.signalAborted ∨ raw.aborted then
    s.settle (.rejected (if s.signalAborted then .signalReason else .abortError))
  else match raw.error with
    | some (c::cs) => s.settle (.rejected (.error (.typeError (c::cs))))
    | _ => match responseFromRaw raw with
      | .ok res => s.settle (.resolved res)
      | .error _ => s

def onNativeError (s : State) (e : JsError) : State := s.settle (.rejected (.error e))

end State

inductive Event
  | abort
  | native (raw : RawResult)
  | nativeError (e : JsError)

def step (s : State) : Event → State
  | .abort => s.abort
  | .native raw => s.onNative raw
  | .nativeError e => s.onNativeError e

def run (s : State) (es : List Event) : State := es.foldl step s

/-- The native result after `before` abort events and before `after` others. -/
def schedule (newString : Bytes → JsString) (r : FetchResult) (before after : ℕ) : List Event :=
  List.replicate before .abort++.native (makeRawResult newString r)::List.replicate after .abort

/-- What a settlement tells of a fetch. -/
inductive Answer
  | response (status : ℤ) (body : Option Bytes)
  | rejected
  deriving DecidableEq

def Settlement.answer : Settlement → Answer
  | .resolved res => .response res.status res.body
  | .rejected _ => .rejected

/-- A transfer that completed gives a response with its status and body, unless the
fetch was aborted first; any other rejects. -/
def expected (r : FetchResult) (before : ℕ) : Answer :=
  if r.ok ∧ ¬ r.aborted ∧ before = 0 then .response r.status (some r.body) else .rejected

/-- The result passes through the `Response` constructor, or never gets there. -/
def Settles (newString : Bytes → JsString) (r : FetchResult) (before : ℕ) : Prop :=
  0 < before ∨ r.aborted ∨ (¬ r.ok ∧ r.error ≠ []) ∨
    (r.ok ∧ r.error = [] ∧ 200 ≤ r.status ∧ r.status ≤ 599 ∧
      Response.isNullBodyStatus r.status = false ∧
      ∀ c ∈ newString r.statusText, c ≤ 0xff ∧ c ≠ 0x0a ∧ c ≠ 0x0d)

end Fetch
end AsioQuickjs
