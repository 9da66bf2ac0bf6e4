import AsioQuickjs.BodyOnce
import AsioQuickjs.FetchJs
import AsioQuickjs.JsText
import AsioQuickjs.RequestJs

/-! The class of `src/js/response.js`, with the buffers that its bodies are views of. A view
reads its buffer as it is at the time. -/
namespace AsioQuickjs
namespace ResponseJs

open BodyOnce (Consumer)
open RequestJs (Thrown JsValue BodyObject typeError ofJs withContentType textPlain)

/-- The array buffers of the script, by their numbers. -/
abbrev Heap := List Bytes

/-- A `Uint8Array`. -/
structure View where
  buffer : ℕ
  byteOffset : ℕ
  byteLength : ℕ
  deriving DecidableEq

def bufferAt (heap : Heap) (n : ℕ) : Bytes := heap.getD n []

def View.bytes (heap : Heap) (v : View) : Bytes :=
  ((bufferAt heap v.buffer).drop v.byteOffset).take v.byteLength

def View.InBounds (heap : Heap) (v : View) : Prop :=
  v.byteOffset+v.byteLength ≤ (bufferAt heap v.buffer).length

def alloc (heap : Heap) (b : Bytes) : View × Heap := (⟨heap.length,0,b.length⟩,heap++[b])

def stringToBytes (s : JsString) : Except Thrown Bytes :=
  match JsText.chars s with
  | none => .error .value
  | some cs => .ok (BodyBytes.stringToBytes cs)

def latin1ToBytes (s : JsString) : Bytes := s.map Nat.toUInt8

/-- The body that is given, a buffer by its number. -/
inductive Body
  | stream
  | string (s : JsString)
  | blob (data type : JsString)
  | params (text : Except Thrown JsString)
  | formData (multipart boundary : JsString)
  | arrayBuffer (n : ℕ)
  | view (v : View)
  | other (text : Except Thrown JsString)

structure Extracted where
  bytes : Option View := none
  contentType : Option JsString := none
  stream : Bool := false

def extractString (heap : Heap) (s contentType : JsString) : Except Thrown (Extracted × Heap) := do
  let (v,heap) := alloc heap (← stringToBytes s)
  return ({ bytes := some v, contentType := some contentType },heap)

def extractBody (heap : Heap) : Body → Except Thrown (Extracted × Heap)
  | .stream => .ok ({ stream := true },heap)
  | .string s => extractString heap s textPlain
  | .blob data type =>
    let (v,heap) := alloc heap (latin1ToBytes data)
    .ok ({ bytes := some v, contentType := if type = [] then none else some type },heap)
  | .params text => do
    extractString heap (← text) (js "application/x-www-form-urlencoded;charset=UTF-8")
  | .formData multipart boundary =>
    extractString heap multipart (js "multipart/form-data; boundary="++boundary)
  | .arrayBuffer n => .ok ({ bytes := some ⟨n,0,(bufferAt heap n).length⟩ },heap)
  | .view v => .ok ({ bytes := some v },heap)
  | .other text => do extractString heap (← text) textPlain

structure Response where
  status : ℤ
  statusText : JsString
  ok : Bool
  url : JsString
  redirected : Bool
  type : JsValue
  headers : Headers
  /-- `_body` -/
  content : Option View
  body : Option BodyObject
  bodyUsed : Bool := false
  /-- `_abortSignal`, by its number -/
  abortSignal : Option ℕ := none

/-- `status` is `none` for `undefined` and `some none` for what is converted to no integer. -/
structure Init where
  headers : HeaderList.Init := .undefined
  status : Option (Option ℤ) := none
  statusText : JsValue := .undefined
  url : JsValue := .undefined
  redirected : JsValue := .undefined
  type : JsValue := .undefined

/-- What the constructor has read of `init` before it comes to the body. -/
structure Head where
  headers : Headers
  status : ℤ
  statusText : JsString
  url : JsString

def checkStatus (status : Option (Option ℤ)) : Except Thrown ℤ :=
  match status.getD (some 200) with
  | none => .error (.error (.rangeError (js "Invalid status code")))
  | some s =>
    if s < 200 ∨ 599 < s then .error (.error (.rangeError (js "Invalid status code"))) else .ok s

def checkStatusText (statusText : JsValue) : Except Thrown JsString := do
  let s ← (if statusText.isUndefined then .ok [] else statusText.text : Except Thrown JsString)
  if s.any fun c => 0xff < c || c = 0x0a || c = 0x0d then typeError (js "Invalid statusText")
  return s

/-- `v == null ? '' : String(v)`. -/
def textOrEmpty (v : JsValue) : Except Thrown JsString :=
  match v with
  | .undefined => .ok []
  | .null => .ok []
  | v => v.text

def checkInit (init : Init) : Except Thrown Head := do
  let headers ← ofJs (HeaderList.new init.headers)
  let status ← checkStatus init.status
  let statusText ← checkStatusText init.statusText
  let url ← textOrEmpty init.url
  return { headers := { headers with guard := .response }, status := status,
           statusText := statusText, url := url }

def build (head : Head) (init : Init) (headers : Headers) (extracted : Extracted)
    (body : Option BodyObject) : Response where
  status := head.status
  statusText := head.statusText
  ok := 200 ≤ head.status && head.status < 300
  url := head.url
  redirected := init.redirected.truthy
  type := init.type.or (.string (js "default"))
  headers := headers
  content := extracted.bytes
  body := body

/-- `new Response(body, init)`; `none` is a body that is `undefined` or `null`. -/
def construct (body : Option Body) (init : Init) (heap : Heap) :
    Except Thrown (Response × Heap) := do
  let head ← checkInit init
  match body with
  | none => return (build head init head.headers {} none,heap)
  | some b =>
    if AsioQuickjs.Response.isNullBodyStatus head.status then
      typeError (js "Response with null body status cannot have body")
    let (extracted,heap) ← extractBody heap b
    let headers ← withContentType head.headers extracted.contentType
    let body := if extracted.stream then BodyObject.given else .placeholder
    return (build head init headers extracted (some body),heap)

def bool (b : Bool) : JsValue := .other b (.ok (js (if b then "true" else "false")))

/-- What `clone` hands on to the constructor. -/
def Response.init (r : Response) : Init where
  headers := RequestJs.iterable r.headers
  status := some (some r.status)
  statusText := .string r.statusText
  url := .string r.url
  redirected := bool r.redirected
  type := r.type

def Response.clone (r : Response) (heap : Heap) : Except Thrown (Response × Heap) := do
  if r.bodyUsed then typeError (js "Already read")
  let (c,heap) ← construct (r.content.map .view) r.init heap
  return ({ c with abortSignal := r.abortSignal },heap)

/-- `responseFromRaw` of `src/js/fetch.js`, for a request with this signal. The native side has
made the array of the body. -/
def responseFromRaw (raw : Fetch.RawResult) (signal : ℕ) (heap : Heap) :
    Except Thrown (Response × Heap) := do
  let (v,heap) := alloc heap raw.body
  let init : Init :=
    { status := some (some raw.status), statusText := .string raw.statusText,
      headers := RequestJs.iterable (Fetch.pairsToHeaders raw.headers), url := .string raw.url,
      redirected := bool raw.redirected, type := .string (js "basic") }
  let (r,heap) ← construct (some (.view v)) init heap
  return ({ r with headers := { r.headers with guard := .immutable }, abortSignal := some signal },
    heap)

/-- What a reader comes to: nothing, a value that is made from these bytes, or the view itself. -/
inductive Yield
  | nothing
  | value (b : Bytes)
  | view (v : View)

def Response.setBodyUsed (r : Response) : Response := { r with bodyUsed := true }

/-- `_consume`, with what follows it for a body that is not null. -/
def Response.consume (r : Response) (k : View → Yield) : Response × Yield :=
  if r.bodyUsed then (r,.nothing)
  else match r.content with
    | none => (r,.value [])
    | some v => (r.setBodyUsed,k v)

/-- The test for `application/x-www-form-urlencoded`. -/
def Response.isForm (r : Response) : Bool :=
  match r.headers.get (js "content-type") with
  | .ok (some v) =>
    decide (js "application/x-www-form-urlencoded" <:+: Headers.toLowerCase v)
  | _ => false

def Response.read (r : Response) (aborted : List ℕ) (heap : Heap) (m : Consumer) :
    Response × Yield :=
  if r.abortSignal.any aborted.contains then (r,.nothing)
  else match m with
    | .text | .arrayBuffer | .blob => r.consume fun v => .value (v.bytes heap)
    | .bytes => r.consume .view
    | .json => match r.content with
      | none => (r,.nothing)
      | some v => if r.bodyUsed then (r,.nothing) else (r.setBodyUsed,.value (v.bytes heap))
    | .formData => match r.content with
      | none => (r,if r.isForm then .value [] else .nothing)
      | some v =>
        if r.bodyUsed then (r,.nothing)
        else if r.isForm then (r.setBodyUsed,.value (v.bytes heap))
        else (r,.nothing)

end ResponseJs
end AsioQuickjs
