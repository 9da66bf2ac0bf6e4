import AsioQuickjs.HeaderLaws
import AsioQuickjs.BodyBytes

/-! The constructor of `src/js/request.js`. It runs on the request that it is given as input,
if any: a `Request` with a body is marked as used on the way, and its signal gets a listener. -/
namespace AsioQuickjs
namespace RequestJs

open Headers (isToken Guard)

/-- What is thrown: an error that the code makes, or whatever a conversion of a value of the
caller throws. -/
inductive Thrown
  | error (e : JsError)
  | value
  deriving DecidableEq

def typeError {α : Type} (message : JsString) : Except Thrown α := .error (.error (.typeError message))

/-- A value of a script. What is no string and neither `undefined` nor `null` is known by
its truth and by what `String` makes of it. -/
inductive JsValue
  | undefined
  | null
  | string (s : JsString)
  | other (truthy : Bool) (text : Except Thrown JsString)

namespace JsValue

/-- `String(v)`, and `v` as the key of a property. -/
def text : JsValue → Except Thrown JsString
  | .undefined => .ok (js "undefined")
  | .null => .ok (js "null")
  | .string s => .ok s
  | .other _ t => t

def truthy : JsValue → Bool
  | .undefined => false
  | .null => false
  | .string s => s ≠ []
  | .other t _ => t

/-- `v || w`. -/
def or (v w : JsValue) : JsValue := if v.truthy then v else w

def isUndefined : JsValue → Bool
  | .undefined => true
  | _ => false

/-- `v === s`. -/
def isText (v : JsValue) (s : String) : Bool :=
  match v with
  | .string t => t = js s
  | _ => false

end JsValue

/-- The properties that an object literal has from `Object.prototype`. All their values are
truthy. -/
def objectPrototype : List JsString :=
  [js "constructor",js "__defineGetter__",js "__defineSetter__",js "hasOwnProperty",
    js "__lookupGetter__",js "__lookupSetter__",js "isPrototypeOf",js "propertyIsEnumerable",
    js "toString",js "valueOf",js "__proto__",js "toLocaleString"]

/-- Whether `table[key]` is truthy, in an object literal whose own values all are. -/
def lookup (table : List JsString) (key : JsString) : Bool :=
  table.contains key || objectPrototype.contains key

/-- `toUpperCase` on a unit, where it gives ASCII characters: that of some others does too. -/
def upper (c : ℕ) : JsString :=
  if 97 ≤ c ∧ c ≤ 122 then [c-32]
  else match c with
    | 0x131 => js "I"
    | 0x17f => js "S"
    | 0xdf => js "SS"
    | 0xfb00 => js "FF"
    | 0xfb01 => js "FI"
    | 0xfb02 => js "FL"
    | 0xfb03 => js "FFI"
    | 0xfb04 => js "FFL"
    | 0xfb05 => js "ST"
    | 0xfb06 => js "ST"
    | c => [c]

def toUpperCase (s : JsString) : JsString := s.flatMap upper

def methodsWithoutBody : List JsString := [js "GET",js "HEAD"]

def normalized : List JsString :=
  [js "DELETE",js "GET",js "HEAD",js "OPTIONS",js "POST",js "PUT",js "PATCH"]

def forbidden : List JsString := [js "CONNECT",js "TRACE",js "TRACK"]

/-- `/^[!#$%&'*+\-.^_|~0-9A-Za-z]+$/`, with the backquote. -/
def isMethodToken (m : JsString) : Bool := m ≠ [] && m.all isToken

def normalizeMethod (method : JsValue) : Except Thrown JsString := do
  let m ← method.text
  if normalized.contains (toUpperCase m) then return toUpperCase m
  if !isMethodToken m then typeError (js "Invalid method")
  if forbidden.contains (toUpperCase m) then typeError (js "Invalid method")
  return m

/-- The body that is given. What its conversion throws, `toString` of `URLSearchParams`
included, is part of the value. -/
inductive Body
  | stream
  | string (s : JsString)
  | blob (data type : JsString)
  | params (text : Except Thrown JsString)
  | formData (multipart boundary : JsString)
  | arrayBuffer (b : Bytes)
  | view (v : BodyBytes.View)
  | other (text : Except Thrown JsString)

/-- What `_body` holds unless it is `null`. -/
inductive Content
  | text (s : JsString)
  | bytes (v : BodyBytes.View)

def Content.body : Content → Body
  | .text s => .string s
  | .bytes v => .view v

structure Extracted where
  bytes : Option Content := none
  contentType : Option JsString := none
  stream : Bool := false

def textPlain : JsString := js "text/plain;charset=UTF-8"

def extractBody : Body → Except Thrown Extracted
  | .stream => .ok { stream := true }
  | .string s => .ok { bytes := some (.text s), contentType := some textPlain }
  | .blob data type =>
    .ok { bytes := some (.text data), contentType := if type = [] then none else some type }
  | .params text => do
    return { bytes := some (.text (← text))
             contentType := some (js "application/x-www-form-urlencoded;charset=UTF-8") }
  | .formData multipart boundary =>
    .ok { bytes := some (.text multipart)
          contentType := some (js "multipart/form-data; boundary="++boundary) }
  | .arrayBuffer b => .ok { bytes := some (.bytes (.ofBuffer b)) }
  | .view v => .ok { bytes := some (.bytes v) }
  | .other text => do
    return { bytes := some (.text (← text)), contentType := some textPlain }

/-- An `AbortSignal`, with the number of its listeners. -/
structure Signal where
  aborted : Bool := false
  listeners : ℕ := 0
  deriving DecidableEq

/-- The property `signal` of `init`: `object` is one that is not aborted, and whether its
`addEventListener` can be called and returns. -/
inductive SignalArg
  | absent
  | nullish
  | notAnObject
  | aborted
  | ofInput
  | object (listens : Bool)

/-- The object behind the property `body`. -/
inductive BodyObject
  | given
  | placeholder
  deriving DecidableEq

structure Request where
  url : JsString
  method : JsString
  headers : Headers
  /-- `_body` -/
  content : Option Content
  body : Option BodyObject
  bodyUsed : Bool := false
  cache : JsValue
  credentials : JsValue
  integrity : JsValue
  keepalive : Bool
  mode : JsValue
  redirect : JsValue
  referrer : JsString
  referrerPolicy : JsValue
  signal : Signal := {}

/-- `body` is `none` for `undefined` and `some none` for `null`. -/
structure Init where
  window : JsValue := .undefined
  method : JsValue := .undefined
  mode : JsValue := .undefined
  cache : JsValue := .undefined
  referrer : JsValue := .undefined
  referrerPolicy : JsValue := .undefined
  credentials : JsValue := .undefined
  redirect : JsValue := .undefined
  integrity : JsValue := .undefined
  keepalive : JsValue := .undefined
  headers : HeaderList.Init := .undefined
  body : Option (Option Body) := none
  signal : SignalArg := .absent

/-- The first argument: a `Request`, an object with a string `href`, a string, any other value
but `null` and `undefined`, or one of these. -/
inductive Input
  | request
  | url (href : JsString)
  | string (s : JsString)
  | other (text : Except Thrown JsString)
  | nullish

/-- What the constructor starts from: a given request or an address. -/
structure Source where
  url : JsString
  method : JsString := js "GET"
  headersInit : HeaderList.Init := .undefined
  body : Option Body := none

def iterable (h : Headers) : HeaderList.Init :=
  .iterable (h.combined.map fun p => .items [p.1,p.2])

def source (inputRequest : Option Request) (input : Input) (init : Init) : Except Thrown Source :=
  match input, inputRequest with
  | .request, some r =>
    if r.bodyUsed ∧ init.body.isNone then typeError (js "Already read")
    else .ok { url := r.url, method := r.method, headersInit := iterable r.headers,
               body := r.content.map Content.body }
  | .url href, _ => .ok { url := href }
  | .string s, _ => .ok { url := s }
  | .other text, _ => text.map fun s => { url := s }
  | _, _ => typeError (js "Request input must be a string or Request")

def checkWindow (init : Init) : Except Thrown Unit :=
  match init.window with
  | .undefined => .ok ()
  | .null => .ok ()
  | _ => typeError (js "Request constructor: window is not null")

def checkMode (init : Init) (method : JsString) : Except Thrown Unit := do
  if init.mode.isText "navigate" then typeError (js "Invalid mode")
  if init.mode.isText "no-cors" && !lookup [js "GET",js "HEAD",js "POST"] method then
    typeError (js "Invalid method for no-cors")

def checkCache (init : Init) : Except Thrown Unit :=
  let modeForCache := if init.mode.isUndefined then .string (js "cors") else init.mode
  if init.cache.isText "only-if-cached" && !modeForCache.isText "same-origin" then
    typeError (js "Invalid cache mode combination")
  else .ok ()

def emptyHost (s : JsString) : Bool := (js "http://:").isPrefixOf s || (js "https://:").isPrefixOf s

def checkReferrer (init : Init) : Except Thrown Unit := do
  if !init.referrer.isUndefined && !init.referrer.isText "about:client" &&
      !init.referrer.isText "" then
    let ref ← init.referrer.text
    if emptyHost ref then typeError (js "Invalid referrer")

/-- One turn of the loop over `enums`. -/
def checkOption (prop : String) (table : List JsString) (value : JsValue) : Except Thrown Unit := do
  if !value.isUndefined then
    let key ← value.text
    if !lookup table key then typeError (js "Invalid "++js prop)

def referrerPolicies : List JsString :=
  [js "",js "no-referrer",js "no-referrer-when-downgrade",js "origin",
    js "origin-when-cross-origin",js "same-origin",js "strict-origin",
    js "strict-origin-when-cross-origin",js "unsafe-url"]

def modes : List JsString := [js "same-origin",js "no-cors",js "cors",js "navigate"]

def credentialModes : List JsString := [js "omit",js "same-origin",js "include"]

def cacheModes : List JsString :=
  [js "default",js "no-store",js "reload",js "no-cache",js "force-cache",js "only-if-cached"]

def redirects : List JsString := [js "follow",js "error",js "manual"]

def checkOptions (init : Init) : Except Thrown Unit := do
  checkOption "referrerPolicy" referrerPolicies init.referrerPolicy
  checkOption "mode" modes init.mode
  checkOption "credentials" credentialModes init.credentials
  checkOption "cache" cacheModes init.cache
  checkOption "redirect" redirects init.redirect

/-- `/^https?:\/\/[^/]*@/i`. -/
def hasCredentials (u : JsString) : Bool :=
  let l := Headers.toLowerCase u
  let rest := if (js "http://").isPrefixOf l then some (u.drop 7)
    else if (js "https://").isPrefixOf l then some (u.drop 8) else none
  (rest.getD []).takeWhile (· ≠ 47) |>.contains 64

def checkUrl : Input → Except Thrown Unit
  | .string u => do
    if emptyHost u then typeError (js "Invalid URL")
    if hasCredentials u then
      typeError (js "Request cannot be constructed from a URL that includes credentials")
  | _ => .ok ()

def ofJs {α : Type} : Except JsError α → Except Thrown α
  | .ok a => .ok a
  | .error e => .error (.error e)

def guardMode (inputRequest : Option Request) (init : Init) : JsValue :=
  (init.mode.or ((inputRequest.map (·.mode)).getD .undefined)).or (.string (js "cors"))

def requestHeaders (inputRequest : Option Request) (init : Init) (headersInit : HeaderList.Init) :
    Except Thrown Headers := do
  let headers ← ofJs (HeaderList.new headersInit)
  let guard := if (guardMode inputRequest init).isText "no-cors" then Guard.requestNoCors
    else .request
  return HeaderList.after (HeaderList.setGuard (some guard)) headers

structure Validated where
  url : JsString
  method : JsString
  headers : Headers
  body : Option Body

def validate (inputRequest : Option Request) (input : Input) (init : Init) :
    Except Thrown Validated := do
  let s ← source inputRequest input init
  checkWindow init
  let method ← normalizeMethod (if init.method.isUndefined then .string s.method else init.method)
  checkMode init method
  checkCache init
  checkReferrer init
  checkOptions init
  checkUrl input
  let headersInit := match init.headers with
    | .undefined => s.headersInit
    | given => given
  let headers ← requestHeaders inputRequest init headersInit
  let body := init.body.getD s.body
  if body.isSome && lookup methodsWithoutBody method then
    typeError (js "Request with "++method++js " method cannot have a body")
  return { url := s.url, method := method, headers := headers, body := body }

/-- A call runs on the request that is at hand, which is the input if the input is a request. -/
abbrev Construct := EStateM Thrown (Option Request)

def Input.request? : Input → Option Request → Option Request
  | .request, s => s
  | _, _ => none

def call {α : Type} : Except Thrown α → Construct α
  | .ok a => pure a
  | .error e => throw e

def Request.setBodyUsed (r : Request) : Request := { r with bodyUsed := true }

def Request.addListener (r : Request) : Request :=
  { r with signal := { r.signal with listeners := r.signal.listeners+1 } }

def disturb (inputRequest : Option Request) : Construct Unit :=
  if inputRequest.any (·.body.isSome) then modify (Option.map Request.setBodyUsed) else pure ()

/-- `_follow` on the signal of the input request. -/
def followInput (inputRequest : Option Request) : Construct Signal :=
  match inputRequest with
  | none => pure {}
  | some r =>
    if r.signal.aborted then pure { aborted := true }
    else do
      modify (Option.map Request.addListener)
      return {}

def createRequestSignal (init : Init) (inputRequest : Option Request) : Construct Signal :=
  match init.signal with
  | .absent => followInput inputRequest
  | .nullish => pure {}
  | .notAnObject => pure {}
  | .aborted => pure { aborted := true }
  | .ofInput => followInput inputRequest
  | .object true => pure {}
  | .object false => call (typeError (js "not a function"))

def extract : Option Body → Except Thrown Extracted
  | none => .ok {}
  | some b => extractBody b

def withContentType (headers : Headers) (contentType : Option JsString) : Except Thrown Headers :=
  match contentType with
  | none => .ok headers
  | some ct =>
    if headers.list.any (·.1 = js "content-type") then .ok headers
    else ofJs (headers.append (js "content-type") ct)

def referrerOf (inputRequest : Option Request) (init : Init) : Except Thrown JsString :=
  if init.referrer.isUndefined then .ok ((inputRequest.map (·.referrer)).getD (js "about:client"))
  else init.referrer.text

/-- `value || (inputRequest ? inputRequest.field : byDefault)`. -/
def inherit (inputRequest : Option Request) (value : JsValue) (field : Request → JsValue)
    (byDefault : String) : JsValue :=
  value.or ((inputRequest.map field).getD (.string (js byDefault)))

def build (inputRequest : Option Request) (init : Init) (v : Validated) (extracted : Extracted)
    (headers : Headers) (referrer : JsString) (signal : Signal) : Request where
  url := v.url
  method := v.method
  headers := headers
  content := extracted.bytes
  body := if extracted.stream then some .given else extracted.bytes.map fun _ => .placeholder
  cache := inherit inputRequest init.cache (·.cache) "default"
  credentials := inherit inputRequest init.credentials (·.credentials) "same-origin"
  integrity := inherit inputRequest init.integrity (·.integrity) ""
  keepalive := if init.keepalive.isUndefined then (inputRequest.map (·.keepalive)).getD false
    else init.keepalive.truthy
  mode := inherit inputRequest init.mode (·.mode) "cors"
  redirect := inherit inputRequest init.redirect (·.redirect) "follow"
  referrer := referrer
  referrerPolicy := inherit inputRequest init.referrerPolicy (·.referrerPolicy) ""
  signal := signal

/-- `new Request(input, init)`. -/
def construct (input : Input) (init : Init) : Construct Request := do
  let inputRequest := input.request? (← get)
  let v ← call (validate inputRequest input init)
  disturb inputRequest
  let extracted ← call (extract v.body)
  let headers ← call (withContentType v.headers extracted.contentType)
  let referrer ← call (referrerOf inputRequest init)
  let signal ← createRequestSignal init inputRequest
  return build inputRequest init v extracted headers referrer signal

/-- `clone`, of the request at hand. -/
def clone : Construct Request := do
  if (← get).any (·.bodyUsed) then call (typeError (js "Already read"))
  construct .request {}

def signalOf (init : Init) (inputRequest : Option Request) : Except Thrown Signal :=
  match init.signal with
  | .absent => .ok { aborted := inputRequest.any (·.signal.aborted) }
  | .nullish => .ok {}
  | .notAnObject => .ok {}
  | .aborted => .ok { aborted := true }
  | .ofInput => .ok { aborted := inputRequest.any (·.signal.aborted) }
  | .object true => .ok {}
  | .object false => typeError (js "not a function")

/-- Whether the constructor adds a listener to the signal of the input. -/
def listens (init : Init) (inputRequest : Option Request) : Bool :=
  match init.signal with
  | .absent => inputRequest.any (!·.signal.aborted)
  | .ofInput => inputRequest.any (!·.signal.aborted)
  | _ => false

def complete (inputRequest : Option Request) (init : Init) (v : Validated) :
    Except Thrown Request := do
  let extracted ← extract v.body
  let headers ← withContentType v.headers extracted.contentType
  let referrer ← referrerOf inputRequest init
  let signal ← signalOf init inputRequest
  return build inputRequest init v extracted headers referrer signal

section

variable {α β : Type} (s : Option Request)

theorem get_bind (k : Option Request → Construct α) : (get >>= k) s = k s s := rfl

theorem call_bind (y : Except Thrown α) (k : α → Construct β) :
    (call y >>= k) s = match y with
      | .ok a => k a s
      | .error e => .error e s := by
  cases y <;> rfl

theorem ok_bind (a : α) (k : α → Except Thrown β) : (Except.ok a >>= k) = k a := rfl

theorem error_bind (e : Thrown) (k : α → Except Thrown β) :
    (Except.error e >>= k) = Except.error e := rfl

def disturbed (inputRequest s : Option Request) : Option Request :=
  if inputRequest.any (·.body.isSome) then s.map Request.setBodyUsed else s

theorem disturb_bind (inputRequest : Option Request) (k : Unit → Construct α) :
    (disturb inputRequest >>= k) s = k () (disturbed inputRequest s) := by
  simp only [disturb,disturbed]
  split <;> rfl

theorem createRequestSignal_eq (init : Init) (inputRequest : Option Request) :
    createRequestSignal init inputRequest s = match signalOf init inputRequest with
      | .error e => .error e s
      | .ok signal =>
        .ok signal (if listens init inputRequest then s.map Request.addListener else s) := by
  have hinput : followInput inputRequest s =
      .ok { aborted := inputRequest.any (·.signal.aborted) }
        (if inputRequest.any (!·.signal.aborted) then s.map Request.addListener else s) := by
    cases inputRequest with
    | none => rfl
    | some r =>
      rw [followInput]
      by_cases ha : r.signal.aborted = true
      · rw [if_pos ha]
        simp only [Option.any_some,ha]
        rfl
      · rw [if_neg ha]
        simp only [Option.any_some,Bool.not_eq_true _ ▸ ha]
        rfl
  have hsplit (arg : SignalArg) (harg : init.signal = arg) : createRequestSignal init inputRequest s =
      match signalOf init inputRequest with
      | .error e => .error e s
      | .ok signal =>
        .ok signal (if listens init inputRequest then s.map Request.addListener else s) := by
    rw [createRequestSignal,signalOf,listens,harg]
    cases arg with
    | absent => exact hinput
    | ofInput => exact hinput
    | object t => cases t <;> rfl
    | _ => rfl
  exact hsplit _ rfl

/-- The constructor throws before it marks the input, or behind that, or adds its listener as
the last thing. -/
theorem construct_eq (input : Input) (init : Init) :
    construct input init s =
      match validate (input.request? s) input init with
      | .error e => .error e s
      | .ok v => match complete (input.request? s) init v with
        | .error e => .error e (disturbed (input.request? s) s)
        | .ok r => .ok r (if listens init (input.request? s) then
            (disturbed (input.request? s) s).map Request.addListener
            else disturbed (input.request? s) s) := by
  rw [construct,get_bind,call_bind]
  cases validate (input.request? s) input init with
  | error e => rfl
  | ok v =>
    simp only [disturb_bind,call_bind,complete]
    cases extract v.body with
    | error e => simp only [error_bind]
    | ok extracted =>
      simp only [ok_bind]
      cases withContentType v.headers extracted.contentType with
      | error e => simp only [error_bind]
      | ok headers =>
        simp only [ok_bind]
        cases referrerOf (input.request? s) init with
        | error e => simp only [error_bind]
        | ok referrer =>
          simp only [ok_bind]
          cases hsig : signalOf init (input.request? s) with
          | error e => simp only [bind,EStateM.bind,createRequestSignal_eq,hsig,Except.bind]
          | ok signal =>
            simp only [bind,EStateM.bind,createRequestSignal_eq,hsig,Except.bind]
            rfl

end

end RequestJs
end AsioQuickjs
