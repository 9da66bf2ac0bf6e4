import AsioQuickjs.Bytes
import AsioQuickjs.Trace

/-! How `Host` sends the responses of its HTTP handlers: the request callback of
`start_http_server`, the callbacks it attaches to a handler's promise, and the
functions that turn plain objects into responses. -/
namespace AsioQuickjs
namespace HttpHost

structure HttpResponse where
  status : ℤ := 200
  statusText : Bytes := []
  headers : Table Bytes Bytes := ∅
  body : Bytes := []
  deriving DecidableEq

/-- A plain object as the accessors of the host read it: a field is `none` where it
does not convert. -/
structure Data where
  status : Option ℤ := none
  statusText : Option Bytes := none
  body : Option Bytes := none
  headers : List (Bytes × Bytes) := []
  deriving DecidableEq

namespace Data

/-- The response of `send_http_response_native`, with all headers of the object. -/
def response (d : Data) : HttpResponse where
  status := d.status.getD 200
  statusText := d.statusText.getD []
  headers := d.headers.foldl (fun t h => t.insert h.1 h.2) ∅
  body := d.body.getD []

/-- The response of `send_js_response`, with the headers it looks for. -/
def jsResponse (d : Data) : HttpResponse where
  status := d.status.getD 200
  statusText := d.statusText.getD []
  headers := [ascii "content-type",ascii "x-test"].foldl (fun t k =>
    match d.headers.lookup k with
    | some v => t.insert k v
    | none => t) ∅
  body := d.body.getD []

def ofError (msg : Bytes) : Data where
  status := some 500
  statusText := some (ascii "Internal Server Error")
  headers := [(ascii "content-type",ascii "text/plain")]
  body := some msg

end Data

def internalError : HttpResponse := { status := 500, body := ascii "Internal Error" }

def handlerError : HttpResponse where
  status := 500
  headers := (∅ : Table Bytes Bytes).insert (ascii "content-type") (ascii "text/plain")
  body := ascii "Handler Error"

/-- What a session is told to write: a response, or the head of a chunked one. -/
inductive Reply
  | response (resp : HttpResponse)
  | chunked (status : ℤ) (contentType : Bytes)
  deriving DecidableEq

variable {S : Type}

/-- `httpConnIdTmp` and `httpSessionPtr` are properties of the script's global object. -/
structure Host (S : Type) where
  nextConnId : ℕ := 1
  httpConnections : Table ℕ S := ∅
  httpConnIdTmp : Option ℤ := none
  httpSessionPtr : Option S := none
  /-- Every reply given to a session, in order. -/
  sent : List (S × Reply) := []

/-- How the evaluation of a request's source text ends. -/
inductive Outcome
  | evalThrows
  | attachThrows
  | promise
  | notPromise (data : Data)
  deriving DecidableEq

/-- How a handler's promise settles. A rejection has no text where `String` throws on what
it was rejected with. -/
inductive Settlement
  | fulfilled (data : Data)
  | streamHandled
  | rejected (msg : Option Bytes)
  deriving DecidableEq

/-- What the callbacks attached to a handler's promise pass to `__nativeSendHttpResponse`:
nothing for a handled stream, and where `String` throws. -/
def Settlement.data : Settlement → Option Data
  | .streamHandled => none
  | .fulfilled data => some data
  | .rejected msg => msg.map .ofError

namespace Host

def sendResponse (h : Host S) (session : S) (resp : HttpResponse) : Host S :=
  { h with sent := h.sent++[(session,.response resp)] }

def sendJsResponse (h : Host S) (connId : ℕ) (response : Data) : Host S :=
  match h.httpConnections.lookup connId with
  | none => h
  | some session =>
    { h with httpConnections := h.httpConnections.erase connId }.sendResponse session
      response.jsResponse

def sendHttpResponseNative (h : Host S) (data : Data) (connId : ℤ) : Host S :=
  match h.httpConnections.lookup (uint64OfInt32 connId) with
  | none => h
  | some session =>
    { h with httpConnections := h.httpConnections.erase (uint64OfInt32 connId) }.sendResponse
      session data.response

/-- The request callback of `start_http_server`. -/
def onRequest (h : Host S) (session : S) (outcome : Outcome) : Host S :=
  let connId := h.nextConnId
  let h := { h with
    nextConnId := connId+1
    httpConnections := h.httpConnections.insert connId session
    httpSessionPtr := some session }
  match outcome with
  | .evalThrows =>
    { h.sendResponse session internalError with
      httpConnections := h.httpConnections.erase connId }
  | .attachThrows =>
    { h.sendResponse session handlerError with
      httpConnIdTmp := some (int32OfUInt64 connId)
      httpConnections := h.httpConnections.erase connId }
  | .promise => { h with httpConnIdTmp := some (int32OfUInt64 connId) }
  | .notPromise data => h.sendJsResponse connId data

/-- The callbacks attached to a handler's promise. Both read the connection id from
the global object when they run; a missing property converts to 0. -/
def onSettled (h : Host S) (result : Settlement) : Host S :=
  match result.data with
  | none => h
  | some data => h.sendHttpResponseNative data (h.httpConnIdTmp.getD 0)

/-- The start of `native_stream`, which takes the session from the global object. -/
def nativeStream (h : Host S) (contentType : Option Bytes) : Host S :=
  match h.httpSessionPtr with
  | none => h
  | some session =>
    { h with sent := h.sent++[(session,.chunked 200 (contentType.getD (ascii "text/plain")))] }

end Host

/-- The host, and the handlers that run in it: the session of each request whose
handler has not settled yet, the request whose promise was attached last, and the
replies that the handlers have produced, each with the session it belongs to. -/
structure Sys (S : Type) extends Host S where
  handlers : Table ℕ S := ∅
  attached : Option ℕ := none
  expected : List (S × Reply) := []

/-- A request arrives, a running handler calls `stream`, or its promise settles. -/
inductive Action (S : Type)
  | request (session : S) (outcome : Outcome)
  | stream (connId : ℕ) (contentType : Option Bytes)
  | settle (connId : ℕ) (result : Settlement)

def Outcome.reply : Outcome → Option HttpResponse
  | .evalThrows => some internalError
  | .attachThrows => some handlerError
  | .promise => none
  | .notPromise data => some data.jsResponse

/-- What is due when a handler settles: a rejection without a text is due the text that the
callback starts from. -/
def Settlement.reply : Settlement → Option HttpResponse
  | .streamHandled => none
  | .fulfilled data => some data.response
  | .rejected msg => some (Data.ofError (msg.getD (ascii "Internal Server Error"))).response

def due (session : S) (reply : Option HttpResponse) : List (S × Reply) :=
  (reply.map fun r => (session,Reply.response r)).toList

def step (s : Sys S) : Action S → Option (Sys S)
  | .request session outcome => some
    { s with
      toHost := s.toHost.onRequest session outcome
      handlers := if outcome = .promise then s.handlers.insert s.nextConnId session
        else s.handlers
      attached := if outcome = .promise ∨ outcome = .attachThrows then some s.nextConnId
        else s.attached
      expected := s.expected++due session outcome.reply }
  | .stream connId contentType => (s.handlers.lookup connId).map fun session =>
    { s with
      toHost := s.toHost.nativeStream contentType
      expected := s.expected++[(session,.chunked 200 (contentType.getD (ascii "text/plain")))] }
  | .settle connId result => (s.handlers.lookup connId).map fun session =>
    { s with
      toHost := s.toHost.onSettled result
      handlers := s.handlers.erase connId
      expected := s.expected++due session result.reply }

/-- The request attached last still waits for a response, on this session. -/
def Awaits (s : Sys S) (session : Option S) : Prop :=
  s.attached.bind (s.httpConnections.lookup ·) = session

/-- A handler produces its reply while the request attached last still waits on the
same session, and streams while the last request is of the same session; and what it
rejects with converts to a text. -/
def Undisturbed (s : Sys S) : Action S → Prop
  | .request _ _ => True
  | .stream connId _ => s.httpSessionPtr = s.handlers.lookup connId
  | .settle _ .streamHandled => True
  | .settle _ (.rejected none) => False
  | .settle connId _ => Awaits s (s.handlers.lookup connId)

end HttpHost
end AsioQuickjs
