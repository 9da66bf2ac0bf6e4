import AsioQuickjs.Bytes

/-! `HttpSession` of `src/net/http_server.cpp`: the parser callbacks, the read
loop and the hand-over to the request handler. The parser itself is a parameter. -/
namespace AsioQuickjs
namespace HttpSession

structure HttpRequest where
  method : Bytes := []
  path : Bytes := []
  query : Bytes := []
  headers : Table Bytes Bytes := ∅
  body : Bytes := []
  url : Bytes := []
  deriving DecidableEq

/-- A callback of `llhttp_execute`, with the parser fields the callee reads. -/
inductive Callback
  | messageBegin
  | url (at_ method : Bytes)
  | headerField (at_ : Bytes)
  | headerValue (at_ : Bytes)
  | headersComplete (httpMajor httpMinor : ℕ)
  | body (at_ : Bytes)
  | messageComplete
  deriving DecidableEq

/-- The members of a session that the callbacks write. -/
structure Assembly where
  currentReq : HttpRequest := {}
  currentHeaderName : Bytes := []
  currentHeaderValue : Bytes := []
  headersComplete : Bool := false
  messageComplete : Bool := false
  closeAfterResponse : Bool := true
  deriving DecidableEq

def questionMark : UInt8 := 63

namespace Assembly

def onMessageBegin (s : Assembly) : Assembly :=
  { s with
    currentReq := {}, currentHeaderName := [], currentHeaderValue := []
    headersComplete := false, messageComplete := false }

/-- `path` and `query` are cut from the span of this call alone. -/
def onUrl (s : Assembly) (span method : Bytes) : Assembly :=
  let qpos := span.idxOf questionMark
  { s with currentReq := { s.currentReq with
      url := s.currentReq.url++span
      path := if qpos < span.length then span.take qpos else span
      query := if qpos < span.length then span.drop (qpos+1) else []
      method := method } }

/-- Stores the finished header, and appends to the name without clearing it. -/
def onHeaderField (s : Assembly) (span : Bytes) : Assembly :=
  let s := if s.currentHeaderValue ≠ [] ∧ s.currentHeaderName ≠ [] then
      { s with
        currentReq := { s.currentReq with
          headers := s.currentReq.headers.insert (lower s.currentHeaderName) s.currentHeaderValue }
        currentHeaderValue := [] }
    else s
  { s with currentHeaderName := s.currentHeaderName++span }

def onHeaderValue (s : Assembly) (span : Bytes) : Assembly :=
  { s with currentHeaderValue := s.currentHeaderValue++span }

def onHeadersComplete (s : Assembly) (httpMajor httpMinor : ℕ) : Assembly :=
  let s := if s.currentHeaderName ≠ [] then
      { s with
        currentReq := { s.currentReq with
          headers := s.currentReq.headers.insert (lower s.currentHeaderName) s.currentHeaderValue }
        currentHeaderName := []
        currentHeaderValue := [] }
    else s
  { s with
    headersComplete := true
    closeAfterResponse := match s.currentReq.headers.lookup (ascii "connection") with
      | some val => lower val == ascii "close"
      | none => httpMajor == 1 && httpMinor == 0 }

def onBody (s : Assembly) (span : Bytes) : Assembly :=
  { s with currentReq := { s.currentReq with body := s.currentReq.body++span } }

def onMessageComplete (s : Assembly) : Assembly := { s with messageComplete := true }

def apply (s : Assembly) : Callback → Assembly
  | .messageBegin => s.onMessageBegin
  | .url span method => s.onUrl span method
  | .headerField span => s.onHeaderField span
  | .headerValue span => s.onHeaderValue span
  | .headersComplete major minor => s.onHeadersComplete major minor
  | .body span => s.onBody span
  | .messageComplete => s.onMessageComplete

def applyAll (s : Assembly) (cs : List Callback) : Assembly := cs.foldl apply s

@[simp] theorem applyAll_nil (s : Assembly) : s.applyAll [] = s := rfl
@[simp] theorem applyAll_cons (s : Assembly) (c : Callback) (cs : List Callback) :
    s.applyAll (c::cs) = (s.apply c).applyAll cs := rfl
@[simp] theorem applyAll_append (s : Assembly) (cs ds : List Callback) :
    s.applyAll (cs++ds) = (s.applyAll cs).applyAll ds := List.foldl_append ..

end Assembly

/-- The part of llhttp that the session uses. `execute` consumes bytes and answers
the callbacks it makes and whether it returned `HPE_OK`. -/
structure Llhttp where
  State : Type
  init : State
  execute : State → Bytes → List Callback × Bool × State

structure Session (P : Llhttp) extends Assembly where
  parser : P.State := P.init
  buffer : Bytes := []
  /-- Every byte passed to `llhttp_execute`, in order. -/
  fed : Bytes := []
  /-- The requests passed to `handler_`, in order. -/
  handled : List HttpRequest := []

variable {P : Llhttp}

namespace Session

def readSize : ℕ := 4096

/-- The buffer growth at the head of `do_read`. -/
def doRead (s : Session P) : Session P :=
  { s with buffer := s.buffer++List.replicate readSize 0 }

/-- `async_read_some` writes the received bytes into the new tail of the buffer,
and the completion handler shrinks the buffer to what was received. -/
def received (s : Session P) (chunk : Bytes) : Session P :=
  let base := s.buffer.length-readSize
  let written := s.buffer.take base++chunk++s.buffer.drop (base+chunk.length)
  { s with buffer := written.take (base+chunk.length) }

def parseHttpData (s : Session P) : Session P :=
  if s.buffer = [] then s
  else
    let r := P.execute s.parser s.buffer
    { s with
      toAssembly := if r.2.1 then s.toAssembly.applyAll r.1
        else { s.toAssembly.applyAll r.1 with closeAfterResponse := true }
      parser := r.2.2
      fed := s.fed++s.buffer }

def handleRequest (s : Session P) : Session P :=
  { s with
    handled := s.handled++[s.currentReq]
    buffer := [], currentReq := {}, currentHeaderName := [], currentHeaderValue := []
    headersComplete := false, messageComplete := false, parser := P.init }

/-- The completion handler of a read that delivered `chunk`. -/
def onRead (s : Session P) (chunk : Bytes) : Session P :=
  let s := (s.received chunk).parseHttpData
  if s.messageComplete then s.handleRequest else s

/-- Successive reads, each issued by `do_read`. -/
def reads (s : Session P) (chunks : List Bytes) : Session P :=
  chunks.foldl (fun s chunk => s.doRead.onRead chunk) s

end Session

def accepted (P : Llhttp) : Session P := {}

def inOnePiece (P : Llhttp) (b : Bytes) : Session P :=
  let s := Session.parseHttpData { accepted P with buffer := b }
  if s.messageComplete then s.handleRequest else s

end HttpSession
end AsioQuickjs
