import AsioQuickjs.HttpSession

/-! A byte-at-a-time parser of well-formed requests with a `Content-Length` body.
It makes the callbacks that llhttp makes on them and serves to run the session. -/
namespace AsioQuickjs
namespace HttpSession

/-- Where the parser stands between two bytes. -/
inductive Phase
  | start
  | method (read : Bytes)
  | url (method : Bytes)
  | version
  | fieldStart
  | field (name : Bytes)
  | valueStart (name : Bytes)
  | value (name read : Bytes)
  | lineEnd
  | headEnd
  | body (left : ℕ)
  | failed
  deriving DecidableEq

structure ParserState where
  phase : Phase := .start
  contentLength : ℕ := 0
  deriving DecidableEq

/-- A decimal number, as `Content-Length` has it. -/
def decimal (digits : Bytes) : ℕ := digits.foldl (fun n b => 10*n+(b.toNat-48)) 0

def ParserState.onByte (s : ParserState) (b : UInt8) : List Callback × ParserState :=
  match s.phase with
  | .start =>
    if b = 13 ∨ b = 10 then ([],s)
    else if 65 ≤ b ∧ b ≤ 90 then ([.messageBegin],{ phase := .method [b] })
    else ([.messageBegin],{ s with phase := .failed })
  | .method m =>
    if b = 32 then ([],{ s with phase := .url m }) else ([],{ s with phase := .method (m++[b]) })
  | .url m => if b = 32 then ([],{ s with phase := .version }) else ([.url [b] m],s)
  | .version => if b = 10 then ([],{ s with phase := .fieldStart }) else ([],s)
  | .fieldStart =>
    if b = 13 then ([],{ s with phase := .headEnd })
    else ([.headerField [b]],{ s with phase := .field [b] })
  | .field n =>
    if b = 58 then ([],{ s with phase := .valueStart n })
    else ([.headerField [b]],{ s with phase := .field (n++[b]) })
  | .valueStart n =>
    if b = 32 then ([],s)
    else if b = 13 then ([],{ s with phase := .lineEnd })
    else ([.headerValue [b]],{ s with phase := .value n [b] })
  | .value n v =>
    if b ≠ 13 then ([.headerValue [b]],{ s with phase := .value n (v++[b]) })
    else if lower n = ascii "content-length" then
      ([],{ phase := .lineEnd, contentLength := decimal v })
    else ([],{ s with phase := .lineEnd })
  | .lineEnd => ([],{ s with phase := .fieldStart })
  | .headEnd =>
    if s.contentLength = 0 then ([.headersComplete 1 1,.messageComplete],{})
    else ([.headersComplete 1 1],{ s with phase := .body s.contentLength })
  | .body left =>
    if left ≤ 1 then ([.body [b],.messageComplete],{})
    else ([.body [b]],{ s with phase := .body (left-1) })
  | .failed => ([],s)

def ParserState.onBytes (s : ParserState) : Bytes → List Callback × ParserState
  | [] => ([],s)
  | b::bs =>
    let r := s.onByte b
    let rest := r.2.onBytes bs
    (r.1++rest.1,rest.2)

def joinSpans : List Callback → List Callback
  | [] => []
  | c::cs => match c,joinSpans cs with
    | .url a m,.url b _::rest => .url (a++b) m::rest
    | .headerField a,.headerField b::rest => .headerField (a++b)::rest
    | .headerValue a,.headerValue b::rest => .headerValue (a++b)::rest
    | .body a,.body b::rest => .body (a++b)::rest
    | c,rest => c::rest

/-- The parser of `Content-Length` requests. -/
def requestParser : Llhttp where
  State := ParserState
  init := {}
  execute s bs :=
    let r := s.onBytes bs
    (joinSpans r.1,r.2.phase ≠ .failed,r.2)

end HttpSession
end AsioQuickjs
