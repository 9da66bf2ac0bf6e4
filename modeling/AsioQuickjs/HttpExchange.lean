import AsioQuickjs.ResponseFraming

/-! One request and what its handler makes the session write: the chunked reply of `stream`,
the response that the host sends when the handler's promise settles, or both. -/
namespace AsioQuickjs
namespace HttpExchange

open HttpMessage HttpHost

/-- What one call of a session writes to its socket. -/
inductive Write
  | response (resp : HttpResponse)
  | head (status : ℤ) (contentType : Bytes)
  | chunk (data : Bytes)
  | last

/-- The session of a request: whether it closes behind a response, what it has written,
and how often a write that was done has started a read. -/
structure Session where
  closeAfterResponse : Bool
  written : List Write := []
  reads : ℕ := 0

namespace Session

def sendResponse (s : Session) (resp : HttpResponse) : Session :=
  { s with
    written := s.written++[.response resp]
    reads := if s.closeAfterResponse then s.reads else s.reads+1 }

def beginChunked (s : Session) (status : ℤ) (contentType : Bytes) : Session :=
  { s with written := s.written++[.head status contentType] }

def writeChunkSync (s : Session) (data : Bytes) : Session :=
  if data = [] then s else { s with written := s.written++[.chunk data] }

/-- With `keep_alive`, as `native_stream_end` has it. -/
def finishChunked (s : Session) : Session :=
  { s with written := s.written++[.last], reads := s.reads+1 }

end Session

/-- A call of one of the functions that a stream's callback is given. -/
inductive Call
  | write (data : Bytes)
  | finish
  deriving DecidableEq

def Session.perform (s : Session) : Call → Session
  | .write data => s.writeChunkSync data
  | .finish => s.finishChunked

/-- A promise, or the run of an async function. Without a message, it is rejected with
something that `String` throws on. -/
inductive Promise
  | fulfilled
  | rejected (msg : Option Bytes)
  | pending

/-- How a callback ends: it returns something without `then`, throws, or returns a promise. -/
inductive Ending
  | returns
  | throws
  | promise (p : Promise)

/-- A call of `stream`: the calls that its callback makes before it returns, and those that
follow later, out of a continuation. -/
structure Stream where
  contentType : Option Bytes := none
  calls : List Call
  ending : Ending
  later : List Call := []

/-- What `stream` returns: a number, or a promise which, when fulfilled, gives an object with
`__streamHandled`. -/
inductive StreamValue
  | number (n : ℤ)
  | promise (p : Promise)

/-- `native_stream`. When its callback has returned, the opaque pointer of the context is the
host's again, so that a later call takes the host for a session. -/
def nativeStream (s : Session) (stream : Stream) : Option (Session × StreamValue) :=
  let s := s.beginChunked 200 (stream.contentType.getD (ascii "text/plain"))
  let s := stream.calls.foldl Session.perform s
  if stream.later ≠ [] then none
  else match stream.ending with
    | .throws => some (s,.number (-1))
    | .promise p => some (s,.promise p)
    | .returns => some (s,.number 0)

/-- What a handler returns or throws: a value without `__streamHandled`, an object with it,
the value of one of its streams, or an error. -/
inductive Result
  | value (returned : Option Returned)
  | streamHandled
  | stream (k : ℕ)
  | throws (msg : Option Bytes)

structure Handler where
  streams : List Stream := []
  result : Result

/-- How the function around the handler settles, if it does. A number has none of the
properties of a response, and a missing stream is no value at all. -/
def settlement (values : List StreamValue) : Result → Option Settlement
  | .value returned => some (.fulfilled (extractResponse returned))
  | .streamHandled => some .streamHandled
  | .throws msg => some (.rejected msg)
  | .stream k =>
    match values[k]? with
    | none => some (.fulfilled (extractResponse none))
    | some (.number n) =>
      some (.fulfilled (extractResponse (if n = 0 then none else some {})))
    | some (.promise .fulfilled) => some .streamHandled
    | some (.promise (.rejected msg)) => some (.rejected msg)
    | some (.promise .pending) => none

def runStreams : Session → List Stream → Option (Session × List StreamValue)
  | s, [] => some (s,[])
  | s, stream::streams => do
    let (s,v) ← nativeStream s stream
    let (s,vs) ← runStreams s streams
    return (s,v::vs)

def replyOf (values : List StreamValue) (result : Result) : Option HttpResponse :=
  ((settlement values result).bind Settlement.data).map Data.response

def Session.replied (s : Session) (reply : Option HttpResponse) : Session :=
  match reply with
  | some resp => s.sendResponse resp
  | none => s

/-- All that happens on a session between a request and the settling of its handler. -/
def exchange (s : Session) (h : Handler) : Option Session := do
  let (s,values) ← runStreams s h.streams
  return s.replied (replyOf values h.result)

def Write.bytes (close : Bool) : Write → Bytes
  | .response resp => resp.bytes close
  | .head status contentType =>
    ascii "HTTP/1.1 "++(decimal status++(ascii " OK\r\nContent-Type: "++(contentType++
      ascii "\r\nTransfer-Encoding: chunked\r\nConnection: keep-alive\r\n\r\n")))
  | .chunk data => HttpMessage.chunk data
  | .last => ascii "0\r\n\r\n"

def Session.bytes (s : Session) : Bytes := s.written.flatMap (·.bytes s.closeAfterResponse)

/-- Of a response no more than one transfer can be sent; the other writes keep their buffers. -/
def Write.Sent (close : Bool) : Write → Prop
  | .response resp => resp.sent close = some (resp.bytes close)
  | _ => True

def chunkedFields (contentType : Bytes) : List (Bytes × Bytes) :=
  [(ascii "Content-Type",contentType),(ascii "Transfer-Encoding",ascii "chunked"),
    (ascii "Connection",ascii "keep-alive")]

/-- The message has the head that was written. -/
def HeadOf (close : Bool) (m : Message) : Write → Prop
  | .response resp =>
    (m.status : ℤ) = resp.status ∧ m.reason = resp.reason ∧ m.fields = resp.fields close
  | .head status contentType =>
    (m.status : ℤ) = status ∧ m.reason = ascii "OK" ∧ m.fields = chunkedFields contentType
  | .chunk _ => False
  | .last => False

/-- All that was written is sent and is one message, with the head that was written first. -/
def OneMessage (s : Session) : Prop :=
  (∀ w ∈ s.written, w.Sent s.closeAfterResponse) ∧ ∃ m : Message, readMessage s.bytes = some (m,[]) ∧
    ∃ w ∈ s.written.head?, HeadOf s.closeAfterResponse m w

/-- The exchange is defined, writes one message, and leaves one read on a connection that is
kept alive. -/
def Exchanged (close : Bool) (h : Handler) : Prop :=
  ∃ s, exchange { closeAfterResponse := close } h = some s ∧ OneMessage s ∧
    (close = false → s.reads = 1)

/-- The calls write chunks and then end the stream, once. Empty writes do not count. -/
def EndsOnce (calls : List Call) : Prop :=
  ∃ before after, calls = before++.finish::after ∧ .finish ∉ before ∧
    ∀ c ∈ after, c = .write []

/-- Nothing is sent for a handler that gives back its only stream or the mark of a stream, or
throws what does not convert to a text. -/
def Silent (ending : Ending) : Result → Prop
  | .streamHandled => True
  | .throws msg => msg = none
  | .stream 0 =>
    ending = .promise .fulfilled ∨ ending = .promise .pending ∨ ending = .promise (.rejected none)
  | _ => False

/-- A response that can be read, and sent in one transfer. -/
def Answers (closeAfterResponse : Bool) (resp : HttpResponse) : Prop :=
  resp.Readable ∧ resp.size closeAfterResponse ≤ HttpResponse.maxTransferSize

/-- A content type that can stand in a head. -/
def IsValue (t : Bytes) : Prop := (∀ b ∈ t, isFieldChar b) ∧ trim t = t

/-- A handler that gives one reply: it throws what converts to a text, returns a readable
response, either of them not too long, or streams once, with a content type that can stand in
a head, calls that end the stream once before the callback returns, and no response beside
it. -/
def OneReply (closeAfterResponse : Bool) (h : Handler) : Prop :=
  match h.streams with
  | [] =>
    match h.result with
    | .value returned => Answers closeAfterResponse (extractResponse returned).response
    | .throws msg => ∃ text ∈ msg,
        (Data.ofError text).response.size closeAfterResponse ≤ HttpResponse.maxTransferSize
    | _ => False
  | [stream] =>
    (∀ t ∈ stream.contentType, IsValue t) ∧
    EndsOnce stream.calls ∧ stream.later = [] ∧ Silent stream.ending h.result
  | _ => False

def Call.writes : Call → List Write
  | .write data => if data = [] then [] else [.chunk data]
  | .finish => [.last]

namespace Stream

def writes (stream : Stream) : List Write :=
  .head 200 (stream.contentType.getD (ascii "text/plain"))::stream.calls.flatMap Call.writes

def value (stream : Stream) : StreamValue :=
  match stream.ending with
  | .throws => .number (-1)
  | .promise p => .promise p
  | .returns => .number 0

end Stream

theorem foldl_perform (s : Session) (calls : List Call) :
    calls.foldl Session.perform s =
      { s with
        written := s.written++calls.flatMap Call.writes
        reads := s.reads+calls.count .finish } := by
  induction calls generalizing s with
  | nil => simp
  | cons c calls ih =>
    rw [List.foldl_cons,ih]
    cases c with
    | write data =>
      by_cases hdata : data = []
      · simp [Session.perform,Session.writeChunkSync,Call.writes,hdata]
      · simp [Session.perform,Session.writeChunkSync,Call.writes,hdata]
    | finish =>
      simp [Session.perform,Session.finishChunked,Call.writes]
      omega

def Session.streamed (s : Session) (streams : List Stream) : Session :=
  { s with
    written := s.written++streams.flatMap Stream.writes
    reads := s.reads+(streams.map fun stream => stream.calls.count .finish).sum }

theorem nativeStream_eq (s : Session) (stream : Stream) :
    nativeStream s stream =
      if stream.later = [] then some (s.streamed [stream],stream.value) else none := by
  rw [nativeStream,foldl_perform]
  by_cases hlater : stream.later = []
  · rw [if_neg (not_not.mpr hlater),if_pos hlater]
    cases hending : stream.ending <;>
      simp [Session.streamed,Session.beginChunked,Stream.writes,Stream.value,hending]
  · rw [if_pos hlater,if_neg hlater]

theorem runStreams_eq (s : Session) (streams : List Stream) :
    runStreams s streams =
      if ∀ stream ∈ streams, stream.later = [] then
        some (s.streamed streams,streams.map Stream.value) else none := by
  induction streams generalizing s with
  | nil => simp [runStreams,Session.streamed]
  | cons stream streams ih =>
    rw [runStreams,nativeStream_eq]
    by_cases hlater : stream.later = []
    · by_cases hall : ∀ t ∈ streams, t.later = []
      · simp [hlater,eq_true hall,ih,Session.streamed,Nat.add_assoc]
      · simp [hlater,hall,ih]
    · simp [hlater]

theorem bytes_head (close : Bool) (status : ℤ) (contentType : Bytes) :
    (Write.head status contentType).bytes close =
      renderHead (statusLine (decimal status) (ascii "OK")::
        (chunkedFields contentType).map fieldLine) := by
  simp [Write.bytes,renderHead,statusLine,chunkedFields,fieldLine,ascii,crlf]

/-- The writes behind the head of a chunked reply are chunks, and one end. -/
def Complete : List Write → Prop
  | .chunk _::ws => Complete ws
  | .last::ws => ws = []
  | _ => False

theorem Complete.sent {close : Bool} {ws : List Write} (h : Complete ws) :
    ∀ w ∈ ws, w.Sent close := by
  induction ws with
  | nil => cases h
  | cons w ws ih =>
    cases w with
    | chunk data => exact List.forall_mem_cons.mpr ⟨trivial,ih h⟩
    | last =>
      obtain rfl : ws = [] := h
      exact List.forall_mem_singleton.mpr trivial
    | head status contentType => cases h
    | response resp => cases h

theorem write_bytes_ne_nil (close : Bool) (w : Write) : w.bytes close ≠ [] := by
  cases w with
  | response resp => simp [Write.bytes,HttpResponse.bytes,ascii]
  | head status contentType => simp [Write.bytes,ascii]
  | chunk data => simp [Write.bytes,HttpMessage.chunk,crlf]
  | last => simp [Write.bytes,ascii]

theorem dechunk_http (bs : Bytes) : dechunk (.size []) (ascii "HTTP/1.1 "++bs) = none := by
  have hmem : (72 : UInt8) ∈ ascii "HTTP/1.1 " := by decide
  have hnot : digitVal 72 = none := by decide
  have hsize : dechunk (.size []) (ascii "HTTP/1.1 "++bs) =
      dechunk (.size (ascii "HTTP/1.1 ")) bs := rfl
  rw [hsize,dechunk_not_digit hmem hnot]

theorem dechunk_writes {close : Bool} {ws : List Write} (h : .chunk [] ∉ ws) :
    (∃ body, dechunk (.size []) (ws.flatMap (·.bytes close)) = some (body,[])) ↔
      Complete ws := by
  induction ws with
  | nil => simp [dechunk,Complete]
  | cons w ws ih =>
    have ih := ih fun hmem => h (List.mem_cons_of_mem w hmem)
    rw [List.flatMap_cons]
    cases w with
    | chunk data =>
      have hdata : data ≠ [] := by
        rintro rfl
        exact h List.mem_cons_self
      rw [Complete,← ih,Write.bytes,dechunk_chunk hdata]
      simp
    | last =>
      rw [Complete,Write.bytes,dechunk_last]
      cases ws with
      | nil => simp
      | cons w ws => simp [write_bytes_ne_nil]
    | head status contentType =>
      simp only [Complete,iff_false,Write.bytes,List.append_assoc]
      rintro ⟨body,hbody⟩
      rw [dechunk_http] at hbody
      cases hbody
    | response resp =>
      simp only [Complete,iff_false,Write.bytes,HttpResponse.bytes,List.append_assoc]
      rintro ⟨body,hbody⟩
      rw [dechunk_http] at hbody
      cases hbody

theorem readBody_chunked (contentType bs : Bytes) :
    readBody 200 (chunkedFields contentType) bs = dechunk (.size []) bs := rfl

theorem wellFormed_chunkedFields {contentType : Bytes} :
    (∀ f ∈ chunkedFields contentType, WellFormed f) ↔ IsValue contentType := by
  have hname : ∀ b ∈ ascii "Content-Type", isTokenChar b := by decide
  have hte : WellFormed (ascii "Transfer-Encoding",ascii "chunked") :=
    ⟨by decide,by decide,by decide,by decide⟩
  have hconn : WellFormed (ascii "Connection",ascii "keep-alive") :=
    ⟨by decide,by decide,by decide,by decide⟩
  constructor
  · intro h
    have hf := h _ List.mem_cons_self
    exact ⟨hf.value_chars,hf.value_trim⟩
  · rintro ⟨hchars,htrim⟩ f hf
    simp only [chunkedFields,List.mem_cons,List.not_mem_nil,or_false] at hf
    rcases hf with rfl | rfl | rfl
    · exact ⟨List.cons_ne_nil _ _,hname,hchars,htrim⟩
    · exact hte
    · exact hconn

theorem readMessage_head {close : Bool} {contentType : Bytes} {ws : List Write} {n : ℕ}
    {m : Message} :
    (readMessage (Session.bytes ⟨close,.head 200 contentType::ws,n⟩) = some (m,[]) ∧
        m.reason = ascii "OK" ∧ m.fields = chunkedFields contentType) ↔
      ((decimal 200).length = 3 ∧ readNumber 10 (decimal 200) = some m.status) ∧
      ((∀ b ∈ ascii "OK", isFieldChar b) ∧ ∀ f ∈ chunkedFields contentType, WellFormed f) ∧
      (m.reason = ascii "OK" ∧ m.fields = chunkedFields contentType) ∧
      readBody m.status (chunkedFields contentType) (ws.flatMap (·.bytes close)) =
        some (m.body,[]) := by
  rw [Session.bytes,List.flatMap_cons,bytes_head]
  exact readMessage_renderHead (HttpResponse.decimal_clean 200)

/-- What begins with the head of a chunked reply is one message if it goes on with chunks
and one end. -/
theorem oneMessage_head {close : Bool} {contentType : Bytes} {ws : List Write} {n : ℕ}
    (h : .chunk [] ∉ ws) :
    OneMessage ⟨close,.head 200 contentType::ws,n⟩ ↔ IsValue contentType ∧ Complete ws := by
  rw [← wellFormed_chunkedFields,← @dechunk_writes close ws h,OneMessage]
  constructor
  · rintro ⟨-,m,hm,w,hw,hhead⟩
    obtain rfl : _ = w := Option.some.inj hw
    obtain ⟨hstatus,hreason,hfields⟩ := hhead
    obtain ⟨-,⟨-,hwell⟩,-,hbody⟩ := readMessage_head.mp ⟨hm,hreason,hfields⟩
    have h200 : m.status = 200 := Int.ofNat.inj hstatus
    rw [h200,readBody_chunked] at hbody
    exact ⟨hwell,m.body,hbody⟩
  · rintro ⟨hwell,body,hbody⟩
    have hsent : ∀ w ∈ ws, w.Sent close := ((dechunk_writes h).mp ⟨body,hbody⟩).sent
    have hdigits : (decimal 200).length = 3 ∧ readNumber 10 (decimal 200) = some 200 := by decide
    have hok : ∀ b ∈ ascii "OK", isFieldChar b := by decide
    obtain ⟨hm,-⟩ := (@readMessage_head close contentType ws n
      ⟨200,ascii "OK",chunkedFields contentType,body⟩).mpr ⟨hdigits,⟨hok,hwell⟩,⟨rfl,rfl⟩,hbody⟩
    exact ⟨List.forall_mem_cons.mpr ⟨trivial,hsent⟩,_,hm,.head 200 contentType,rfl,rfl,rfl,rfl⟩

theorem oneMessage_response {close : Bool} {resp : HttpResponse} {n : ℕ} :
    OneMessage ⟨close,[.response resp],n⟩ ↔ Answers close resp := by
  have hbytes : Session.bytes ⟨close,[.response resp],n⟩ = resp.bytes close := by
    simp [Session.bytes,Write.bytes]
  have hsent : resp.sent close = some (resp.bytes close) ↔
      resp.size close ≤ HttpResponse.maxTransferSize :=
    HttpResponse.mem_sent.trans (and_iff_left rfl)
  rw [Answers,← HttpResponse.readable_iff resp close,OneMessage,hbytes,← hsent]
  simp [HeadOf,Write.Sent,and_comm]

theorem endsOnce_nil : ¬ EndsOnce [] := by
  rintro ⟨before,after,h,-⟩
  exact List.cons_ne_nil _ _ (List.append_eq_nil_iff.mp h.symm).2

theorem endsOnce_write {data : Bytes} {calls : List Call} :
    EndsOnce (.write data::calls) ↔ EndsOnce calls := by
  constructor
  · rintro ⟨before,after,h,hbefore,hafter⟩
    cases before with
    | nil => cases h
    | cons c before =>
      exact ⟨before,after,(List.cons.inj h).2,fun hm => hbefore (List.mem_cons_of_mem c hm),hafter⟩
  · rintro ⟨before,after,rfl,hbefore,hafter⟩
    exact ⟨.write data::before,after,rfl,by simpa using hbefore,hafter⟩

theorem endsOnce_finish {calls : List Call} :
    EndsOnce (.finish::calls) ↔ ∀ c ∈ calls, c = .write [] := by
  constructor
  · rintro ⟨before,after,h,hbefore,hafter⟩
    cases before with
    | nil =>
      obtain rfl := (List.cons.inj h).2
      exact hafter
    | cons c before =>
      obtain rfl := (List.cons.inj h).1
      exact absurd List.mem_cons_self hbefore
  · exact fun h => ⟨[],calls,rfl,List.not_mem_nil,h⟩

/-- The writes of a callback complete the reply if they end it once and nothing else is
written. -/
theorem complete_calls {calls : List Call} {rest : List Write} (h : ¬ Complete rest) :
    Complete (calls.flatMap Call.writes++rest) ↔ EndsOnce calls ∧ rest = [] := by
  induction calls with
  | nil => simp [h,endsOnce_nil]
  | cons c calls ih =>
    cases c with
    | write data =>
      rw [endsOnce_write,← ih,List.flatMap_cons,Call.writes]
      split
      · rfl
      · rfl
    | finish =>
      rw [endsOnce_finish,List.flatMap_cons,Call.writes]
      simp only [List.cons_append,List.nil_append,Complete,List.append_eq_nil_iff,
        List.flatMap_eq_nil_iff]
      refine and_congr_left fun _ => forall₂_congr fun c _ => ?_
      cases c <;> simp [Call.writes]

theorem count_finish {calls : List Call} (h : EndsOnce calls) : calls.count .finish = 1 := by
  obtain ⟨before,after,rfl,hbefore,hafter⟩ := h
  have hafter' : .finish ∉ after := fun hm => by cases hafter _ hm
  rw [List.count_append,List.count_cons_self,List.count_eq_zero.mpr hbefore,
    List.count_eq_zero.mpr hafter']

theorem readable_ofError (msg : Bytes) : (Data.ofError msg).response.Readable := by
  have hheaders : ∀ h ∈ (Data.ofError msg).response.headers.entries,
      WellFormed (h.1,h.2) ∧ lower h.1 ≠ ascii "transfer-encoding" ∧
        lower h.1 ≠ ascii "content-length" := by
    intro h hh
    obtain rfl := List.mem_singleton.mp (show h ∈ [_] from hh)
    exact ⟨⟨by decide,by decide,by decide,by decide⟩,by decide,by decide⟩
  have hstatus : (100 : ℤ) ≤ 500 ∧ (500 : ℤ) ≤ 999 := by decide
  have htext : ∀ b ∈ ascii "Internal Server Error", isFieldChar b := by decide
  have hbody : ¬ bodyless (Data.ofError msg).response.status.toNat :=
    (by decide : ¬ bodyless (Int.toNat 500))
  refine ⟨hstatus,htext,fun h hh => (hheaders h hh).1,?_⟩
  rw [if_neg hbody]
  exact ⟨fun h hh => (hheaders h hh).2.1,fun h hh hcl => absurd hcl (hheaders h hh).2.2⟩

theorem not_readable_undefined : ¬ (extractResponse none).response.Readable := by
  intro h
  exact absurd h.body (by decide)

theorem replyOf_stream {stream : Stream} {result : Result} :
    replyOf [stream.value] result = none ↔ Silent stream.ending result := by
  cases result with
  | value returned => simp [replyOf,settlement,Settlement.data,Silent]
  | streamHandled => simp [replyOf,settlement,Settlement.data,Silent]
  | throws msg => simp [replyOf,settlement,Settlement.data,Silent]
  | stream k =>
    cases k with
    | succ k => simp [replyOf,settlement,Settlement.data,Silent]
    | zero =>
      cases hending : stream.ending with
      | returns => simp [replyOf,settlement,Settlement.data,Silent,Stream.value,hending]
      | throws => simp [replyOf,settlement,Settlement.data,Silent,Stream.value,hending]
      | promise p =>
        cases p <;> simp [replyOf,settlement,Settlement.data,Silent,Stream.value,hending]

def behind (streams : List Stream) (reply : Option HttpResponse) : List Write :=
  streams.flatMap Stream.writes++reply.toList.map Write.response

theorem not_complete_behind (streams : List Stream) (reply : Option HttpResponse) :
    ¬ Complete (behind streams reply) := by
  cases streams with
  | nil => cases reply <;> simp [behind,Complete]
  | cons stream streams => simp [behind,Stream.writes,Complete]

theorem behind_eq_nil {streams : List Stream} {reply : Option HttpResponse} :
    behind streams reply = [] ↔ streams = [] ∧ reply = none := by
  cases streams with
  | nil => cases reply <;> simp [behind]
  | cons stream streams => simp [behind,Stream.writes]

theorem no_empty_chunk (calls : List Call) (streams : List Stream)
    (reply : Option HttpResponse) :
    .chunk [] ∉ calls.flatMap Call.writes++behind streams reply := by
  have hcalls : ∀ calls : List Call, .chunk [] ∉ calls.flatMap Call.writes := by
    intro calls hmem
    obtain ⟨c,-,hc⟩ := List.mem_flatMap.mp hmem
    cases c with
    | write data =>
      rw [Call.writes] at hc
      split at hc
      · cases hc
      · next hdata => exact hdata (Write.chunk.inj (List.mem_singleton.mp hc)).symm
    | finish => cases List.mem_singleton.mp hc
  intro hmem
  rcases List.mem_append.mp hmem with hmem | hmem
  · exact hcalls calls hmem
  · rcases List.mem_append.mp hmem with hmem | hmem
    · obtain ⟨stream,-,hc⟩ := List.mem_flatMap.mp hmem
      rcases List.mem_cons.mp hc with hc | hc
      · cases hc
      · exact hcalls stream.calls hc
    · obtain ⟨resp,-,hc⟩ := List.mem_map.mp hmem
      cases hc

theorem exchange_eq (s : Session) (h : Handler) :
    exchange s h =
      if ∀ stream ∈ h.streams, stream.later = [] then
        some ((s.streamed h.streams).replied (replyOf (h.streams.map Stream.value) h.result))
      else none := by
  rw [exchange,runStreams_eq]
  split <;> rfl

/-- Where a handler streams first, there is one message if that stream ends once and nothing
is written behind it. -/
theorem oneMessage_streams {close : Bool} {contentType : Bytes} {calls : List Call}
    {streams : List Stream} {reply : Option HttpResponse} {n : ℕ} :
    OneMessage ⟨close,.head 200 contentType::(calls.flatMap Call.writes++behind streams reply),n⟩ ↔
      IsValue contentType ∧ EndsOnce calls ∧ streams = [] ∧ reply = none := by
  rw [oneMessage_head (no_empty_chunk calls streams reply),
    complete_calls (not_complete_behind streams reply),behind_eq_nil]

theorem replied_streamed (close : Bool) (stream : Stream) (streams : List Stream)
    (reply : Option HttpResponse) :
    ∃ n, (({ closeAfterResponse := close } : Session).streamed (stream::streams)).replied reply =
        ⟨close,.head 200 (stream.contentType.getD (ascii "text/plain"))::
          (stream.calls.flatMap Call.writes++behind streams reply),n⟩ ∧
      (streams = [] → reply = none → n = stream.calls.count .finish) := by
  refine ⟨((({ closeAfterResponse := close } : Session).streamed (stream::streams)).replied
    reply).reads,?_,?_⟩
  · cases reply <;>
      simp [Session.replied,Session.sendResponse,Session.streamed,Stream.writes,behind]
  · rintro rfl rfl
    simp [Session.replied,Session.streamed]

/-- The exchange of a request whose handler streams: one message, if the stream ends once
and nothing is written behind it. -/
theorem exchanged_streams {close : Bool} {stream : Stream} {streams : List Stream}
    {result : Result} :
    Exchanged close ⟨stream::streams,result⟩ ↔
      (∀ t ∈ stream.contentType, IsValue t) ∧ EndsOnce stream.calls ∧ stream.later = [] ∧
        streams = [] ∧ Silent stream.ending result := by
  have htype : IsValue (stream.contentType.getD (ascii "text/plain")) ↔
      ∀ t ∈ stream.contentType, IsValue t := by
    have hplain : IsValue (ascii "text/plain") := ⟨by decide,by decide⟩
    cases stream.contentType with
    | none => simp [hplain]
    | some t => simp
  obtain ⟨n,hsession,hn⟩ := replied_streamed close stream streams
    (replyOf ((stream::streams).map Stream.value) result)
  rw [← htype,Exchanged,exchange_eq]
  constructor
  · rintro ⟨s,hs,hone,-⟩
    split at hs
    · next hlater =>
      obtain rfl := Option.some.inj hs
      rw [hsession,oneMessage_streams] at hone
      obtain ⟨ht,hends,rfl,hreply⟩ := hone
      exact ⟨ht,hends,hlater stream List.mem_cons_self,rfl,replyOf_stream.mp hreply⟩
    · cases hs
  · rintro ⟨ht,hends,hlater,rfl,hsilent⟩
    have hreply := replyOf_stream.mpr hsilent
    have hall : ∀ t ∈ [stream], t.later = [] := by simpa using hlater
    refine ⟨_,if_pos hall,?_,fun _ => ?_⟩
    · rw [hsession,oneMessage_streams]
      exact ⟨ht,hends,rfl,hreply⟩
    · rw [hsession,hn rfl hreply,count_finish hends]

/-- The exchange of a request whose handler does not stream: one message, if there is a
response that can be read. -/
theorem exchanged_response {close : Bool} {result : Result} :
    Exchanged close ⟨[],result⟩ ↔ ∃ resp ∈ replyOf [] result, Answers close resp := by
  rw [Exchanged,exchange_eq,if_pos (by simp)]
  cases hreply : replyOf [] result with
  | none =>
    constructor
    · rintro ⟨s,hs,⟨-,-,-,w,hw,-⟩,-⟩
      rw [← Option.some.inj hs,List.map_nil,hreply] at hw
      cases hw
    · rintro ⟨resp,hresp,-⟩
      cases hresp
  | some resp =>
    have hsession : (({ closeAfterResponse := close } : Session).streamed []).replied
        (replyOf [] result) = ⟨close,[.response resp],if close then 0 else 1⟩ := by
      rw [hreply]
      rfl
    constructor
    · rintro ⟨s,hs,hone,-⟩
      rw [← Option.some.inj hs,List.map_nil,hsession,oneMessage_response] at hone
      exact ⟨resp,rfl,hone⟩
    · rintro ⟨resp',hresp,hread⟩
      obtain rfl := Option.some.inj hresp
      refine ⟨_,rfl,?_,?_⟩
      · rw [List.map_nil,hsession,oneMessage_response]
        exact hread
      · rintro rfl
        rw [List.map_nil,hsession]
        rfl

end HttpExchange
end AsioQuickjs
