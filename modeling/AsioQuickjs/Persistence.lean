import AsioQuickjs.HttpAssembly
import AsioQuickjs.HttpExchange

/-! Whether a connection outlives a reply: what the head of a request asks for, what the
session makes of it, and what each of the two ways to reply then says and does. -/
namespace AsioQuickjs
namespace Persistence

open HttpMessage HttpHost
open HttpSession (Field Assembly Callback headCallbacks begin_headers headCallbacks_applyAll)

def names (fields : List Field) : Bytes := (fields.flatMap Field.name).flatten

/-- The session files the value `v` under `k`: the names up to that of the value's field read
`k`, and the value is not empty or the last. -/
def Filed (fields : List Field) (k v : Bytes) : Prop :=
  ∃ before f after, fields = before++f::after ∧ lower (names (before++[f])) = k ∧
    f.text = v ∧ (v ≠ [] ∨ after = [])

/-- The head asks for the connection to be closed. -/
def Asks (fields : List Field) (major minor : ℕ) : Prop :=
  (∃ f ∈ fields, f.key = ascii "connection" ∧ lower f.text = ascii "close") ∨
  (∀ f ∈ fields, f.key ≠ ascii "connection") ∧ major = 1 ∧ minor = 0

/-- The session reads in the head that the connection is to be closed. -/
def Closes (fields : List Field) (major minor : ℕ) : Prop :=
  (∃ v, Filed fields (ascii "connection") v ∧ lower v = ascii "close") ∨
  (∀ v, ¬ Filed fields (ascii "connection") v) ∧ major = 1 ∧ minor = 0

/-- `close_after_response_` once the parser has made these callbacks and returned `HPE_OK`,
or not. -/
def closeAfterResponse (s : Assembly) (callbacks : List Callback) (ok : Bool) : Bool :=
  if ok then (s.applyAll callbacks).closeAfterResponse else true

/-- A session with its socket, which reads again or is closed when a reply is written. -/
structure Session extends HttpExchange.Session where
  closed : Bool := false

namespace Session

def sendResponse (s : Session) (resp : HttpResponse) : Session :=
  { s with
    toSession := s.toSession.sendResponse resp
    closed := s.closed || s.closeAfterResponse }

def beginChunked (s : Session) (status : ℤ) (contentType : Bytes) : Session :=
  { s with toSession := s.toSession.beginChunked status contentType }

def writeChunkSync (s : Session) (data : Bytes) : Session :=
  { s with toSession := s.toSession.writeChunkSync data }

def finishChunked (s : Session) (keepAlive : Bool) : Session :=
  { s with
    written := s.written++[.last]
    reads := if keepAlive then s.reads+1 else s.reads
    closed := s.closed || !keepAlive }

/-- `native_stream_end`. -/
def nativeStreamEnd (s : Session) : Session := s.finishChunked true

end Session

def begun (close : Bool) : Session := { closeAfterResponse := close }

inductive Reply
  | response (resp : HttpResponse)
  | chunked (status : ℤ) (contentType : Bytes) (chunks : List Bytes) (keepAlive : Bool)

def Session.reply (s : Session) : Reply → Session
  | .response resp => s.sendResponse resp
  | .chunked status contentType chunks keepAlive =>
    (chunks.foldl Session.writeChunkSync (s.beginChunked status contentType)).finishChunked
      keepAlive

def writeFields (close : Bool) : HttpExchange.Write → List (Bytes × Bytes)
  | .response resp => resp.fields close
  | .head _ contentType => HttpExchange.chunkedFields contentType
  | .chunk _ => []
  | .last => []

/-- The `Connection` headers that are sent. -/
def Session.connection (s : Session) : List Bytes :=
  valuesOf (ascii "connection") (s.written.flatMap (writeFields s.closeAfterResponse))

def token (close : Bool) : Bytes := if close then ascii "close" else ascii "keep-alive"

/-- What the session says and does follows the request: each `Connection` header that it sends,
and the socket behind the last byte, follow what it reads in the head, and that is to close
if the head asks for it. -/
structure Follows (asks : Prop) (s : Session) : Prop where
  sent : s.connection ≠ []
  header : ∀ v ∈ s.connection, lower v = token s.closeAfterResponse
  socket : s.closed = s.closeAfterResponse ∧ s.reads = if s.closeAfterResponse then 0 else 1
  asked : asks → s.closeAfterResponse = true

/-- The reply says what the session has read in the head: a response has no `Connection`
header of its own that says something else, and a chunked reply always keeps the connection. -/
def Reply.Agrees (close : Prop) : Reply → Prop
  | .response resp => ∀ h ∈ resp.headers.entries, lower h.1 = ascii "connection" →
      (close → lower h.2 = ascii "close") ∧ (¬ close → lower h.2 = ascii "keep-alive")
  | .chunked _ _ _ keepAlive => ¬ close ∧ keepAlive = true

@[simp] theorem names_nil : names [] = [] := rfl

@[simp] theorem names_append (fields more : List Field) :
    names (fields++more) = names fields++names more := by
  simp [names]

@[simp] theorem names_singleton (f : Field) : names [f] = f.name.flatten := by simp [names]

theorem names_eq_nil {fields : List Field} (h : ∀ f ∈ fields, f.name.flatten ≠ []) :
    names fields = [] ↔ fields = [] := by
  constructor
  · intro hnil
    cases fields with
    | nil => rfl
    | cons f fields =>
      rw [← List.singleton_append,names_append,names_singleton] at hnil
      exact absurd (List.append_eq_nil_iff.mp hnil).1 (h f List.mem_cons_self)
  · rintro rfl
    rfl

theorem lower_length_ne {a b : Bytes} (h : b ≠ []) : lower a ≠ lower (a++b) := by
  intro heq
  have hlen := congrArg List.length heq
  simp only [lower_length,List.length_append] at hlen
  exact h (List.eq_nil_of_length_eq_zero (by omega))

/-- The value that waits for the next name, or for the end of the head. -/
def pending (fields : List Field) : Bytes := (fields.getLast?.map Field.text).getD []

@[simp] theorem pending_concat (fields : List Field) (f : Field) :
    pending (fields++[f]) = f.text := by
  simp [pending]

/-- The headers, and the one under construction, behind the callbacks for these fields. -/
structure Holding (fields : List Field) (s : Assembly) : Prop where
  name : s.currentHeaderName = names fields
  value : s.currentHeaderValue = pending fields
  headers : ∀ k v, s.currentReq.headers.lookup k = some v ↔
    ∃ before f after, fields = before++f::after ∧ after ≠ [] ∧
      lower (names (before++[f])) = k ∧ f.text = v ∧ v ≠ []

/-- The header under construction is stored when the next name begins, if it has a value. -/
theorem applyAll_callbacks {s : Assembly} {f : Field}
    (h : s.currentHeaderValue ≠ [] → s.currentHeaderName ≠ []) (hf : f.name ≠ []) :
    s.applyAll f.callbacks =
      { s with
        currentReq := { s.currentReq with
          headers := if s.currentHeaderValue = [] then s.currentReq.headers
            else s.currentReq.headers.insert (lower s.currentHeaderName) s.currentHeaderValue }
        currentHeaderName := s.currentHeaderName++f.name.flatten
        currentHeaderValue := f.text } := by
  obtain ⟨b,name,hname⟩ := List.exists_cons_of_ne_nil hf
  have hfirst : (s.onHeaderField b).currentHeaderValue = [] := by
    by_cases hv : s.currentHeaderValue = []
    · simp [Assembly.onHeaderField,hv]
    · simp [Assembly.onHeaderField,hv,h hv]
  rw [Field.callbacks,Assembly.applyAll_append,hname,List.map_cons,Assembly.applyAll_cons,
    Assembly.apply,Assembly.names _ _ hfirst,Assembly.values]
  by_cases hv : s.currentHeaderValue = []
  · simp [Assembly.onHeaderField,hv,Field.text]
  · simp [Assembly.onHeaderField,hv,h hv,Field.text]

theorem holding_nil {s : Assembly} (hheaders : s.currentReq.headers = ∅)
    (hname : s.currentHeaderName = []) (hvalue : s.currentHeaderValue = []) : Holding [] s where
  name := hname
  value := hvalue
  headers k v := by
    rw [hheaders]
    simp

theorem Holding.name_ne_nil {fields : List Field} {s : Assembly} (h : Holding fields s)
    (hnames : ∀ f ∈ fields, f.name.flatten ≠ []) (hv : s.currentHeaderValue ≠ []) :
    s.currentHeaderName ≠ [] := by
  rw [h.name]
  refine mt (names_eq_nil hnames).mp ?_
  rintro rfl
  exact hv h.value

/-- A field behind these either ends the list or stands behind a decomposition of it. -/
theorem append_singleton_eq {α : Type} {fields before after : List α} {f g : α}
    (h : after ≠ []) :
    fields++[g] = before++f::after ↔
      (fields = before++[f] ∧ after = [g]) ∨
      ∃ more, more ≠ [] ∧ after = more++[g] ∧ fields = before++f::more := by
  obtain ⟨more,last,rfl⟩ := (List.eq_nil_or_concat after).resolve_left h
  rw [List.concat_eq_append]
  constructor
  · intro heq
    have hsplit : fields++[g] = (before++f::more)++[last] := by simpa using heq
    obtain ⟨hfields,hlast⟩ := List.append_inj' hsplit rfl
    obtain rfl := List.singleton_inj.mp hlast
    by_cases hmore : more = []
    · subst hmore
      exact .inl ⟨hfields,rfl⟩
    · exact .inr ⟨more,hmore,rfl,hfields⟩
  · rintro (⟨rfl,heq⟩ | ⟨more',-,heq,rfl⟩)
    · rw [heq]
      simp
    · rw [heq]
      simp

theorem names_before_ne {before after : List Field} {f : Field}
    (hnames : ∀ g ∈ before++f::after, g.name.flatten ≠ []) (h : after ≠ []) :
    lower (names (before++[f])) ≠ lower (names (before++f::after)) := by
  have hsplit : before++f::after = (before++[f])++after := by simp
  rw [hsplit,names_append (before++[f]) after]
  refine lower_length_ne (mt (names_eq_nil fun g hg => hnames g ?_).mp h)
  exact List.mem_append_right _ (List.mem_cons_of_mem f hg)

theorem Holding.field {fields : List Field} {s : Assembly} {g : Field} (h : Holding fields s)
    (hnames : ∀ f ∈ fields++[g], f.name.flatten ≠ []) :
    Holding (fields++[g]) (s.applyAll g.callbacks) := by
  have hold : ∀ f ∈ fields, f.name.flatten ≠ [] := fun f hf =>
    hnames f (List.mem_append_left _ hf)
  have hg : g.name ≠ [] := fun hnil => hnames g (by simp) (by rw [hnil]; rfl)
  rw [applyAll_callbacks (h.name_ne_nil hold) hg]
  refine ⟨by simp [h.name],by simp,fun k v => ?_⟩
  have hsplit : (∃ before f after, fields++[g] = before++f::after ∧ after ≠ [] ∧
        lower (names (before++[f])) = k ∧ f.text = v ∧ v ≠ []) ↔
      (∃ before f, fields = before++[f] ∧ lower (names fields) = k ∧ f.text = v ∧ v ≠ []) ∨
      s.currentReq.headers.lookup k = some v := by
    rw [h.headers]
    constructor
    · rintro ⟨before,f,after,heq,hafter,hkey,htext,hv⟩
      rcases (append_singleton_eq hafter).mp heq with ⟨hlast,-⟩ | ⟨more,hmore,-,hfields⟩
      · exact .inl ⟨before,f,hlast,hlast ▸ hkey,htext,hv⟩
      · exact .inr ⟨before,f,more,hfields,hmore,hkey,htext,hv⟩
    · rintro (⟨before,f,rfl,hkey,htext,hv⟩ | ⟨before,f,more,rfl,hmore,hkey,htext,hv⟩)
      · exact ⟨before,f,[g],by simp,by simp,hkey,htext,hv⟩
      · exact ⟨before,f,more++[g],by simp,by simp,hkey,htext,hv⟩
  rw [hsplit,h.value,h.name]
  by_cases hpending : pending fields = []
  · rw [if_pos hpending]
    refine ⟨.inr,?_⟩
    rintro (⟨before,f,rfl,-,htext,hv⟩ | hlookup)
    · rw [pending_concat] at hpending
      exact absurd (htext.symm.trans hpending) hv
    · exact hlookup
  · rw [if_neg hpending]
    obtain ⟨before,f,rfl⟩ : ∃ before f, fields = before++[f] := by
      rcases List.eq_nil_or_concat fields with rfl | ⟨before,f,heq⟩
      · exact absurd rfl hpending
      · exact ⟨before,f,by rw [heq,List.concat_eq_append]⟩
    rw [pending_concat] at hpending ⊢
    by_cases hk : k = lower (names (before++[f]))
    · subst hk
      rw [AList.lookup_insert]
      constructor
      · intro hv
        exact .inl ⟨before,f,rfl,rfl,Option.some.inj hv,Option.some.inj hv ▸ hpending⟩
      · rintro (⟨before',f',heq,-,htext,-⟩ | hlookup)
        · obtain ⟨-,hlast⟩ := List.append_inj' heq rfl
          rw [List.singleton_inj.mp hlast,htext]
        · obtain ⟨before',f',after,heq,hafter,hkey,-,-⟩ := (h.headers _ _).mp hlookup
          refine absurd (hkey.trans (by rw [heq])) (names_before_ne ?_ hafter)
          rw [← heq]
          exact hold
    · rw [AList.lookup_insert_ne hk]
      refine ⟨.inr,?_⟩
      rintro (⟨before',f',-,hkey,-⟩ | hlookup)
      · exact absurd hkey.symm hk
      · exact hlookup

theorem holding_fields {s : Assembly} (h : Holding [] s) {fields : List Field}
    (hnames : ∀ f ∈ fields, f.name.flatten ≠ []) :
    Holding fields (s.applyAll (fields.flatMap Field.callbacks)) := by
  induction fields using List.reverseRecOn with
  | nil => simpa using h
  | append_singleton fields g ih =>
    have hfields := ih fun f hf => hnames f (List.mem_append_left _ hf)
    simpa using hfields.field hnames

theorem lookup_headers {s : Assembly} (method : Bytes) (spans : List Bytes)
    {fields : List Field} (major minor : ℕ) (hnames : ∀ f ∈ fields, f.name.flatten ≠ [])
    (k v : Bytes) :
    (s.applyAll (headCallbacks method spans fields major minor)).currentReq.headers.lookup k =
      some v ↔ Filed fields k v := by
  obtain ⟨hmap,hname,hvalue⟩ := begin_headers s method spans
  have h := holding_fields (holding_nil hmap hname hvalue) hnames
  rw [headCallbacks_applyAll,Assembly.onHeadersComplete_headers,h.name,h.value]
  rcases List.eq_nil_or_concat fields with rfl | ⟨before,f,heq⟩
  · rw [if_neg (by simp),h.headers]
    simp [Filed]
  · rw [List.concat_eq_append] at heq
    have hne : names fields ≠ [] := mt (names_eq_nil hnames).mp (by simp [heq])
    have hlast : pending fields = f.text := by rw [heq,pending_concat]
    rw [if_pos hne]
    by_cases hk : k = lower (names fields)
    · subst hk
      rw [AList.lookup_insert,hlast]
      constructor
      · intro hv
        exact ⟨before,f,[],heq,by rw [heq],Option.some.inj hv,.inr rfl⟩
      · rintro ⟨before',f',after,heq',hkey,htext,-⟩
        by_cases hafter : after = []
        · subst hafter
          rw [heq] at heq'
          obtain ⟨-,hf⟩ := List.append_inj' heq' rfl
          rw [List.singleton_inj.mp hf,htext]
        · refine absurd (hkey.trans (by rw [heq'])) (names_before_ne ?_ hafter)
          rw [← heq']
          exact hnames
    · rw [AList.lookup_insert_ne hk,h.headers]
      constructor
      · rintro ⟨before',f',after,heq',hafter,hkey,htext,hv⟩
        exact ⟨before',f',after,heq',hkey,htext,.inl hv⟩
      · rintro ⟨before',f',after,heq',hkey,htext,hv⟩
        have hafter : after ≠ [] := by
          rintro rfl
          exact hk (by rw [heq',hkey])
        exact ⟨before',f',after,heq',hafter,hkey,htext,hv.resolve_right hafter⟩

theorem onHeadersComplete_close (s : Assembly) (major minor : ℕ) :
    (s.onHeadersComplete major minor).closeAfterResponse =
      ((s.onHeadersComplete major minor).currentReq.headers.lookup (ascii "connection")).elim
        (major == 1 && minor == 0) fun val => lower val == ascii "close" := by
  cases h : (s.onHeadersComplete major minor).currentReq.headers.lookup (ascii "connection") with
  | none =>
    simp only [Assembly.onHeadersComplete] at h ⊢
    rw [h]
    rfl
  | some v =>
    simp only [Assembly.onHeadersComplete] at h ⊢
    rw [h]
    rfl

theorem applyAll_close (s : Assembly) {tail : List Callback}
    (h : ∀ c ∈ tail, ∀ major minor, c ≠ .headersComplete major minor) :
    (s.applyAll tail).closeAfterResponse = s.closeAfterResponse := by
  refine Assembly.applyAll_keeps Assembly.closeAfterResponse (fun c hc s => ?_) s
  cases c with
  | headersComplete major minor => exact absurd rfl (h _ hc major minor)
  | headerField b =>
    simp only [Assembly.apply,Assembly.onHeaderField]
    split <;> rfl
  | messageBegin | url _ _ | headerValue _ | body _ | messageComplete => rfl

theorem closeAfterResponse_iff {s : Assembly} (method : Bytes) (spans : List Bytes)
    {fields : List Field} (major minor : ℕ) {tail : List Callback} {ok : Bool}
    (hnames : ∀ f ∈ fields, f.name.flatten ≠ [])
    (htail : ∀ c ∈ tail, ∀ major minor, c ≠ .headersComplete major minor) :
    closeAfterResponse s (headCallbacks method spans fields major minor++tail) ok = true ↔
      ok = false ∨ Closes fields major minor := by
  cases ok with
  | false => simp [closeAfterResponse]
  | true =>
    have hfiled := lookup_headers (s := s) method spans major minor hnames (ascii "connection")
    rw [closeAfterResponse,if_pos rfl,Assembly.applyAll_append,applyAll_close _ htail,Closes]
    simp only [← hfiled]
    rw [headCallbacks_applyAll,onHeadersComplete_close]
    cases AList.lookup (ascii "connection") (Assembly.onHeadersComplete _ _ _).currentReq.headers
      with
    | none => simp
    | some v => simp

theorem lower_token (close : Bool) : lower (token close) = token close := by
  cases close <;> decide

theorem connection_response (close : Bool) (resp : HttpResponse) :
    valuesOf (ascii "connection") (resp.fields close) =
      ((resp.headers.entries.filter fun h => lower h.1 = ascii "connection").map (·.2))++
        [token close] := by
  have hlength : lower (ascii "Content-Length") ≠ ascii "connection" := by decide
  have hconnection : lower (ascii "Connection") = ascii "connection" := by decide
  have hentries : valuesOf (ascii "connection") (resp.headers.entries.map fun h => (h.1,h.2)) =
      (resp.headers.entries.filter fun h => lower h.1 = ascii "connection").map (·.2) := by
    rw [valuesOf,List.filter_map,List.map_map]
    rfl
  rw [HttpResponse.fields,valuesOf_append,hentries,HttpResponse.added,valuesOf_append]
  congr 1
  have hadded : valuesOf (ascii "connection") (if ascii "content-length" ∈ resp.headers then []
      else [(ascii "Content-Length",numeral 10 resp.body.length)]) = [] := by
    split <;> simp [valuesOf,hlength]
  rw [hadded]
  simp [valuesOf,hconnection,token]

theorem foldl_writeChunkSync (chunks : List Bytes) (s : Session) :
    chunks.foldl Session.writeChunkSync s =
      { s with written := s.written++(chunks.filter (· ≠ [])).map .chunk } := by
  induction chunks generalizing s with
  | nil => simp
  | cons data chunks ih =>
    rw [List.foldl_cons,ih]
    by_cases h : data = []
    · simp [Session.writeChunkSync,HttpExchange.Session.writeChunkSync,h]
    · simp [Session.writeChunkSync,HttpExchange.Session.writeChunkSync,h]

theorem reply_chunked (s : Session) (status : ℤ) (contentType : Bytes) (chunks : List Bytes)
    (keepAlive : Bool) :
    s.reply (.chunked status contentType chunks keepAlive) =
      { s with
        written := s.written++(.head status contentType::((chunks.filter (· ≠ [])).map
          HttpExchange.Write.chunk++[.last]))
        reads := if keepAlive then s.reads+1 else s.reads
        closed := s.closed || !keepAlive } := by
  simp [Session.reply,foldl_writeChunkSync,Session.beginChunked,HttpExchange.Session.beginChunked,
    Session.finishChunked]

@[simp] theorem reply_close (s : Session) (reply : Reply) :
    (s.reply reply).closeAfterResponse = s.closeAfterResponse := by
  cases reply with
  | response resp => rfl
  | chunked status contentType chunks keepAlive => rw [reply_chunked]

theorem connection_chunked (close : Bool) (status : ℤ) (contentType : Bytes)
    (chunks : List Bytes) (keepAlive : Bool) :
    ((begun close).reply (.chunked status contentType chunks keepAlive)).connection =
      [ascii "keep-alive"] := by
  have hchunks : ((chunks.filter (· ≠ [])).map HttpExchange.Write.chunk).flatMap
      (writeFields close) = [] := by
    rw [List.flatMap_map]
    simp [writeFields]
  rw [reply_chunked,Session.connection]
  simp only [begun,List.nil_append,List.flatMap_cons,List.flatMap_append,hchunks]
  rfl

/-- The reply on a fresh exchange follows the request exactly if it says what was read in the
head, and that is to close if the head asks for it. -/
theorem follows_iff (asks : Prop) (close : Bool) (reply : Reply) :
    Follows asks ((begun close).reply reply) ↔
      (asks → close = true) ∧ reply.Agrees (close = true) := by
  cases reply with
  | response resp =>
    have hconnection : ((begun close).reply (.response resp)).connection =
        valuesOf (ascii "connection") (resp.fields close) := by
      simp [begun,Session.connection,Session.reply,Session.sendResponse,
        HttpExchange.Session.sendResponse,writeFields]
    constructor
    · intro h
      refine ⟨h.asked,fun x hx hname => ?_⟩
      have hv := h.header x.2 (by
        rw [hconnection,connection_response]
        exact List.mem_append_left _ (List.mem_map.mpr ⟨x,List.mem_filter.mpr
          ⟨hx,by simpa using hname⟩,rfl⟩))
      cases close with
      | true => exact ⟨fun _ => hv,fun hc => absurd rfl hc⟩
      | false => exact ⟨fun hc => (by cases hc),fun _ => hv⟩
    · rintro ⟨hasks,hagrees⟩
      refine ⟨by simp [hconnection,connection_response],fun v hv => ?_,?_,hasks⟩
      · rw [hconnection,connection_response] at hv
        rcases List.mem_append.mp hv with hv | hv
        · obtain ⟨x,hx,rfl⟩ := List.mem_map.mp hv
          obtain ⟨hmem,hname⟩ := List.mem_filter.mp hx
          have hx := hagrees x hmem (by simpa using hname)
          cases close with
          | true => exact hx.1 rfl
          | false => exact hx.2 (by simp)
        · rw [List.mem_singleton.mp hv]
          exact lower_token close
      · cases close <;>
          exact ⟨rfl,rfl⟩
  | chunked status contentType chunks keepAlive =>
    constructor
    · intro h
      have hasks := h.asked
      rw [reply_close] at hasks
      have hclose : close = false := by
        have hv := h.header (ascii "keep-alive") (by rw [connection_chunked]; simp)
        rw [reply_close] at hv
        cases close with
        | true => exact absurd hv (by decide)
        | false => rfl
      have hkeep : keepAlive = true := by
        have hclosed := h.socket.1
        rw [reply_chunked] at hclosed
        simpa [begun,hclose] using hclosed
      exact ⟨hasks,by simp [hclose],hkeep⟩
    · rintro ⟨hasks,hclose,rfl⟩
      have hclose : close = false := by simpa using hclose
      subst hclose
      refine ⟨by simp [connection_chunked],fun v hv => ?_,?_,by rwa [reply_close]⟩
      · rw [connection_chunked,List.mem_singleton] at hv
        rw [hv,reply_close]
        decide
      · rw [reply_chunked]
        exact ⟨rfl,rfl⟩

theorem bytes_writeFields (close : Bool) (w : HttpExchange.Write) :
    writeFields close w = [] ∨ ∃ line body, w.bytes close =
      renderHead (line::(writeFields close w).map fieldLine)++body := by
  cases w with
  | response resp => exact .inr ⟨_,_,HttpResponse.bytes_eq_renderHead resp close⟩
  | head status contentType =>
    exact .inr ⟨_,[],by rw [HttpExchange.bytes_head,List.append_nil]; rfl⟩
  | chunk data => exact .inl rfl
  | last => exact .inl rfl

/-- A reply follows its request exactly if the session reads in the head that it is to close,
or the parser has failed, where the head asks for it, and the reply says what the session has
read. -/
theorem persists_iff (s : Assembly) (method : Bytes) (spans : List Bytes) (fields : List Field)
    (major minor : ℕ) (tail : List Callback) (ok : Bool) (reply : Reply)
    (hnames : ∀ f ∈ fields, f.name.flatten ≠ [])
    (htail : ∀ c ∈ tail, ∀ major minor, c ≠ .headersComplete major minor) :
    Follows (Asks fields major minor) ((begun (closeAfterResponse s
        (headCallbacks method spans fields major minor++tail) ok)).reply reply) ↔
      (Asks fields major minor → ok = false ∨ Closes fields major minor) ∧
        reply.Agrees (ok = false ∨ Closes fields major minor) := by
  rw [follows_iff,closeAfterResponse_iff method spans major minor hnames htail]

def closing : Field := ⟨[ascii "Connection"],[ascii "close"]⟩

theorem persists_iff_closing :
    Follows (Asks [closing] 1 1) ((begun (closeAfterResponse {}
        (headCallbacks (ascii "GET") [ascii "/"] [closing] 1 1++[.messageComplete]) true)).reply
        (.response { body := ascii "hi" })) ↔
      (Asks [closing] 1 1 → true = false ∨ Closes [closing] 1 1) ∧
        (Reply.response { body := ascii "hi" }).Agrees (true = false ∨ Closes [closing] 1 1) :=
  persists_iff {} (ascii "GET") [ascii "/"] [closing] 1 1 [.messageComplete] true
    (.response { body := ascii "hi" }) (by decide) (by simp)

/-- A stream for a request with `Connection: close` keeps the connection; so does a response,
if another field stands before that one. -/
theorem not_follows :
    ¬ Follows (Asks [closing] 1 1) ((begun (closeAfterResponse {}
        (headCallbacks (ascii "GET") [ascii "/"] [closing] 1 1++[.messageComplete]) true)).reply
        (.chunked 200 (ascii "text/plain") [ascii "hi"] true)) ∧
    ¬ Follows (Asks [⟨[ascii "Host"],[ascii "a"]⟩,closing] 1 1) ((begun
        (closeAfterResponse {} (headCallbacks (ascii "GET") [ascii "/"]
          [⟨[ascii "Host"],[ascii "a"]⟩,closing] 1 1++[.messageComplete]) true)).reply
        (.response { body := ascii "hi" })) := by
  have hfirst : closeAfterResponse {} (headCallbacks (ascii "GET") [ascii "/"] [closing] 1 1++
      [.messageComplete]) true = true := by decide
  have hsecond : closeAfterResponse {} (headCallbacks (ascii "GET") [ascii "/"]
      [⟨[ascii "Host"],[ascii "a"]⟩,closing] 1 1++[.messageComplete]) true = false := by decide
  rw [hfirst,hsecond,follows_iff,follows_iff]
  constructor
  · rintro ⟨-,hnot,-⟩
    exact hnot rfl
  · rintro ⟨hasked,-⟩
    have hasks : Asks [⟨[ascii "Host"],[ascii "a"]⟩,closing] 1 1 :=
      .inl ⟨closing,by simp,by decide,by decide⟩
    exact absurd (hasked hasks) (by decide)

end Persistence
end AsioQuickjs
