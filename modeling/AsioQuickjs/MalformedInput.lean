import AsioQuickjs.HttpReads
import AsioQuickjs.Trace

/-! A session on its socket: when it reads, and what it does when the parser reports an error.
The loop looks at `message_complete_` alone. -/
namespace AsioQuickjs
namespace MalformedInput

open HttpSession

variable {P : Llhttp}

/-- What goes on on the socket: a read, the reply of the handler, or nothing any more. -/
inductive Phase
  | reading
  | handling
  | done
  deriving DecidableEq

/-- A session with its socket; `answered` counts the responses sent. -/
structure Connection (P : Llhttp) where
  session : Session P
  phase : Phase
  answered : ℕ := 0

/-- A read brings bytes or fails, and a reply is written, or its writing fails. -/
inductive Event
  | data (chunk : Bytes)
  | readFailed
  | responded
  | streamed (keepAlive : Bool)
  | writeFailed

namespace Connection

/-- `do_read`. -/
def doRead (c : Connection P) : Connection P :=
  { c with session := c.session.doRead, phase := .reading }

/-- `start` on an accepted socket. -/
def start (P : Llhttp) : Connection P := doRead ⟨accepted P,.done,0⟩

def onRead (c : Connection P) (chunk : Bytes) : Connection P :=
  let c := { c with session := (c.session.received chunk).parseHttpData }
  if c.session.messageComplete then
    { c with session := c.session.handleRequest, phase := .handling }
  else c.doRead

/-- Behind the last byte of a reply the socket is closed, or is read again. -/
def replied (c : Connection P) (keepAlive : Bool) : Connection P :=
  let c := { c with answered := c.answered+1 }
  if keepAlive then c.doRead else { c with phase := .done }

def step (c : Connection P) : Event → Option (Connection P)
  | .data chunk =>
    if c.phase = .reading ∧ chunk ≠ [] ∧ chunk.length ≤ Session.readSize then
      some (c.onRead chunk)
    else none
  | .readFailed => if c.phase = .reading then some { c with phase := .done } else none
  | .responded =>
    if c.phase = .handling then some (c.replied !c.session.closeAfterResponse) else none
  | .streamed keepAlive => if c.phase = .handling then some (c.replied keepAlive) else none
  | .writeFailed => if c.phase = .handling then some { c with phase := .done } else none

end Connection

/-- What `llhttp_execute` answers for this read. -/
def answer (c : Connection P) (chunk : Bytes) : List Callback × Bool × P.State :=
  P.execute c.session.parser (c.session.received chunk).buffer

/-- The parser reports an error in this read before a message is complete. -/
def Fails (c : Connection P) (chunk : Bytes) : Prop :=
  (answer c chunk).2.1 = false ∧ .messageComplete ∉ (answer c chunk).1

/-- The session ends with that read: it does not read again, and its buffer has not grown. -/
def Ends (c d : Connection P) (chunk : Bytes) : Prop :=
  d.phase ≠ .reading ∧ d.session.buffer.length ≤ (c.session.received chunk).buffer.length

/-- A parser that has reported an error reports it again, without callbacks, as
`llhttp_execute` does until it is reset. -/
def Sticky (P : Llhttp) : Prop :=
  ∀ st bs more, (P.execute st bs).2.1 = false →
    (P.execute (P.execute st bs).2.2 more).1 = [] ∧
    (P.execute (P.execute st bs).2.2 more).2.1 = false

/-- No message is complete between two events, and a read has made room in the buffer. -/
structure Inv (c : Connection P) : Prop where
  incomplete : c.session.messageComplete = false
  room : c.phase = .reading → ∃ s : Session P, c.session = s.doRead

namespace Connection

variable (c : Connection P)

@[simp] theorem doRead_phase : c.doRead.phase = .reading := rfl

@[simp] theorem doRead_answered : c.doRead.answered = c.answered := rfl

@[simp] theorem doRead_session : c.doRead.session = c.session.doRead := rfl

end Connection

@[simp] theorem doRead_length (s : Session P) :
    s.doRead.buffer.length = s.buffer.length+Session.readSize := by
  simp [Session.doRead]

theorem inv_doRead {c : Connection P} (h : c.session.messageComplete = false) : Inv c.doRead where
  incomplete := h
  room _ := ⟨c.session,rfl⟩

theorem inv_start : Inv (Connection.start P) := inv_doRead rfl

theorem inv_step (c : Connection P) (e : Event) (d : Connection P) (h : Inv c)
    (hstep : c.step e = some d) : Inv d := by
  have hreplied : ∀ keepAlive, Inv (c.replied keepAlive) := by
    intro keepAlive
    cases keepAlive with
    | true => exact inv_doRead h.incomplete
    | false => exact ⟨h.incomplete,fun hphase => by cases hphase⟩
  cases e with
  | data chunk =>
    obtain ⟨-,hd⟩ := Option.ite_none_right_eq_some.mp hstep
    cases hd
    rw [Connection.onRead]
    split
    · exact ⟨rfl,fun hphase => by cases hphase⟩
    · next hm => exact inv_doRead (by simpa using hm)
  | readFailed | writeFailed =>
    obtain ⟨-,hd⟩ := Option.ite_none_right_eq_some.mp hstep
    cases hd
    exact ⟨h.incomplete,fun hphase => by cases hphase⟩
  | responded | streamed keepAlive =>
    obtain ⟨-,hd⟩ := Option.ite_none_right_eq_some.mp hstep
    cases hd
    exact hreplied _

theorem inv_run {es : List Event} {c : Connection P}
    (h : Trace.run Connection.step (Connection.start P) es = some c) : Inv c :=
  Trace.run_keeps inv_step inv_start h

theorem applyAll_incomplete {s : Assembly} {cs : List Callback} (hs : s.messageComplete = false)
    (h : .messageComplete ∉ cs) : (s.applyAll cs).messageComplete = false := by
  induction cs generalizing s with
  | nil => exact hs
  | cons c cs ih =>
    rw [List.mem_cons,not_or] at h
    refine ih ?_ h.2
    cases c with
    | messageComplete => exact absurd rfl h.1
    | headerField b =>
      simp only [Assembly.apply,Assembly.onHeaderField]
      split <;> exact hs
    | headersComplete major minor =>
      simp only [Assembly.apply,Assembly.onHeadersComplete]
      split <;> exact hs
    | messageBegin => rfl
    | url _ _ | headerValue _ | body _ => exact hs

theorem parseHttpData_of_ne {s : Session P} (h : s.buffer ≠ []) :
    s.parseHttpData.parser = (P.execute s.parser s.buffer).2.2 ∧
    s.parseHttpData.messageComplete =
      (s.toAssembly.applyAll (P.execute s.parser s.buffer).1).messageComplete := by
  rw [Session.parseHttpData,if_neg h]
  refine ⟨rfl,?_⟩
  simp only
  split <;> rfl

theorem Inv.received {c : Connection P} (hc : Inv c) (hphase : c.phase = .reading)
    (chunk : Bytes) :
    ∃ u : Session P, c.session.received chunk = u ∧
      u.buffer.length+Session.readSize = c.session.buffer.length+chunk.length ∧
      u.parser = c.session.parser ∧ u.handled = c.session.handled ∧
      u.messageComplete = false := by
  obtain ⟨s,hs⟩ := hc.room hphase
  have hcomplete := hc.incomplete
  rw [hs] at hcomplete ⊢
  refine ⟨{ s with buffer := s.buffer++chunk },doRead_received s chunk,?_,rfl,rfl,hcomplete⟩
  rw [doRead_length,List.length_append]
  omega

/-- The session reads on: its buffer has grown by what was received, nothing was handed over
or answered, and the parser is where the error left it. -/
theorem onRead_of_fails {c : Connection P} {chunk : Bytes} (hc : Inv c)
    (hphase : c.phase = .reading) (hne : chunk ≠ []) (h : Fails c chunk) :
    (c.onRead chunk).phase = .reading ∧
    (c.onRead chunk).session.buffer.length = c.session.buffer.length+chunk.length ∧
    (c.onRead chunk).answered = c.answered ∧
    (c.onRead chunk).session.handled = c.session.handled ∧
    (c.onRead chunk).session.parser = (answer c chunk).2.2 := by
  obtain ⟨u,hu,hbuffer,hparser,hhandled,hcomplete⟩ := hc.received hphase chunk
  have hne' : u.buffer ≠ [] := fun hnil => by
    have hlen := List.length_pos_iff.mpr hne
    obtain ⟨s,hs⟩ := hc.room hphase
    rw [hnil,hs,doRead_length,List.length_nil] at hbuffer
    omega
  have hanswer : answer c chunk = P.execute u.parser u.buffer := by rw [answer,hu,hparser]
  obtain ⟨hnext,hm⟩ := parseHttpData_of_ne hne'
  have hincomplete : u.parseHttpData.messageComplete = false := by
    rw [hm,← hanswer]
    exact applyAll_incomplete hcomplete h.2
  have hread : c.onRead chunk = Connection.doRead { c with session := u.parseHttpData } := by
    rw [Connection.onRead,hu]
    exact if_neg (by simp [hincomplete])
  rw [hread,hanswer]
  refine ⟨rfl,?_,rfl,?_,hnext⟩
  · rw [Connection.doRead_session,doRead_length,parseHttpData_buffer,hbuffer]
  · exact (parseHttpData_handled u).trans hhandled

theorem reads_on {c : Connection P} (hP : Sticky P) (hc : Inv c) (hphase : c.phase = .reading)
    {st : P.State} {bs : Bytes} (hparser : c.session.parser = (P.execute st bs).2.2)
    (hfailed : (P.execute st bs).2.1 = false) {chunks : List Bytes}
    (hchunks : ∀ chunk ∈ chunks, chunk ≠ [] ∧ chunk.length ≤ Session.readSize) :
    ∃ d, Trace.run Connection.step c (chunks.map .data) = some d ∧ d.phase = .reading ∧
      d.answered = c.answered ∧ d.session.handled = c.session.handled ∧
      d.session.buffer.length = c.session.buffer.length+chunks.flatten.length := by
  induction chunks generalizing c st bs with
  | nil => exact ⟨c,rfl,hphase,rfl,rfl,by simp⟩
  | cons chunk chunks ih =>
    obtain ⟨hne,hlen⟩ := hchunks chunk List.mem_cons_self
    have hanswer := hP st bs (c.session.received chunk).buffer hfailed
    rw [← hparser] at hanswer
    have hfails : Fails c chunk := ⟨hanswer.2,by rw [answer,hanswer.1]; simp⟩
    obtain ⟨hreading,hbuffer,hanswered,hhandled,hnext⟩ := onRead_of_fails hc hphase hne hfails
    have hstep : c.step (.data chunk) = some (c.onRead chunk) := if_pos ⟨hphase,hne,hlen⟩
    obtain ⟨d,hd,hdphase,hdanswered,hdhandled,hdbuffer⟩ :=
      ih (inv_step c _ _ hc hstep) hreading hnext hfails.1
        fun chunk h => hchunks chunk (List.mem_cons_of_mem _ h)
    refine ⟨d,Trace.run_cons.mpr ⟨_,hstep,hd⟩,hdphase,hdanswered.trans hanswered,
      hdhandled.trans hhandled,?_⟩
    rw [hdbuffer,hbuffer,List.flatten_cons,List.length_append]
    omega

/-- No session ends where the parser fails: it reads again, with a larger buffer, and if the
parser stays in its error so does the session, whatever arrives. -/
theorem never_ends {es : List Event} {c d : Connection P} {chunk : Bytes}
    (hrun : Trace.run Connection.step (Connection.start P) es = some c)
    (hstep : c.step (.data chunk) = some d) (h : Fails c chunk) :
    ¬ Ends c d chunk ∧ d.phase = .reading ∧ d.answered = c.answered ∧
    c.session.buffer.length < d.session.buffer.length ∧
    (Sticky P → ∀ chunks : List Bytes,
      (∀ chunk ∈ chunks, chunk ≠ [] ∧ chunk.length ≤ Session.readSize) →
      ∃ e, Trace.run Connection.step d (chunks.map .data) = some e ∧ e.phase = .reading ∧
        e.answered = c.answered ∧ e.session.handled = c.session.handled ∧
        e.session.buffer.length = d.session.buffer.length+chunks.flatten.length) := by
  have hc := inv_run hrun
  obtain ⟨⟨hphase,hne,hlen⟩,hd⟩ := Option.ite_none_right_eq_some.mp hstep
  cases hd
  obtain ⟨hreading,hbuffer,hanswered,hhandled,hparser⟩ := onRead_of_fails hc hphase hne h
  have hpos : 0 < chunk.length := List.length_pos_iff.mpr hne
  refine ⟨fun hends => hends.1 hreading,hreading,hanswered,by omega,fun hP chunks hchunks => ?_⟩
  obtain ⟨e,he,hephase,heanswered,hehandled,hebuffer⟩ :=
    reads_on hP (inv_step c _ _ hc hstep) hreading hparser h.1 hchunks
  exact ⟨e,he,hephase,heanswered.trans hanswered,hehandled.trans hhandled,hebuffer⟩

theorem onBytes_failed {st : ParserState} (h : st.phase = .failed) (bs : Bytes) :
    st.onBytes bs = ([],st) := by
  induction bs with
  | nil => rfl
  | cons b bs ih =>
    have hbyte : st.onByte b = ([],st) := by rw [ParserState.onByte,h]
    rw [ParserState.onBytes,hbyte,ih]
    rfl

theorem sticky_requestParser : Sticky requestParser := by
  intro st bs more h
  have hphase : (ParserState.onBytes st bs).2.phase = .failed := by
    simpa [requestParser] using h
  simp only [requestParser,onBytes_failed hphase more]
  exact ⟨rfl,by simpa using hphase⟩

theorem fails_nul : Fails (Connection.start requestParser) [0] := by
  have hanswer : answer (Connection.start requestParser) [0] = requestParser.execute {} [0] := by
    have hsession : (Connection.start requestParser).session =
        (accepted requestParser).doRead := rfl
    rw [answer,hsession,doRead_received]
    rfl
  rw [Fails,hanswer]
  decide

theorem step_nul : (Connection.start requestParser).step (.data [0]) =
    some ((Connection.start requestParser).onRead [0]) := by
  have hlen : [(0 : UInt8)].length ≤ Session.readSize := by decide
  rw [Connection.step]
  exact if_pos ⟨rfl,by simp,hlen⟩

theorem never_ends_nul :
    let c := Connection.start requestParser
    let d := c.onRead [0]
    ¬ Ends c d [0] ∧ d.phase = .reading ∧ d.answered = c.answered ∧
    c.session.buffer.length < d.session.buffer.length ∧
    ∀ chunks : List Bytes,
      (∀ chunk ∈ chunks, chunk ≠ [] ∧ chunk.length ≤ Session.readSize) →
      ∃ e, Trace.run Connection.step d (chunks.map .data) = some e ∧ e.phase = .reading ∧
        e.answered = c.answered ∧ e.session.handled = c.session.handled ∧
        e.session.buffer.length = d.session.buffer.length+chunks.flatten.length := by
  have hrun : Trace.run Connection.step (Connection.start requestParser) [] =
    some (Connection.start requestParser) := rfl
  obtain ⟨hends,hreading,hanswered,hbuffer,hsticky⟩ := never_ends hrun step_nul fails_nul
  exact ⟨hends,hreading,hanswered,hbuffer,hsticky sticky_requestParser⟩

/-- The session that has received this byte alone reads on. -/
theorem nul_reads_on :
    Fails (Connection.start requestParser) [0] ∧
    ∃ d, (Connection.start requestParser).step (.data [0]) = some d ∧
      ¬ Ends (Connection.start requestParser) d [0] :=
  ⟨fails_nul,_,step_nul,fun hends =>
    hends.1 (onRead_of_fails inv_start rfl (by simp) fails_nul).1⟩

end MalformedInput
end AsioQuickjs
