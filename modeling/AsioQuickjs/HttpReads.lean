import AsioQuickjs.HttpParser
import Mathlib.Data.List.Infix

/-! What the successive socket reads of a session pass to its parser. A read adds
its bytes to the buffer, and the whole buffer is parsed again after each read, so
a request reaches the parser unchanged only when a single read delivers it. -/
namespace AsioQuickjs
namespace HttpSession

variable {P : Llhttp}

theorem doRead_received (s : Session P) (chunk : Bytes) :
    s.doRead.received chunk = { s with buffer := s.buffer++chunk } := by
  simp [Session.received,Session.doRead,List.take_append]

@[simp] theorem parseHttpData_fed (s : Session P) :
    s.parseHttpData.fed = s.fed++s.buffer := by
  rw [Session.parseHttpData]
  split
  · next h => simp [h]
  · rfl

@[simp] theorem parseHttpData_buffer (s : Session P) : s.parseHttpData.buffer = s.buffer := by
  rw [Session.parseHttpData]
  split <;> rfl

@[simp] theorem parseHttpData_handled (s : Session P) : s.parseHttpData.handled = s.handled := by
  rw [Session.parseHttpData]
  split <;> rfl

@[simp] theorem onRead_fed (s : Session P) (chunk : Bytes) :
    (s.doRead.onRead chunk).fed = s.fed++(s.buffer++chunk) := by
  rw [Session.onRead,doRead_received]
  split <;> simp [Session.handleRequest]

theorem onRead_buffer {s : Session P} {chunk : Bytes}
    (h : (s.doRead.onRead chunk).handled = s.handled) :
    (s.doRead.onRead chunk).buffer = s.buffer++chunk := by
  rw [Session.onRead,doRead_received] at *
  split
  · next hm =>
    rw [if_pos hm] at h
    simp [Session.handleRequest] at h
  · simp

@[simp] theorem reads_nil (s : Session P) : s.reads [] = s := rfl

@[simp] theorem reads_cons (s : Session P) (c : Bytes) (cut : List Bytes) :
    s.reads (c::cut) = (s.doRead.onRead c).reads cut := rfl

theorem length_le_reads_fed (s : Session P) (cut : List Bytes) :
    s.fed.length+cut.flatten.length ≤ (s.reads cut).fed.length := by
  induction cut generalizing s with
  | nil => simp
  | cons c cut ih =>
    have hstep := ih (s.doRead.onRead c)
    rw [onRead_fed] at hstep
    simp only [reads_cons,List.flatten_cons,List.length_append] at hstep ⊢
    omega

theorem reads_singleton (b : Bytes) : (accepted P).reads [b] = inOnePiece P b := by
  simp only [reads_cons,reads_nil,Session.onRead,doRead_received]
  rfl

/-- A request's bytes cut into the reads that deliver them: no piece is empty or
larger than a read, and no proper part of the cut already completes a message. -/
structure Cut (P : Llhttp) (cut : List Bytes) : Prop where
  nonempty : cut ≠ []
  pieces : ∀ c ∈ cut, c ≠ [] ∧ c.length ≤ Session.readSize
  early : ∀ p ∈ cut.inits, p ≠ cut → (inOnePiece P p.flatten).handled = []

theorem Cut.overfed {c d : Bytes} {cut : List Bytes} (h : Cut P (c::d::cut)) :
    (c::d::cut).flatten.length < ((accepted P).reads (c::d::cut)).fed.length := by
  have hc : c ≠ [] := (h.pieces c (by simp)).1
  have hfirst : ((accepted P).doRead.onRead c).handled = [] := by
    have he := h.early [c] (by simp [List.mem_inits]) (by simp)
    rw [List.flatten_singleton,← reads_singleton] at he
    exact he
  have hbuffer := onRead_buffer hfirst
  have hrest := length_le_reads_fed (((accepted P).doRead.onRead c).doRead.onRead d) cut
  rw [onRead_fed,onRead_fed,hbuffer] at hrest
  have hpos : 0 < c.length := List.length_pos_iff.mpr hc
  simp only [reads_cons,accepted,List.flatten_cons,List.length_append,List.length_nil] at hrest ⊢
  omega

/-- Fragmentation goes unnoticed exactly when there is none. -/
theorem reads_invisible_iff (P : Llhttp) (cut : List Bytes) (h : Cut P cut) :
    (((accepted P).reads cut).fed = cut.flatten ∧
      ((accepted P).reads cut).handled = (inOnePiece P cut.flatten).handled) ↔
    cut.length = 1 := by
  match cut,h with
  | [],h => exact absurd rfl h.nonempty
  | [b],_ =>
    rw [reads_singleton]
    simp only [List.flatten_singleton,List.length_singleton,and_true,iff_true]
    rw [← reads_singleton]
    simp [accepted]
  | c::d::cut,h =>
    have hlong := h.overfed
    constructor
    · rintro ⟨hfed,-⟩
      rw [hfed] at hlong
      exact absurd hlong (lt_irrefl _)
    · intro hlen
      simp at hlen

def headThenBody : List Bytes :=
  [ascii "POST / HTTP/1.1\r\nContent-Length: 5\r\n\r\n",ascii "hello"]

theorem headThenBody_cut : Cut requestParser headThenBody :=
  ⟨by decide,by decide +kernel,by decide +kernel⟩

theorem reads_invisible_iff_sample :
    Cut requestParser headThenBody ∧
      ((((accepted requestParser).reads headThenBody).fed = headThenBody.flatten ∧
        ((accepted requestParser).reads headThenBody).handled =
          (inOnePiece requestParser headThenBody.flatten).handled) ↔ headThenBody.length = 1) :=
  ⟨headThenBody_cut,reads_invisible_iff requestParser headThenBody headThenBody_cut⟩

/-- The head is parsed a second time as the start of the body, the rest of the body
as the start of another request, and the handler never runs. -/
theorem second_read_loses_request :
    Cut requestParser headThenBody ∧
      ((accepted requestParser).reads headThenBody).fed ≠ headThenBody.flatten ∧
      ((accepted requestParser).reads headThenBody).handled = [] ∧
      (inOnePiece requestParser headThenBody.flatten).handled.map (·.body) = [ascii "hello"] :=
  ⟨headThenBody_cut,by decide +kernel,by decide +kernel,by decide +kernel⟩

end HttpSession
end AsioQuickjs
