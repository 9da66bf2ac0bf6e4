import AsioQuickjs.HttpHost
import AsioQuickjs.HttpMessage

/-! The bytes of a response, from the value a handler returns to what
`HttpSession::send_response` writes, and when a client reads them as that response. -/
namespace AsioQuickjs
namespace HttpHost

open HttpMessage

/-- `ToInt32` of a number. -/
def toInt32 (z : ℤ) : ℤ := (z+2^31) % 2^32-2^31

/-- A response or plain object as `__extractResponse` reads it: the status as a whole
number (0 where it is none), the status text, the headers, each name once, and the body, if
one of the three sources has it. Where a value is `none`, it does not convert. -/
structure Returned where
  status : ℤ := 0
  statusText : Option Bytes := some []
  headers : List (Bytes × Option Bytes) := []
  body : Option (Option Bytes) := none

/-- What the accessors of the host find in the object that `__extractResponse` makes. A
missing text converts to `undefined` and a missing body to `null`. -/
def extractResponse : Option Returned → Data
  | none =>
    { status := some 204, statusText := some (ascii "undefined"), body := some (ascii "null") }
  | some response =>
    { status := some (toInt32 response.status)
      statusText := response.statusText
      headers := response.headers.filterMap fun h => h.2.map fun v => (h.1,v)
      body := response.body.getD (some (ascii "null")) }

/-- `std::to_string` of an integer. -/
def decimal (z : ℤ) : Bytes := if z < 0 then 45::numeral 10 z.natAbs else numeral 10 z.natAbs

namespace HttpResponse

def reason (resp : HttpResponse) : Bytes :=
  if resp.statusText = [] then ascii "OK" else resp.statusText

/-- The buffer that `send_response` fills. -/
def bytes (resp : HttpResponse) (closeAfterResponse : Bool) : Bytes :=
  ascii "HTTP/1.1 "++(decimal resp.status++(ascii " "++(resp.reason++crlf)))++
  resp.headers.entries.flatMap (fun h => h.1++(ascii ": "++(h.2++crlf)))++
  ((if ascii "content-length" ∈ resp.headers then []
    else ascii "Content-Length: "++(decimal resp.body.length++crlf))++
  (if closeAfterResponse then ascii "Connection: close\r\n"
    else ascii "Connection: keep-alive\r\n"))++
  crlf++resp.body

def size (resp : HttpResponse) (closeAfterResponse : Bool) : ℕ :=
  (decimal resp.status).length+resp.reason.length+14+
  (resp.headers.entries.map fun h => h.1.length+h.2.length+4).sum+
  (if ascii "content-length" ∈ resp.headers then 0 else (decimal resp.body.length).length+18)+
  (if closeAfterResponse then 19 else 24)+resp.body.length

/-- `asio::async_write` hands this many bytes to the socket at a time. -/
def maxTransferSize : ℕ := 65536

/-- What reaches the socket. The first transfer is made before `send_response` returns; by
the next its buffer, a local variable, is gone, and what would be written is undefined. -/
def sent (resp : HttpResponse) (closeAfterResponse : Bool) : Option Bytes :=
  if (resp.bytes closeAfterResponse).length ≤ maxTransferSize then
    some (resp.bytes closeAfterResponse)
  else none

/-- The fields that `send_response` adds to those of the response. -/
def added (resp : HttpResponse) (closeAfterResponse : Bool) : List (Bytes × Bytes) :=
  (if ascii "content-length" ∈ resp.headers then []
    else [(ascii "Content-Length",numeral 10 resp.body.length)])++
  [(ascii "Connection",if closeAfterResponse then ascii "close" else ascii "keep-alive")]

def fields (resp : HttpResponse) (closeAfterResponse : Bool) : List (Bytes × Bytes) :=
  resp.headers.entries.map (fun h => (h.1,h.2))++resp.added closeAfterResponse

/-- What is sent is read as one message, with the status, the fields and the body of the
response, and with one length, which is the size of the body. -/
def Framed (resp : HttpResponse) (closeAfterResponse : Bool) : Prop :=
  ∃ bs ∈ resp.sent closeAfterResponse, ∃ m : Message, readMessage bs = some (m,[]) ∧
    (m.status : ℤ) = resp.status ∧ m.reason = resp.reason ∧
    m.fields = resp.fields closeAfterResponse ∧ m.body = resp.body ∧
    ∃ v, valuesOf (ascii "content-length") m.fields = [v] ∧
      readNumber 10 v = some resp.body.length

/-- A response that can be sent: its status has three digits, its texts can stand in a
head, it names the length of its body in small letters only and rightly, its status lets
the body be sent as it is, and all of it goes out in one transfer. -/
structure Sendable (resp : HttpResponse) (closeAfterResponse : Bool) : Prop where
  status : 100 ≤ resp.status ∧ resp.status ≤ 999
  statusText : ∀ b ∈ resp.statusText, isFieldChar b
  headers : ∀ h ∈ resp.headers.entries, WellFormed (h.1,h.2)
  length : ∀ h ∈ resp.headers.entries, lower h.1 = ascii "content-length" →
    h.1 = ascii "content-length" ∧ readNumber 10 h.2 = some resp.body.length
  body : if bodyless resp.status.toNat then resp.body = []
    else ∀ h ∈ resp.headers.entries, lower h.1 ≠ ascii "transfer-encoding"
  size : resp.size closeAfterResponse ≤ maxTransferSize

/-- A response whose bytes are one message: as `Sendable`, but where the status allows no
body the lengths are not looked at. -/
structure Readable (resp : HttpResponse) : Prop where
  status : 100 ≤ resp.status ∧ resp.status ≤ 999
  statusText : ∀ b ∈ resp.statusText, isFieldChar b
  headers : ∀ h ∈ resp.headers.entries, WellFormed (h.1,h.2)
  body : if bodyless resp.status.toNat then resp.body = []
    else (∀ h ∈ resp.headers.entries, lower h.1 ≠ ascii "transfer-encoding") ∧
      ∀ h ∈ resp.headers.entries, lower h.1 = ascii "content-length" →
        h.1 = ascii "content-length" ∧ readNumber 10 h.2 = some resp.body.length

theorem bytes_eq_renderHead (resp : HttpResponse) (close : Bool) :
    resp.bytes close = renderHead (statusLine (decimal resp.status) resp.reason::
      (resp.fields close).map fieldLine)++resp.body := by
  have hlen : decimal resp.body.length = numeral 10 resp.body.length := by
    simp [decimal]
  have hheaders : resp.headers.entries.flatMap (fun h => h.1++(ascii ": "++(h.2++crlf))) =
      ((resp.headers.entries.map fun h => (h.1,h.2)).map fieldLine).flatMap (·++crlf) := by
    rw [List.flatMap_map,List.flatMap_map]
    congr 1
    funext h
    simp [fieldLine,ascii]
  have hadded : (if ascii "content-length" ∈ resp.headers then []
        else ascii "Content-Length: "++(decimal resp.body.length++crlf))++
      (if close then ascii "Connection: close\r\n" else ascii "Connection: keep-alive\r\n") =
      ((resp.added close).map fieldLine).flatMap (·++crlf) := by
    rw [hlen,added]
    split <;> cases close <;> simp [fieldLine,ascii,crlf]
  rw [bytes,hheaders,hadded,fields,renderHead]
  simp [statusLine,ascii]

theorem length_bytes (resp : HttpResponse) (close : Bool) :
    (resp.bytes close).length = resp.size close := by
  have hheaders : (resp.headers.entries.flatMap
      fun h => h.1++(ascii ": "++(h.2++crlf))).length =
      (resp.headers.entries.map fun h => h.1.length+h.2.length+4).sum := by
    rw [List.length_flatMap]
    congr 2
    funext h
    simp [ascii,crlf]
    omega
  have hlength : (if ascii "content-length" ∈ resp.headers then []
      else ascii "Content-Length: "++(decimal resp.body.length++crlf)).length =
      if ascii "content-length" ∈ resp.headers then 0
      else (decimal resp.body.length).length+18 := by
    split
    · rfl
    · simp [ascii,crlf]
  have hconnection : (if close then ascii "Connection: close\r\n"
      else ascii "Connection: keep-alive\r\n").length = if close then 19 else 24 := by
    cases close <;> rfl
  simp only [bytes,size,List.length_append,hheaders,hlength,hconnection]
  simp [ascii,crlf]
  omega

theorem mem_sent {resp : HttpResponse} {close : Bool} {bs : Bytes} :
    bs ∈ resp.sent close ↔ resp.size close ≤ maxTransferSize ∧ resp.bytes close = bs := by
  rw [sent,length_bytes]
  split <;> simp_all

theorem numeral_clean (n : ℕ) : ∀ b ∈ numeral 10 n, b ≠ 13 ∧ b ≠ 10 ∧ b ≠ 32 := fun b hb =>
  digitVal_clean (readNumber_isSome (readNumber_numeral (by decide) (by decide) n) b hb)

theorem decimal_clean (z : ℤ) : ∀ b ∈ decimal z, b ≠ 13 ∧ b ≠ 10 ∧ b ≠ 32 := by
  rw [decimal]
  split
  · intro b hb
    rcases List.mem_cons.mp hb with rfl | hb
    · decide
    · exact numeral_clean _ b hb
  · exact numeral_clean _

theorem numeral_length {n : ℕ} : (numeral 10 n).length = 3 ↔ 100 ≤ n ∧ n ≤ 999 := by
  have h2 := Nat.length_toDigits_le_iff (b := 10) (n := n) (k := 2) (by decide) (by decide)
  have h3 := Nat.length_toDigits_le_iff (b := 10) (n := n) (k := 3) (by decide) (by decide)
  rw [numeral,List.length_map]
  omega

theorem decimal_status {z : ℤ} {n : ℕ} :
    (decimal z).length = 3 ∧ readNumber 10 (decimal z) = some n ↔
      (100 ≤ z ∧ z ≤ 999) ∧ (n : ℤ) = z := by
  by_cases hz : z < 0
  · have hread : readNumber 10 (45::numeral 10 z.natAbs) = none := by
      simp [readNumber,readDigits,digitVal]
    simp only [decimal,hz,if_true,hread]
    constructor
    · rintro ⟨-,h⟩
      cases h
    · rintro ⟨h,-⟩
      omega
  · simp only [decimal,hz,if_false,numeral_length,Option.some.injEq,
      readNumber_numeral (by decide : 1 < 10) (by decide : 10 ≤ 16)]
    omega

theorem reason_chars {resp : HttpResponse} :
    (∀ b ∈ resp.reason, isFieldChar b) ↔ ∀ b ∈ resp.statusText, isFieldChar b := by
  rw [reason]
  split
  · next h =>
    rw [h]
    exact iff_of_true (by decide) (by simp)
  · exact Iff.rfl

theorem wellFormed_length (n : ℕ) : WellFormed (ascii "Content-Length",numeral 10 n) := by
  have hchar : ∀ b ∈ numeral 10 n, isFieldChar b ∧ ¬ isBlank b := fun b hb =>
    digit_fieldChar (readNumber_isSome (readNumber_numeral (by decide) (by decide) n) b hb)
  have hname : ∀ b ∈ ascii "Content-Length", isTokenChar b := by decide
  refine ⟨List.cons_ne_nil _ _,hname,fun b hb => (hchar b hb).1,?_⟩
  rw [trim,List.dropWhile_eq_self_iff.mpr,List.rdropWhile_eq_self_iff.mpr]
  · exact fun hne => (hchar _ (List.getLast_mem hne)).2
  · exact fun hne => (hchar _ (List.getElem_mem hne)).2

theorem wellFormed_added (resp : HttpResponse) (close : Bool) :
    ∀ f ∈ resp.added close, WellFormed f := by
  have hclose : WellFormed (ascii "Connection",ascii "close") :=
    ⟨by decide,by decide,by decide,by decide⟩
  have hkeep : WellFormed (ascii "Connection",ascii "keep-alive") :=
    ⟨by decide,by decide,by decide,by decide⟩
  have hlength := wellFormed_length resp.body.length
  intro f hf
  rcases List.mem_append.mp hf with hf | hf
  · split at hf
    · cases hf
    · rw [List.mem_singleton.mp hf]
      exact hlength
  · rw [List.mem_singleton.mp hf]
    cases close
    · exact hkeep
    · exact hclose

theorem wellFormed_fields {resp : HttpResponse} {close : Bool} :
    (∀ f ∈ resp.fields close, WellFormed f) ↔
      ∀ h ∈ resp.headers.entries, WellFormed (h.1,h.2) := by
  constructor
  · intro hall h hh
    exact hall _ (List.mem_append_left _ (List.mem_map_of_mem hh))
  · intro hall f hf
    rcases List.mem_append.mp hf with hf | hf
    · obtain ⟨h,hh,rfl⟩ := List.mem_map.mp hf
      exact hall h hh
    · exact wellFormed_added resp close f hf

theorem valuesOf_entries_nil {headers : Table Bytes Bytes} {k : Bytes} :
    valuesOf k (headers.entries.map fun h => (h.1,h.2)) = [] ↔
      ∀ h ∈ headers.entries, lower h.1 ≠ k :=
  valuesOf_eq_nil.trans List.forall_mem_map

theorem valuesOf_transferEncoding {resp : HttpResponse} {close : Bool} :
    valuesOf (ascii "transfer-encoding") (resp.fields close) = [] ↔
      ∀ h ∈ resp.headers.entries, lower h.1 ≠ ascii "transfer-encoding" := by
  have hadded : valuesOf (ascii "transfer-encoding") (resp.added close) = [] := by
    rw [added]
    split <;> cases close <;> rfl
  rw [fields,valuesOf_append,hadded,List.append_nil,valuesOf_entries_nil]

theorem valuesOf_contentLength {resp : HttpResponse} {close : Bool} :
    valuesOf (ascii "content-length") (resp.fields close) =
      valuesOf (ascii "content-length") (resp.headers.entries.map fun h => (h.1,h.2))++
        if ascii "content-length" ∈ resp.headers then [] else [numeral 10 resp.body.length] := by
  have hadded : valuesOf (ascii "content-length") (resp.added close) =
      if ascii "content-length" ∈ resp.headers then [] else [numeral 10 resp.body.length] := by
    rw [added]
    split <;> cases close <;> rfl
  rw [fields,valuesOf_append,hadded]

/-- Where a table has a field under its small name, it is the only one of that name, unless
the table has it in other letters too. -/
theorem valuesOf_eq_singleton {headers : Table Bytes Bytes} {k v : Bytes}
    (hkey : k ∈ headers) (hlower : lower k = k) :
    valuesOf k (headers.entries.map fun h => (h.1,h.2)) = [v] ↔
      ∀ h ∈ headers.entries, lower h.1 = k → h.1 = k ∧ h.2 = v := by
  obtain ⟨w,hw⟩ := List.exists_of_mem_keys hkey
  have hmem : ∀ f, f ∈ (headers.entries.map fun h => (h.1,h.2)).filter (lower ·.1 = k) ↔
      ⟨f.1,f.2⟩ ∈ headers.entries ∧ lower f.1 = k := by
    intro f
    rw [List.mem_filter,decide_eq_true_iff,and_congr_left_iff]
    refine fun _ => ⟨fun hf => ?_,fun hf => List.mem_map.mpr ⟨_,hf,rfl⟩⟩
    obtain ⟨h,hh,rfl⟩ := List.mem_map.mp hf
    exact hh
  constructor
  · intro hone h hh hname
    obtain ⟨f,hf,rfl⟩ := List.map_eq_singleton_iff.mp hone
    have hkf : (k,w) = f := by
      rw [← List.mem_singleton,← hf,hmem]
      exact ⟨hw,hlower⟩
    have hhf : (h.1,h.2) = f := by
      rw [← List.mem_singleton,← hf,hmem]
      exact ⟨hh,hname⟩
    exact ⟨by rw [← hkf] at hhf; exact (Prod.mk.inj hhf).1,by rw [← hhf]⟩
  · intro hall
    have hnodup : ((headers.entries.map fun h => (h.1,h.2)).filter (lower ·.1 = k)).Nodup :=
      ((headers.nodupKeys.nodup).map fun a b hab => by
        cases a
        cases b
        simpa using hab).filter _
    have hrep := List.eq_replicate_of_mem (a := (k,v)) fun f hf =>
      have hf := (hmem f).mp hf
      Prod.ext (hall _ hf.1 hf.2).1 (hall _ hf.1 hf.2).2
    have hlen : ((headers.entries.map fun h => (h.1,h.2)).filter (lower ·.1 = k)).length = 1 := by
      refine le_antisymm ?_ (List.length_pos_of_mem ((hmem (k,w)).mpr ⟨hw,hlower⟩))
      rw [hrep,List.nodup_replicate] at hnodup
      exact hnodup
    rw [valuesOf,hrep,hlen]
    rfl

theorem one_length {resp : HttpResponse} {close : Bool} :
    (∃ v, valuesOf (ascii "content-length") (resp.fields close) = [v] ∧
        readNumber 10 v = some resp.body.length) ↔
      ∀ h ∈ resp.headers.entries, lower h.1 = ascii "content-length" →
        h.1 = ascii "content-length" ∧ readNumber 10 h.2 = some resp.body.length := by
  rw [valuesOf_contentLength]
  split
  · next hkey =>
    simp only [List.append_nil,valuesOf_eq_singleton hkey rfl]
    constructor
    · rintro ⟨v,hall,hlen⟩ h hh hname
      obtain ⟨hk,rfl⟩ := hall h hh hname
      exact ⟨hk,hlen⟩
    · intro hall
      obtain ⟨v,hv⟩ := List.exists_of_mem_keys hkey
      refine ⟨v,fun h hh hname => ⟨(hall h hh hname).1,?_⟩,(hall _ hv rfl).2⟩
      obtain ⟨k,w⟩ := h
      obtain rfl : k = _ := (hall _ hh hname).1
      exact resp.headers.nodupKeys.eq_of_mk_mem hh hv
  · next hkey =>
    have hnone : (∀ h ∈ resp.headers.entries, lower h.1 = ascii "content-length" →
        h.1 = ascii "content-length" ∧ readNumber 10 h.2 = some resp.body.length) ↔
        ∀ h ∈ resp.headers.entries, lower h.1 ≠ ascii "content-length" :=
      forall₂_congr fun h hh => imp_congr_right fun _ => iff_false_intro fun hk =>
        hkey (hk.1 ▸ List.mem_keys_of_mem hh)
    rw [hnone,← valuesOf_entries_nil]
    constructor
    · rintro ⟨v,hv,-⟩
      exact List.eq_nil_of_length_eq_zero (by simpa using congrArg List.length hv)
    · intro hnil
      exact ⟨_,by rw [hnil]; rfl,readNumber_numeral (by decide) (by decide) _⟩

theorem readMessage_bytes {resp : HttpResponse} {close : Bool} {m : Message} :
    (readMessage (resp.bytes close) = some (m,[]) ∧ (m.status : ℤ) = resp.status ∧
        m.reason = resp.reason ∧ m.fields = resp.fields close) ↔
      ((100 ≤ resp.status ∧ resp.status ≤ 999) ∧ (∀ b ∈ resp.statusText, isFieldChar b) ∧
        ∀ h ∈ resp.headers.entries, WellFormed (h.1,h.2)) ∧
      ((m.status : ℤ) = resp.status ∧ m.reason = resp.reason ∧ m.fields = resp.fields close) ∧
      readBody resp.status.toNat (resp.fields close) resp.body = some (m.body,[]) := by
  have hread := @readMessage_renderHead (decimal resp.status) resp.reason resp.body []
    (resp.fields close) m (decimal_clean resp.status)
  rw [← bytes_eq_renderHead,decimal_status,reason_chars,wellFormed_fields] at hread
  constructor
  · rintro ⟨hm,hstatus,hreason,hfields⟩
    obtain ⟨⟨hrange,-⟩,hparts,-,hbody⟩ := hread.mp ⟨hm,hreason,hfields⟩
    rw [← hstatus,Int.toNat_natCast]
    exact ⟨⟨by rwa [hstatus],hparts⟩,⟨rfl,hreason,hfields⟩,hbody⟩
  · rintro ⟨⟨hrange,hparts⟩,⟨hstatus,hreason,hfields⟩,hbody⟩
    rw [← hstatus,Int.toNat_natCast] at hbody
    obtain ⟨hm,-⟩ := hread.mpr ⟨⟨hrange,hstatus⟩,hparts,⟨hreason,hfields⟩,hbody⟩
    exact ⟨hm,hstatus,hreason,hfields⟩

theorem exists_status {resp : HttpResponse} (h : 100 ≤ resp.status ∧ resp.status ≤ 999) :
    ∃ n : ℕ, (n : ℤ) = resp.status :=
  ⟨resp.status.toNat,Int.toNat_of_nonneg (by omega)⟩

theorem readable_iff (resp : HttpResponse) (close : Bool) :
    (∃ m : Message, readMessage (resp.bytes close) = some (m,[]) ∧
        (m.status : ℤ) = resp.status ∧ m.reason = resp.reason ∧ m.fields = resp.fields close) ↔
      resp.Readable := by
  have hcl : valuesOf (ascii "content-length") (resp.fields close) ≠ [] := by
    rw [valuesOf_contentLength]
    split
    · next hkey =>
      obtain ⟨v,hv⟩ := List.exists_of_mem_keys hkey
      rw [List.append_nil]
      exact fun hnil => valuesOf_entries_nil.mp hnil _ hv rfl
    · simp
  have hframe := @readBody_whole resp.status.toNat (resp.fields close) resp.body hcl
  rw [valuesOf_transferEncoding,one_length] at hframe
  constructor
  · rintro ⟨m,hm,hhead⟩
    obtain ⟨⟨hrange,htext,hwell⟩,-,hbody⟩ := readMessage_bytes.mp ⟨hm,hhead⟩
    exact ⟨hrange,htext,hwell,hframe.mp ⟨_,hbody⟩⟩
  · intro h
    obtain ⟨n,hn⟩ := exists_status h.status
    obtain ⟨body,hbody⟩ := hframe.mpr h.body
    obtain ⟨hm,-⟩ := (@readMessage_bytes resp close
      ⟨n,resp.reason,resp.fields close,body⟩).mpr
      ⟨⟨h.status,h.statusText,h.headers⟩,⟨hn,rfl,rfl⟩,hbody⟩
    exact ⟨_,hm,hn,rfl,rfl⟩

end HttpResponse

end HttpHost
end AsioQuickjs
