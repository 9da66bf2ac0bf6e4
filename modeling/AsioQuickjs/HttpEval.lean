import AsioQuickjs.HttpSession
import AsioQuickjs.Splice
import Mathlib.Data.List.TakeWhile

/-! The source text that the request handler of `Host::start_http_server` evaluates
for each request, and when the request stays inside its string literals. -/
namespace AsioQuickjs
namespace HttpEval

open HttpSession JsLiteral

/-- `std::to_string`. -/
def toDecimal (n : ℕ) : Bytes := (Nat.toDigits 10 n).map fun c => c.toNat.toUInt8

/-- The loop over `req.headers`; only the values have their quotes escaped. -/
def headersLoop : Bool → List (Σ _ : Bytes, Bytes) → Bytes
  | _, [] => []
  | first, ⟨k,v⟩::rest => (if first then [] else ascii ", ")++
      (ascii "'"++k++ascii "': '"++escapeQuotes v++ascii "'")++headersLoop false rest

def headersJs (headers : Table Bytes Bytes) : Bytes :=
  ascii "\x7b"++headersLoop true headers.entries++ascii "\x7d"

def requestUrl (port : ℕ) (req : HttpRequest) : Bytes :=
  ascii "http://localhost:"++toDecimal port++req.url

def evalCode (port : ℕ) (req : HttpRequest) : Bytes :=
  ascii "(async () => \x7b"++
  ascii "  var init = \x7b method: '"++req.method++ascii "', headers: "++headersJs req.headers++
    ascii " \x7d;"++
  ascii "  if (__httpBodyTmp != null) init.body = __httpBodyTmp;"++
  ascii "  var request = new Request('"++requestUrl port req++ascii "', init);"++
  ascii "  var response = await globalThis.__httpHandler.get()(request);"++
  ascii "  if (response && response.__streamHandled) \x7b"++
  ascii "    return \x7b __streamHandled: true \x7d;"++
  ascii "  \x7d"++
  ascii "  return await globalThis.__extractResponse(response);"++
  ascii "\x7d)()"

def beforeUrl : Bytes :=
  ascii "\x7d"++ascii " \x7d;"++
  ascii "  if (__httpBodyTmp != null) init.body = __httpBodyTmp;"++
  ascii "  var request = new Request("

def afterUrl : Bytes :=
  ascii ", init);"++
  ascii "  var response = await globalThis.__httpHandler.get()(request);"++
  ascii "  if (response && response.__streamHandled) \x7b"++
  ascii "    return \x7b __streamHandled: true \x7d;"++
  ascii "  \x7d"++
  ascii "  return await globalThis.__extractResponse(response);"++
  ascii "\x7d)()"

/-- The literals for the headers and the URL, with `before` in front of the first. -/
def headerSlots (url : Bytes) :
    Bytes → Bool → List (Σ _ : Bytes, Bytes) → List (Slot UInt8)
  | before, _, [] => [⟨before++beforeUrl,.raw,url⟩]
  | before, first, ⟨k,v⟩::rest =>
    ⟨before++(if first then [] else ascii ", "),.raw,k⟩::
      ⟨ascii ": ",.quotesEscaped,v⟩::headerSlots url [] false rest

/-- The literals of the source, with what they are meant to hold: the method, each
header's name and value, and the URL. -/
def requestSlots (port : ℕ) (req : HttpRequest) : List (Slot UInt8) :=
  ⟨ascii "(async () => \x7b"++ascii "  var init = \x7b method: ",.raw,req.method⟩::
    headerSlots (requestUrl port req) (ascii ", headers: "++ascii "\x7b") true req.headers.entries

/-- Part of what llhttp lets through: methods and header names are tokens, and URLs
and header values have no control characters that end a line or a string. -/
structure Accepted (req : HttpRequest) : Prop where
  method : ∀ b ∈ req.method, 65 ≤ b ∧ b ≤ 90 ∨ b = 45
  names : ∀ e ∈ req.headers.entries, ∀ b ∈ e.1, 33 ≤ b ∧ b ≤ 126 ∧ b ≠ 92
  values : ∀ e ∈ req.headers.entries, ∀ b ∈ e.2, b ≠ 0 ∧ b ≠ 10 ∧ b ≠ 13
  url : ∀ b ∈ req.url, b ≠ 0 ∧ b ≠ 10 ∧ b ≠ 13

theorem ascii_quote : ascii "'" = [39] := rfl

theorem render_headerSlots (url before last : Bytes) (first : Bool)
    (es : List (Σ _ : Bytes, Bytes)) :
    render (headerSlots url before first es) last =
      before++(headersLoop first es++(beforeUrl++39::(url++39::last))) := by
  have hsep : ascii "': '" = 39::(ascii ": "++[39]) := rfl
  induction es generalizing before first with
  | nil => simp [headerSlots,render,headersLoop,Slot.written]
  | cons e es ih =>
    simp only [headerSlots,render,headersLoop,Slot.written,ih,ascii_quote,hsep]
    simp

theorem evalCode_eq (port : ℕ) (req : HttpRequest) :
    evalCode port req = render (requestSlots port req) afterUrl := by
  have hmethod : ascii "  var init = \x7b method: '" = ascii "  var init = \x7b method: "++[39] := rfl
  have hheaders : ascii "', headers: " = 39::ascii ", headers: " := rfl
  have hrequest : ascii "  var request = new Request('" = ascii "  var request = new Request("++[39] := rfl
  have hinit : ascii "', init);" = 39::ascii ", init);" := rfl
  simp only [requestSlots,render,render_headerSlots,Slot.written,evalCode,headersJs,beforeUrl,
    afterUrl,hmethod,hheaders,hrequest,hinit,List.append_assoc,List.cons_append,List.nil_append]

/-- Characters of the template outside its literals. -/
def IsCode (t : Bytes) : Prop := ∀ b ∈ t, b.toNat < 0x80 ∧ b ≠ 39 ∧ b ≠ 0

instance (t : Bytes) : Decidable (IsCode t) := by
  unfold IsCode
  infer_instance

theorem IsCode.append {t u : Bytes} (ht : IsCode t) (hu : IsCode u) : IsCode (t++u) := by
  intro b hb
  rcases List.mem_append.mp hb with hb | hb
  · exact ht b hb
  · exact hu b hb

theorem beforeUrl_isCode : IsCode beforeUrl := by decide

theorem afterUrl_isCode : IsCode afterUrl := by decide +kernel

theorem headerSlots_isCode (url : Bytes) {before : Bytes} (first : Bool)
    (es : List (Σ _ : Bytes, Bytes)) (h : IsCode before) :
    ∀ s ∈ headerSlots url before first es, IsCode s.before := by
  induction es generalizing before first with
  | nil =>
    intro s hs
    obtain rfl : s = ⟨before++beforeUrl,.raw,url⟩ := by simpa [headerSlots] using hs
    exact h.append beforeUrl_isCode
  | cons e es ih =>
    intro s hs
    simp only [headerSlots,List.mem_cons] at hs
    rcases hs with rfl | rfl | hs
    · refine h.append ?_
      cases first <;> decide
    · exact (by decide : IsCode (ascii ": "))
    · exact ih false (by decide) s hs

theorem requestSlots_isCode (port : ℕ) (req : HttpRequest) :
    ∀ s ∈ requestSlots port req, IsCode s.before := by
  intro s hs
  rcases List.mem_cons.mp hs with rfl | hs
  · exact (by decide : IsCode (ascii "(async () => \x7b"++ascii "  var init = \x7b method: "))
  · exact headerSlots_isCode _ true _ (by decide) s hs

theorem forall_headerSlots (Q : Encoding → Bytes → Prop) (url before : Bytes) (first : Bool)
    (es : List (Σ _ : Bytes, Bytes)) :
    (∀ s ∈ headerSlots url before first es, Q s.encoding s.meant) ↔
      Q .raw url ∧ ∀ e ∈ es, Q .raw e.1 ∧ Q .quotesEscaped e.2 := by
  induction es generalizing before first with
  | nil => simp [headerSlots]
  | cons e es ih =>
    have hrest := ih [] false
    simp only [headerSlots,List.forall_mem_cons,hrest]
    tauto

theorem forall_requestSlots (Q : Encoding → Bytes → Prop) (port : ℕ) (req : HttpRequest) :
    (∀ s ∈ requestSlots port req, Q s.encoding s.meant) ↔
      Q .raw req.method ∧ Q .raw (requestUrl port req) ∧
        ∀ e ∈ req.headers.entries, Q .raw e.1 ∧ Q .quotesEscaped e.2 := by
  rw [requestSlots,List.forall_mem_cons,forall_headerSlots]

theorem toDecimal_digit {n : ℕ} {b : UInt8} (h : b ∈ toDecimal n) : 48 ≤ b ∧ b ≤ 57 := by
  obtain ⟨c,hc,rfl⟩ := List.mem_map.mp h
  have hdigit := Char.isDigit_iff_toNat.mp
    (Nat.isDigit_of_mem_toDigits (by decide) (by decide) hc)
  have hlow : '0'.toNat = 48 := rfl
  have hhigh : '9'.toNat = 57 := rfl
  rw [hlow,hhigh] at hdigit
  rw [UInt8.le_iff_toNat_le,UInt8.le_iff_toNat_le]
  simp
  omega

theorem requestUrl_host {port : ℕ} {b : UInt8}
    (h : b ∈ ascii "http://localhost:"++toDecimal port) : 47 ≤ b ∧ b ≤ 122 ∧ b ≠ 92 := by
  rcases List.mem_append.mp h with h | h
  · have hall : ∀ b ∈ ascii "http://localhost:", 47 ≤ b ∧ b ≤ 122 ∧ b ≠ 92 := by decide
    exact hall b h
  · obtain ⟨hlow,hhigh⟩ := toDecimal_digit h
    refine ⟨UInt8.le_trans (by decide) hlow,UInt8.le_trans hhigh (by decide),?_⟩
    rintro rfl
    exact absurd hhigh (by decide)

theorem evalCode_ne_zero (port : ℕ) {req : HttpRequest} (h : Accepted req) :
    ∀ b ∈ evalCode port req, b ≠ 0 := by
  rw [evalCode_eq]
  refine forall_render (fun s hs b hb => (requestSlots_isCode port req s hs b hb).2.2)
    (fun b hb => (afterUrl_isCode b hb).2.2) ?_ (by decide) (by decide)
  refine (forall_requestSlots (fun _ m => ∀ b ∈ m, b ≠ 0) port req).mpr ⟨?_,?_,fun e he => ⟨?_,?_⟩⟩
  · rintro b hb rfl
    exact absurd (h.method 0 hb) (by decide)
  · rintro b hb rfl
    rcases List.mem_append.mp hb with hb | hb
    · exact absurd (requestUrl_host hb).1 (by decide)
    · exact (h.url 0 hb).1 rfl
  · rintro b hb rfl
    exact absurd (h.names e he 0 hb).1 (by decide)
  · exact fun b hb => (h.values e he b hb).1

theorem cStr_evalCode (port : ℕ) {req : HttpRequest} (h : Accepted req) :
    cStr (evalCode port req) = evalCode port req := by
  rw [cStr,List.takeWhile_eq_self_iff]
  intro b hb
  simpa using evalCode_ne_zero port h b hb

theorem decode_isSome_of_ascii {bs : Bytes} (h : ∀ b ∈ bs, b.toNat < 0x80) (cs : Bytes) :
    (Utf8.decode (bs++cs)).isSome = (Utf8.decode cs).isSome := by
  rw [Utf8.decode_ascii h]
  cases Utf8.decode cs <;> rfl

theorem method_safe {req : HttpRequest} (h : Accepted req) :
    (Utf8.decode req.method).isSome ∧ 92 ∉ req.method ∧ 39 ∉ req.method := by
  have hascii : ∀ b ∈ req.method, b.toNat < 0x80 := by
    intro b hb
    rcases h.method b hb with ⟨-,hle⟩ | rfl
    · exact Nat.lt_of_le_of_lt (UInt8.le_iff_toNat_le.mp hle) (by decide)
    · decide
  have hdecode := decode_isSome_of_ascii hascii []
  rw [List.append_nil] at hdecode
  exact ⟨hdecode,fun hb => absurd (h.method _ hb) (by decide),
    fun hb => absurd (h.method _ hb) (by decide)⟩

theorem name_safe {req : HttpRequest} (h : Accepted req) {e : Σ _ : Bytes, Bytes}
    (he : e ∈ req.headers.entries) : (Utf8.decode e.1).isSome ∧ 92 ∉ e.1 := by
  have hascii : ∀ b ∈ e.1, b.toNat < 0x80 := fun b hb =>
    Nat.lt_of_le_of_lt (UInt8.le_iff_toNat_le.mp (h.names e he b hb).2.1) (by decide)
  have hdecode := decode_isSome_of_ascii hascii []
  rw [List.append_nil] at hdecode
  exact ⟨hdecode,fun hb => (h.names e he _ hb).2.2 rfl⟩

theorem requestUrl_safe (port : ℕ) (req : HttpRequest) :
    ((Utf8.decode (requestUrl port req)).isSome ∧ 92 ∉ requestUrl port req ∧
      39 ∉ requestUrl port req) ↔
    (Utf8.decode req.url).isSome ∧ 92 ∉ req.url ∧ 39 ∉ req.url := by
  have hascii : ∀ b ∈ ascii "http://localhost:"++toDecimal port, b.toNat < 0x80 := fun b hb =>
    Nat.lt_of_le_of_lt (UInt8.le_iff_toNat_le.mp (requestUrl_host hb).2.1) (by decide)
  have hslash : 92 ∉ ascii "http://localhost:"++toDecimal port := fun hb =>
    (requestUrl_host hb).2.2 rfl
  have hquote : 39 ∉ ascii "http://localhost:"++toDecimal port := fun hb =>
    absurd (requestUrl_host hb).1 (by decide)
  have hmem (q : UInt8) : q ∈ requestUrl port req ↔
      q ∈ ascii "http://localhost:"++toDecimal port ∨ q ∈ req.url := List.mem_append
  rw [hmem,hmem,requestUrl,decode_isSome_of_ascii hascii]
  simp only [hslash,hquote,false_or]

theorem readsAs_evalCode (port : ℕ) {req : HttpRequest} (h : Accepted req) :
    ReadsAs (cStr (evalCode port req)) (requestSlots port req) afterUrl ↔
      ∀ s ∈ requestSlots port req, s.Safe := by
  have hlines : ∀ s ∈ requestSlots port req, 10 ∉ s.meant ∧ 13 ∉ s.meant := by
    refine (forall_requestSlots (fun _ m => 10 ∉ m ∧ 13 ∉ m) port req).mpr
      ⟨⟨?_,?_⟩,⟨?_,?_⟩,fun e he => ⟨⟨?_,?_⟩,⟨?_,?_⟩⟩⟩
    · exact fun hb => absurd (h.method _ hb) (by decide)
    · exact fun hb => absurd (h.method _ hb) (by decide)
    · intro hb
      rcases List.mem_append.mp hb with hb | hb
      · exact absurd (requestUrl_host hb).1 (by decide)
      · exact (h.url _ hb).2.1 rfl
    · intro hb
      rcases List.mem_append.mp hb with hb | hb
      · exact absurd (requestUrl_host hb).1 (by decide)
      · exact (h.url _ hb).2.2 rfl
    · exact fun hb => absurd (h.names e he _ hb).1 (by decide)
    · exact fun hb => absurd (h.names e he _ hb).1 (by decide)
    · exact fun hb => (h.values e he _ hb).2.1 rfl
    · exact fun hb => (h.values e he _ hb).2.2 rfl
  rw [cStr_evalCode port h,evalCode_eq,readsAs_iff
    (fun s hs b hb => ⟨(requestSlots_isCode port req s hs b hb).1,
      (requestSlots_isCode port req s hs b hb).2.1⟩)
    (fun b hb => ⟨(afterUrl_isCode b hb).1,(afterUrl_isCode b hb).2.1⟩) hlines]

/-- The request's bytes stay data exactly where the URL has no quote and no backslash,
no header name has a quote, no header value has a backslash, and URL and values are
well-formed UTF-8. -/
theorem request_stays_data_iff (port : ℕ) (req : HttpRequest) (h : Accepted req) :
    ReadsAs (cStr (evalCode port req)) (requestSlots port req) afterUrl ↔
      (39 ∉ req.url ∧ 92 ∉ req.url ∧ (Utf8.decode req.url).isSome) ∧
      ∀ e ∈ req.headers.entries, 39 ∉ e.1 ∧ 92 ∉ e.2 ∧ (Utf8.decode e.2).isSome := by
  rw [readsAs_evalCode port h]
  have hall := forall_requestSlots
    (fun enc m => (Utf8.decode m).isSome ∧ 92 ∉ m ∧ (enc = .raw → 39 ∉ m)) port req
  have hurl := requestUrl_safe port req
  have hmethod := method_safe h
  simp only [true_imp_iff,reduceCtorEq,false_imp_iff,and_true] at hall
  rw [hurl] at hall
  refine hall.trans ?_
  constructor
  · rintro ⟨-,⟨hutf,hslash,hquote⟩,hes⟩
    exact ⟨⟨hquote,hslash,hutf⟩,fun e he =>
      ⟨(hes e he).1.2.2,(hes e he).2.2,(hes e he).2.1⟩⟩
  · rintro ⟨⟨hquote,hslash,hutf⟩,hes⟩
    exact ⟨hmethod,⟨hutf,hslash,hquote⟩,fun e he =>
      ⟨⟨(name_safe h he).1,(name_safe h he).2,(hes e he).1⟩,(hes e he).2.2,(hes e he).2.1⟩⟩

/-- `GET /'+run()+'`, a target that the parser accepts. -/
def quotedTarget : HttpRequest := { method := ascii "GET", url := ascii "/'+run()+'" }

/-- `GET /` with a header whose value is a backslash. -/
def backslashHeader : HttpRequest :=
  { method := ascii "GET", url := ascii "/"
    headers := (∅ : Table Bytes Bytes).insert (ascii "x-path") (ascii "\\") }

theorem quotedTarget_accepted : Accepted quotedTarget :=
  ⟨by decide,by decide,by decide,by decide⟩

theorem backslashHeader_accepted : Accepted backslashHeader :=
  ⟨by decide,by decide,by decide,by decide⟩

theorem quotedTarget_spills :
    ¬ ReadsAs (cStr (evalCode 8080 quotedTarget)) (requestSlots 8080 quotedTarget) afterUrl := by
  rw [readsAs_evalCode 8080 quotedTarget_accepted]
  decide

theorem backslashHeader_spills :
    ¬ ReadsAs (cStr (evalCode 8080 backslashHeader)) (requestSlots 8080 backslashHeader)
      afterUrl := by
  rw [readsAs_evalCode 8080 backslashHeader_accepted]
  decide

theorem request_stays_data_iff_sample :
    Accepted quotedTarget ∧
      (ReadsAs (cStr (evalCode 8080 quotedTarget)) (requestSlots 8080 quotedTarget) afterUrl ↔
        (39 ∉ quotedTarget.url ∧ 92 ∉ quotedTarget.url ∧ (Utf8.decode quotedTarget.url).isSome) ∧
        ∀ e ∈ quotedTarget.headers.entries,
          39 ∉ e.1 ∧ 92 ∉ e.2 ∧ (Utf8.decode e.2).isSome) :=
  ⟨quotedTarget_accepted,request_stays_data_iff 8080 quotedTarget quotedTarget_accepted⟩

/-- A quote in the target ends the URL's literal, and `run()` is evaluated; a backslash
at the end of a value takes the closing quote with it. -/
theorem request_becomes_code :
    Accepted quotedTarget ∧
      ¬ ReadsAs (cStr (evalCode 8080 quotedTarget)) (requestSlots 8080 quotedTarget) afterUrl ∧
      (.code ((ascii "+run()+").map (·.toNat)) : Seg) ∈
        ((Utf8.decode (evalCode 8080 quotedTarget)).bind lex).getD [] ∧
      Accepted backslashHeader ∧
      ¬ ReadsAs (cStr (evalCode 8080 backslashHeader)) (requestSlots 8080 backslashHeader)
        afterUrl :=
  ⟨quotedTarget_accepted,quotedTarget_spills,by decide +kernel,backslashHeader_accepted,
    backslashHeader_spills⟩

end HttpEval
end AsioQuickjs
