import AsioQuickjs.HttpMessage
import AsioQuickjs.RequestInput
import AsioQuickjs.TextEncoder

/-! What of a `Request` reaches curl: the options that `fetch` passes on, `parse_options` of
fetch.cpp and `Transfer::start`. -/
namespace AsioQuickjs
namespace RequestWire

open HttpMessage (fieldLine readField renderHead splitHead crlf)
open JsText (isHigh isLow)
open RequestJs (Content Init Input Reached Request Validated bind_eq_ok complete construct
  construct_eq isMethodToken lookup methodsWithoutBody normalizeMethod normalizeMethod_string
  normalized toUpperCase validate)

structure Options where
  url : JsString
  method : JsString
  headers : List (JsString × JsString)
  body : Option Content
  followRedirects : Bool
  failOnRedirect : Bool

def headersToPairs (headers : Headers) : List (JsString × JsString) :=
  headers.list.map fun p => (p.1,p.2)

/-- `opts` -/
def optionsOf (request : Request) : Options where
  url := request.url
  method := request.method
  headers := headersToPairs request.headers
  body := request.content
  followRedirects := !request.redirect.isText "error" && !request.redirect.isText "manual"
  failOnRedirect := request.redirect.isText "error"

def codePoints : JsString → List ℕ
  | [] => []
  | [t] => [t]
  | t::v::us =>
    if isHigh t && isLow v then (0x10000+(t-0xD800)*0x400+(v-0xDC00))::codePoints us
    else t::codePoints (v::us)

def utf8 (s : JsString) : Bytes :=
  (codePoints s).flatMap fun t => (TextEncoder.utf8 t).map Nat.toUInt8

/-- The `std::string` of what `JS_ToCString` gives. -/
def toCString (s : JsString) : Bytes := cStr (utf8 s)

structure FetchOptions where
  url : Bytes
  method : Bytes
  headers : List (Bytes × Bytes)
  body : Bytes
  followRedirects : Bool
  failOnRedirect : Bool
  timeoutSec : ℕ := 30

def jsPropBytes : Option Content → Bytes
  | none => []
  | some (.text s) => toCString s
  | some (.bytes v) => v.bytes

/-- The length is an `int32_t`. -/
def parseOptions (opts : Options) : Except JsError FetchOptions :=
  if toCString opts.url = [] then .error (.typeError (js "fetch url missing"))
  else .ok
    { url := toCString opts.url
      method := if toCString opts.method = [] then ascii "GET" else toCString opts.method
      headers := (opts.headers.take (int32OfUInt64 opts.headers.length).toNat).map fun p =>
        (toCString p.1,toCString p.2)
      body := jsPropBytes opts.body
      followRedirects := opts.followRedirects
      failOnRedirect := opts.failOnRedirect }

/-- The options of an easy handle. -/
inductive Opt
  | url (s : Bytes)
  | followLocation (b : Bool)
  | maxRedirs (n : ℕ)
  | userAgent (s : Bytes)
  | acceptEncoding (s : Bytes)
  | timeout (n : ℕ)
  | httpGet
  | nobody
  | post
  | postFields (body : Bytes)
  | customRequest (method : Bytes)
  | httpHeader (lines : List Bytes)
  deriving DecidableEq

def methodOpts (o : FetchOptions) : List Opt :=
  let method := if o.method = [] then ascii "GET" else o.method
  if method = ascii "GET" then [.httpGet]
  else if method = ascii "HEAD" then [.nobody]
  else if method = ascii "POST" then [.post,.postFields o.body]
  else if method = ascii "PUT" then [.customRequest (ascii "PUT"),.postFields o.body]
  else .customRequest (cStr method)::(if o.body = [] then [] else [.postFields o.body])

/-- The line that `curl_slist_append` copies. -/
def headerLine (h : Bytes × Bytes) : Bytes := cStr (h.1++ascii ": "++h.2)

def headerOpts (o : FetchOptions) : List Opt :=
  if o.headers = [] then [] else [.httpHeader (o.headers.map headerLine)]

def start (o : FetchOptions) : List Opt :=
  [.url (cStr o.url),.followLocation o.followRedirects,.maxRedirs 20,
    .userAgent (ascii "asio-quickjs-ng/0.1"),.acceptEncoding [],.timeout o.timeoutSec]++
  methodOpts o++headerOpts o

def Opt.custom : Opt → Option Bytes
  | .customRequest m => some m
  | _ => none

def verb (os : List Opt) : Bytes :=
  (os.findSome? Opt.custom).getD
    (if .nobody ∈ os then ascii "HEAD" else if .post ∈ os then ascii "POST" else ascii "GET")

def Opt.fields : Opt → Option Bytes
  | .postFields b => some b
  | _ => none

def postBody (os : List Opt) : Bytes := (os.findSome? Opt.fields).getD []

def Opt.lines : Opt → List Bytes
  | .httpHeader ls => ls
  | _ => []

def headerLines (os : List Opt) : List Bytes := os.flatMap Opt.lines

theorem codePoints_latin1 {s : JsString} (hs : ∀ u ∈ s, u ≤ 0xff) : codePoints s = s := by
  induction s using codePoints.induct with
  | case1 => rfl
  | case2 t => rfl
  | case3 t v us h ih =>
    have ht := hs t (by simp)
    simp only [isHigh,Bool.and_eq_true,decide_eq_true_eq] at h
    omega
  | case4 t v us h ih =>
    rw [codePoints,if_neg h,ih fun u hu => hs u (List.mem_cons_of_mem t hu)]

/-- The bytes of a unit of eight bits: itself, or two that are no control characters. -/
theorem utf8_latin1 {u : ℕ} (hu : u ≤ 0xff) :
    (u < 0x80 ∧ (TextEncoder.utf8 u).map Nat.toUInt8 = [u.toUInt8]) ∨
      ∃ a b : UInt8, (TextEncoder.utf8 u).map Nat.toUInt8 = [a,b] ∧ 0x80 ≤ a.toNat ∧
        0x80 ≤ b.toNat := by
  rw [TextEncoder.utf8]
  split
  next h => exact .inl ⟨h,rfl⟩
  next h =>
    have hfirst : (u/0x40+0xC0).toUInt8.toNat = u/0x40+0xC0 :=
      TextEncoder.toNat_toUInt8 (by omega)
    have hsecond : (u % 0x40+0x80).toUInt8.toNat = u % 0x40+0x80 :=
      TextEncoder.toNat_toUInt8 (by omega)
    rw [if_pos (by omega)]
    exact .inr ⟨_,_,rfl,by omega,by omega⟩

theorem utf8_cons {u : ℕ} {s : JsString} (hs : ∀ v ∈ u::s, v ≤ 0xff) :
    utf8 (u::s) = (TextEncoder.utf8 u).map Nat.toUInt8++utf8 s := by
  rw [utf8,utf8,codePoints_latin1 hs,codePoints_latin1 fun v hv => hs v (List.mem_cons_of_mem u hv),
    List.flatMap_cons]

theorem utf8_concat {u : ℕ} {s : JsString} (hs : ∀ v ∈ s++[u], v ≤ 0xff) :
    utf8 (s++[u]) = utf8 s++(TextEncoder.utf8 u).map Nat.toUInt8 := by
  rw [utf8,utf8,codePoints_latin1 hs,codePoints_latin1 fun v hv => hs v (by simp [hv]),
    List.flatMap_append,List.flatMap_singleton]

/-- The bytes of a string of units of eight bits: its ASCII units, and others that are not
ASCII. -/
theorem mem_utf8 {s : JsString} (hs : ∀ u ∈ s, u ≤ 0xff) {b : UInt8} (hb : b ∈ utf8 s) :
    (b.toNat ∈ s ∧ b.toNat < 0x80) ∨ 0x80 ≤ b.toNat := by
  rw [utf8,codePoints_latin1 hs] at hb
  obtain ⟨u,hu,hb⟩ := List.mem_flatMap.mp hb
  obtain ⟨hlt,heq⟩ | ⟨c,d,heq,hc,hd⟩ := utf8_latin1 (hs u hu)
  · rw [heq,List.mem_singleton] at hb
    subst hb
    rw [TextEncoder.toNat_toUInt8 (by omega)]
    exact .inl ⟨hu,hlt⟩
  · rw [heq] at hb
    simp only [List.mem_cons,List.not_mem_nil,or_false] at hb
    obtain rfl | rfl := hb
    · exact .inr hc
    · exact .inr hd

theorem utf8_ascii {s : JsString} (hs : ∀ u ∈ s, u < 0x80) : utf8 s = s.map Nat.toUInt8 := by
  induction s with
  | nil => rfl
  | cons u s ih =>
    obtain ⟨hu,htail⟩ := List.forall_mem_cons.mp hs
    have hone : TextEncoder.utf8 u = [u] := by rw [TextEncoder.utf8,if_pos hu]
    rw [utf8_cons fun v hv => (hs v hv).le.trans (by decide),ih htail,hone]
    rfl

theorem cStr_of_ne {b : Bytes} (h : ∀ x ∈ b, x ≠ 0) : cStr b = b :=
  List.takeWhile_eq_self_iff.mpr fun x hx => decide_eq_true (h x hx)

section

open HeaderList (Normal)

variable {p : JsString × JsString}

theorem token_lt : ∀ c < 256, Headers.isToken c = true →
    c < 0x80 ∧ HttpMessage.isTokenChar c.toUInt8 = true ∧ c.toUInt8 ≠ 0 := by
  decide +kernel

theorem isToken_lt {c : ℕ} (h : Headers.isToken c = true) : c < 0x80 := by
  simp only [Headers.isToken,Bool.or_eq_true,Bool.and_eq_true,decide_eq_true_eq,
    List.contains_iff_mem,List.mem_cons,List.not_mem_nil,or_false] at h
  omega

theorem toCString_token {s : JsString} (hs : ∀ c ∈ s, Headers.isToken c = true) :
    toCString s = s.map Nat.toUInt8 ∧
      ∀ b ∈ s.map Nat.toUInt8, HttpMessage.isTokenChar b = true := by
  have hbyte : ∀ b ∈ s.map Nat.toUInt8, HttpMessage.isTokenChar b = true ∧ b ≠ 0 := by
    intro b hb
    obtain ⟨c,hc,rfl⟩ := List.mem_map.mp hb
    exact (token_lt c ((isToken_lt (hs c hc)).trans (by decide)) (hs c hc)).2
  refine ⟨?_,fun b hb => (hbyte b hb).1⟩
  rw [toCString,utf8_ascii fun c hc => isToken_lt (hs c hc),cStr_of_ne fun b hb => (hbyte b hb).2]

theorem value_bytes (h : Normal p) {b : UInt8} (hb : b ∈ utf8 p.2) : b ≠ 0 ∧ b ≠ 13 ∧ b ≠ 10 := by
  have hmem := mem_utf8 (fun u hu => (h.value u hu).1) hb
  have hne {c : UInt8} (hc : c.toNat = 0 ∨ c.toNat = 13 ∨ c.toNat = 10) : b ≠ c := by
    rintro rfl
    obtain ⟨hu,-⟩ | hwide := hmem
    · have hvalue := h.value _ hu
      omega
    · omega
  exact ⟨hne (.inl rfl),hne (.inr (.inl rfl)),hne (.inr (.inr rfl))⟩

theorem toCString_value (h : Normal p) : toCString p.2 = utf8 p.2 :=
  cStr_of_ne fun _ hb => (value_bytes h hb).1

theorem not_isBlank {b : UInt8} (h : Headers.isBlank b.toNat = false ∨ 0x80 ≤ b.toNat) :
    HttpMessage.isBlank b = false := by
  cases hb : HttpMessage.isBlank b with
  | false => rfl
  | true =>
    simp only [HttpMessage.isBlank,Bool.or_eq_true,decide_eq_true_eq] at hb
    obtain rfl | rfl := hb
    · exact absurd h (by decide)
    · exact absurd h (by decide)

theorem unit_not_isBlank {u : ℕ} (hu : u ≤ 0xff) (h : Headers.isBlank u = false) :
    (TextEncoder.utf8 u).map Nat.toUInt8 ≠ [] ∧
      ∀ b ∈ (TextEncoder.utf8 u).map Nat.toUInt8, HttpMessage.isBlank b = false := by
  obtain ⟨hlt,heq⟩ | ⟨c,d,heq,hc,hd⟩ := utf8_latin1 hu
  · rw [heq]
    refine ⟨by simp,fun b hb => not_isBlank (.inl ?_)⟩
    rw [List.mem_singleton] at hb
    rw [hb,TextEncoder.toNat_toUInt8 (by omega)]
    exact h
  · rw [heq]
    refine ⟨by simp,fun b hb => not_isBlank (.inr ?_)⟩
    simp only [List.mem_cons,List.not_mem_nil,or_false] at hb
    obtain rfl | rfl := hb
    · exact hc
    · exact hd

theorem trim_value (h : Normal p) : HttpMessage.trim (utf8 p.2) = utf8 p.2 := by
  have hlatin1 : ∀ u ∈ p.2, u ≤ 0xff := fun u hu => (h.value u hu).1
  have hfirst : (utf8 p.2).dropWhile HttpMessage.isBlank = utf8 p.2 := by
    refine HeaderList.dropWhile_of_head fun b hb => ?_
    cases hv : p.2 with
    | nil => rw [hv] at hb; cases hb
    | cons u us =>
      rw [hv] at hlatin1 hb
      obtain ⟨hne,hblank⟩ := unit_not_isBlank (hlatin1 u (by simp)) (h.first u (by rw [hv]; rfl))
      rw [utf8_cons hlatin1,List.head?_append_of_ne_nil _ hne] at hb
      exact hblank b (List.mem_of_head? hb)
  have hlast : (utf8 p.2).rdropWhile HttpMessage.isBlank = utf8 p.2 := by
    refine List.rdropWhile_eq_self_iff.mpr fun hne => ?_
    obtain hv | ⟨us,u,hv⟩ := List.eq_nil_or_concat p.2
    · rw [hv] at hne
      exact absurd rfl hne
    · rw [List.concat_eq_append] at hv
      have hu : p.2.getLast? = some u := by rw [hv]; simp
      obtain ⟨hnil,hblank⟩ := unit_not_isBlank (hlatin1 u (by rw [hv]; simp)) (h.last u hu)
      have hutf8 : utf8 p.2 = utf8 us++(TextEncoder.utf8 u).map Nat.toUInt8 := by
        rw [hv] at hlatin1 ⊢
        exact utf8_concat hlatin1
      have hmem : (utf8 p.2).getLast hne ∈ (TextEncoder.utf8 u).map Nat.toUInt8 := by
        simp only [hutf8,List.getLast_append_of_ne_nil _ hnil]
        exact List.getLast_mem hnil
      rw [hblank _ hmem]
      decide
  rw [HttpMessage.trim,hfirst,hlast]

theorem headerLine_eq (h : Normal p) :
    headerLine (toCString p.1,toCString p.2) = fieldLine (toCString p.1,toCString p.2) := by
  obtain ⟨hname,htoken⟩ := toCString_token fun c hc => (h.token c hc).1
  have hcat : toCString p.1++ascii ": "++toCString p.2 =
      fieldLine (toCString p.1,toCString p.2) := by
    rw [show ascii ": " = [58,32] by decide,List.append_assoc]
    rfl
  rw [headerLine,hcat]
  refine cStr_of_ne fun b hb => ?_
  rw [fieldLine,hname,toCString_value h] at hb
  obtain hb | hb := List.mem_append.mp hb
  · rintro rfl
    exact absurd (htoken 0 hb) (by decide)
  · obtain rfl | hb := List.mem_cons.mp hb
    · decide
    · obtain rfl | hb := List.mem_cons.mp hb
      · decide
      · exact (value_bytes h hb).1

theorem fieldLine_clean (h : Normal p) :
    HttpMessage.Clean (fieldLine (toCString p.1,toCString p.2)) := by
  obtain ⟨hname,htoken⟩ := toCString_token fun c hc => (h.token c hc).1
  refine ⟨by simp [fieldLine],fun b hb => ?_⟩
  simp only [fieldLine,hname,toCString_value h,List.mem_append,List.mem_cons] at hb
  obtain hb | rfl | rfl | hb := hb
  · have hclean := HttpMessage.isTokenChar_clean (htoken b hb)
    exact ⟨hclean.1,hclean.2.1⟩
  · decide
  · decide
  · exact (value_bytes h hb).2

/-- What a recipient reads in the line: the header, if there is no control character in it. -/
theorem readField_line (h : Normal p) :
    readField (fieldLine (toCString p.1,toCString p.2)) =
      if (toCString p.2).all HttpMessage.isFieldChar then some (toCString p.1,toCString p.2)
      else none := by
  obtain ⟨hname,htoken⟩ := toCString_token fun c hc => (h.token c hc).1
  have hne : toCString p.1 ≠ [] := by
    rw [hname]
    exact mt List.map_eq_nil_iff.mp h.nonempty
  split
  next hchars =>
    exact HttpMessage.readField_fieldLine
      { name_ne_nil := hne
        name_token := by rw [hname]; exact htoken
        value_chars := List.all_eq_true.mp hchars
        value_trim := by rw [toCString_value h]; exact trim_value h }
  next hchars =>
    have hcolon : ∀ b ∈ toCString p.1, decide (b ≠ 58) = true := fun b hb =>
      decide_eq_true (HttpMessage.isTokenChar_clean (htoken b (hname ▸ hb))).2.2
    have hdrop : (toCString p.1++58::32::toCString p.2).dropWhile (· ≠ 58) =
        58::32::toCString p.2 := by
      rw [List.dropWhile_append_of_pos hcolon]
      simp
    have hspace : (32::toCString p.2).all HttpMessage.isFieldChar = false := by
      rw [List.all_cons,Bool.eq_false_of_not_eq_true hchars,Bool.and_false]
    simp only [readField,fieldLine,hdrop,hspace]
    simp

end

section

variable {o : FetchOptions}

theorem start_custom : (start o).findSome? Opt.custom = (methodOpts o).findSome? Opt.custom := by
  have hlast : (headerOpts o).findSome? Opt.custom = none := by
    rw [headerOpts]
    split <;> rfl
  rw [start,List.findSome?_append,List.findSome?_append,hlast,Option.or_none]
  rfl

theorem start_fields : (start o).findSome? Opt.fields = (methodOpts o).findSome? Opt.fields := by
  have hlast : (headerOpts o).findSome? Opt.fields = none := by
    rw [headerOpts]
    split <;> rfl
  rw [start,List.findSome?_append,List.findSome?_append,hlast,Option.or_none]
  rfl

theorem mem_start {op : Opt} (h : op = .nobody ∨ op = .post) :
    op ∈ start o ↔ op ∈ methodOpts o := by
  have hlast : op ∉ headerOpts o := by
    rw [headerOpts]
    split <;> obtain rfl | rfl := h <;> simp
  simp only [start,List.mem_append,or_iff_left hlast]
  obtain rfl | rfl := h <;> simp

theorem methodOpts_cases (hne : o.method ≠ []) :
    o.method = ascii "GET" ∧ methodOpts o = [.httpGet] ∨
    o.method = ascii "HEAD" ∧ methodOpts o = [.nobody] ∨
    o.method = ascii "POST" ∧ methodOpts o = [.post,.postFields o.body] ∨
    o.method = ascii "PUT" ∧ methodOpts o = [.customRequest (ascii "PUT"),.postFields o.body] ∨
    methodOpts o = .customRequest (cStr o.method)::
      (if o.body = [] then [] else [.postFields o.body]) := by
  rw [methodOpts,if_neg hne]
  by_cases hget : o.method = ascii "GET"
  · exact .inl ⟨hget,if_pos hget⟩
  · rw [if_neg hget]
    by_cases hhead : o.method = ascii "HEAD"
    · exact .inr (.inl ⟨hhead,if_pos hhead⟩)
    · rw [if_neg hhead]
      by_cases hpost : o.method = ascii "POST"
      · exact .inr (.inr (.inl ⟨hpost,if_pos hpost⟩))
      · rw [if_neg hpost]
        by_cases hput : o.method = ascii "PUT"
        · exact .inr (.inr (.inr (.inl ⟨hput,if_pos hput⟩)))
        · exact .inr (.inr (.inr (.inr (if_neg hput))))

theorem verb_start (hne : o.method ≠ []) (hclean : cStr o.method = o.method) :
    verb (start o) = o.method := by
  rw [verb,start_custom]
  simp only [mem_start (.inl rfl),mem_start (.inr rfl)]
  obtain ⟨hm,h⟩ | ⟨hm,h⟩ | ⟨hm,h⟩ | ⟨hm,h⟩ | h := methodOpts_cases hne <;> rw [h]
  · rw [hm]; rfl
  · rw [hm]; rfl
  · rw [hm]; rfl
  · rw [hm]; rfl
  · exact hclean

theorem postBody_start (hne : o.method ≠ [])
    (hnone : o.method = ascii "GET" ∨ o.method = ascii "HEAD" → o.body = []) :
    postBody (start o) = o.body := by
  rw [postBody,start_fields]
  obtain ⟨hm,h⟩ | ⟨hm,h⟩ | ⟨-,h⟩ | ⟨-,h⟩ | h := methodOpts_cases hne <;> rw [h]
  · rw [hnone (.inl hm)]; rfl
  · rw [hnone (.inr hm)]; rfl
  · rfl
  · rfl
  · by_cases hb : o.body = []
    · rw [if_pos hb,hb]; rfl
    · rw [if_neg hb]; rfl

end

theorem zero_mem_codePoints (s : JsString) : 0 ∈ codePoints s ↔ 0 ∈ s := by
  induction s using codePoints.induct with
  | case1 => rfl
  | case2 t => rfl
  | case3 t v us h ih =>
    rw [codePoints,if_pos h,List.mem_cons,ih]
    simp only [isHigh,isLow,Bool.and_eq_true,decide_eq_true_eq] at h
    rw [List.mem_cons,List.mem_cons,or_iff_right (by omega),or_iff_right (by omega : (0:ℕ) ≠ t),
      or_iff_right (by omega : (0:ℕ) ≠ v)]
  | case4 t v us h ih => rw [codePoints,if_neg h,List.mem_cons,ih,← List.mem_cons]

theorem codePoints_lt {s : JsString} (hs : ∀ u ∈ s, u < 0x10000) :
    ∀ t ∈ codePoints s, t < 0x110000 := by
  induction s using codePoints.induct with
  | case1 => simp [codePoints]
  | case2 t =>
    have ht := hs t (by simp)
    simp only [codePoints,List.mem_singleton,forall_eq]
    omega
  | case3 t v us h ih =>
    rw [codePoints,if_pos h]
    simp only [isHigh,isLow,Bool.and_eq_true,decide_eq_true_eq] at h
    refine List.forall_mem_cons.mpr ⟨by omega,ih fun u hu => hs u (by simp [hu])⟩
  | case4 t v us h ih =>
    rw [codePoints,if_neg h]
    have ht := hs t (by simp)
    exact List.forall_mem_cons.mpr ⟨by omega,ih fun u hu => hs u (List.mem_cons_of_mem t hu)⟩

theorem utf8_bytes {t : ℕ} (ht : t < 0x110000) :
    (∀ n ∈ TextEncoder.utf8 t, n < 256) ∧ (0 ∈ TextEncoder.utf8 t ↔ 0 = t) := by
  rw [TextEncoder.utf8]
  split
  · simp only [List.mem_singleton,forall_eq]
    exact ⟨by omega,trivial⟩
  · split
    · simp only [List.mem_cons,List.not_mem_nil,or_false,forall_eq_or_imp,forall_eq]
      omega
    · split
      · simp only [List.mem_cons,List.not_mem_nil,or_false,forall_eq_or_imp,forall_eq]
        omega
      · simp only [List.mem_cons,List.not_mem_nil,or_false,forall_eq_or_imp,forall_eq]
        omega

theorem zero_mem_utf8 {t : ℕ} (ht : t < 0x110000) :
    (0 : UInt8) ∈ (TextEncoder.utf8 t).map Nat.toUInt8 ↔ 0 = t := by
  obtain ⟨hlt,hzero⟩ := utf8_bytes ht
  rw [List.mem_map,← hzero]
  constructor
  · rintro ⟨n,hn,h⟩
    have hn0 := congrArg UInt8.toNat h
    rw [TextEncoder.toNat_toUInt8 (hlt n hn)] at hn0
    rwa [show n = 0 from hn0] at hn
  · exact fun h => ⟨0,h,rfl⟩

theorem toCString_eq_iff {s : JsString} (hs : ∀ u ∈ s, u < 0x10000) :
    toCString s = utf8 s ↔ 0 ∉ s := by
  have hmem : (0 : UInt8) ∈ utf8 s ↔ 0 ∈ s := by
    rw [← zero_mem_codePoints s,utf8,List.mem_flatMap]
    constructor
    · rintro ⟨t,ht,hb⟩
      rwa [(zero_mem_utf8 (codePoints_lt hs t ht)).mp hb]
    · intro h
      exact ⟨0,h,(zero_mem_utf8 (by decide)).mpr rfl⟩
  rw [← hmem]
  constructor
  · intro h h0
    have := List.takeWhile_eq_self_iff.mp h 0 h0
    simp at this
  · intro h
    exact cStr_of_ne fun b hb hb0 => h (hb0 ▸ hb)

theorem normalized_token : ∀ n ∈ normalized, isMethodToken n = true := by
  decide +kernel

theorem method_token {m : JsString} (h : normalizeMethod (.string m) = .ok m) :
    m ≠ [] ∧ ∀ c ∈ m, Headers.isToken c = true := by
  have htoken : isMethodToken m = true := by
    rw [normalizeMethod_string] at h
    split at h
    · next hn =>
      rw [Except.ok.inj h] at hn
      exact normalized_token m (List.contains_iff_mem.mp hn)
    · split at h
      · next ht => exact (Bool.and_eq_true _ _ ▸ ht).1
      · cases h
  rw [isMethodToken,Bool.and_eq_true,decide_eq_true_eq] at htoken
  exact ⟨htoken.1,List.all_eq_true.mp htoken.2⟩

theorem validate_body {s : Option Request} {input : Input} {init : Init}
    {v : Validated} (h : validate s input init = .ok v) :
    lookup methodsWithoutBody v.method = true → v.body = none := by
  obtain ⟨x,-,h⟩ := bind_eq_ok h
  obtain ⟨_,-,h⟩ := bind_eq_ok h
  obtain ⟨method,-,h⟩ := bind_eq_ok h
  obtain ⟨_,-,h⟩ := bind_eq_ok h
  obtain ⟨_,-,h⟩ := bind_eq_ok h
  obtain ⟨_,-,h⟩ := bind_eq_ok h
  obtain ⟨_,-,h⟩ := bind_eq_ok h
  obtain ⟨_,-,h⟩ := bind_eq_ok h
  obtain ⟨headers,-,h⟩ := bind_eq_ok h
  simp only at h
  split at h
  · cases h
  next hcheck =>
    cases h
    intro hlookup
    simpa [hlookup] using hcheck

/-- The method allows a body, or there is none. -/
def NoBody (r : Request) : Prop :=
  lookup methodsWithoutBody r.method = true → r.content = none

theorem noBody_construct {input : Input} {init : Init} {s t : Option Request}
    {r : Request} (h : construct input init s = .ok r t) : NoBody r := by
  rw [construct_eq] at h
  cases hv : validate (input.request? s) input init with
  | error e => simp [hv] at h
  | ok v =>
    cases hc : complete (input.request? s) init v with
    | error e => simp [hv,hc] at h
    | ok r' =>
      simp only [hv,hc] at h
      cases h
      obtain ⟨extracted,hextract,hc⟩ := bind_eq_ok hc
      obtain ⟨headers,-,hc⟩ := bind_eq_ok hc
      obtain ⟨referrer,-,hc⟩ := bind_eq_ok hc
      obtain ⟨signal,-,hc⟩ := bind_eq_ok hc
      cases hc
      intro hlookup
      rw [validate_body hv hlookup] at hextract
      cases hextract
      rfl

theorem noBody_of_reached {r : Request} (h : Reached r) : NoBody r := by
  induction h with
  | construct _ h _ => exact noBody_construct h
  | headers _ _ ih => exact ih
  | used _ ih => exact ih
  | signal _ _ ih => exact ih

theorem lookup_withoutBody {m : JsString} (h : m = js "GET" ∨ m = js "HEAD") :
    lookup methodsWithoutBody m = true := by
  obtain rfl | rfl := h <;> decide

/-- What cannot stand in a field line: control characters other than a tab. -/
def isControl (u : ℕ) : Bool := u ≠ 9 && (u < 32 || u = 127)

theorem unit_isFieldChar : ∀ u < 256,
    ((TextEncoder.utf8 u).map Nat.toUInt8).all HttpMessage.isFieldChar = !isControl u := by
  decide +kernel

theorem all_isFieldChar {s : JsString} (hs : ∀ u ∈ s, u ≤ 0xff) :
    (utf8 s).all HttpMessage.isFieldChar = !s.any isControl := by
  rw [utf8,codePoints_latin1 hs]
  induction s with
  | nil => rfl
  | cons u s ih =>
    obtain ⟨hu,htail⟩ := List.forall_mem_cons.mp hs
    rw [List.flatMap_cons,List.all_append,ih htail,List.any_cons,Bool.not_or]
    rw [unit_isFieldChar u (by omega)]

section

variable {r : Request} {o : FetchOptions}

theorem toNat_toUInt8_token {s : JsString} (hs : ∀ c ∈ s, Headers.isToken c = true) :
    (s.map Nat.toUInt8).map UInt8.toNat = s := by
  rw [List.map_map]
  refine (List.map_congr_left fun c hc => ?_).trans (List.map_id s)
  have hc := isToken_lt (hs c hc)
  exact TextEncoder.toNat_toUInt8 (by omega)

theorem parseOptions_ok (ho : parseOptions (optionsOf r) = .ok o) :
    o.method = (if toCString r.method = [] then ascii "GET" else toCString r.method) ∧
      o.body = jsPropBytes r.content ∧
      o.headers = (r.headers.list.take (int32OfUInt64 r.headers.list.length).toNat).map fun p =>
        (toCString p.1,toCString p.2) := by
  rw [parseOptions] at ho
  split at ho
  · cases ho
  · cases ho
    refine ⟨rfl,rfl,?_⟩
    simp only [optionsOf,headersToPairs,List.length_map,← List.map_take,List.map_map]
    rfl

theorem headerLines_start : headerLines (start o) = o.headers.map headerLine := by
  have hmethod : (methodOpts o).flatMap Opt.lines = [] := by
    simp only [methodOpts]
    split_ifs <;> rfl
  rw [headerLines,start,List.flatMap_append,List.flatMap_append,hmethod,headerOpts]
  split
  next h => rw [h]; rfl
  next h => simp [Opt.lines]

theorem postFields_notMem (h : o.method = ascii "GET" ∨ o.method = ascii "HEAD") (b : Bytes) :
    Opt.postFields b ∉ start o := by
  have hheaders : Opt.postFields b ∉ headerOpts o := by
    rw [headerOpts]
    split <;> simp
  have hmethod : methodOpts o = [.httpGet] ∨ methodOpts o = [.nobody] := by
    rcases h with h | h
    · exact .inl (by rw [methodOpts,h]; rfl)
    · exact .inr (by rw [methodOpts,h]; rfl)
  rcases hmethod with hmethod | hmethod <;> simp [start,hheaders,hmethod]

/-- What curl is told of a request: its method, its body, which a `GET` or `HEAD` has not, and for
each header one line that is no more than this header. A recipient reads the header in it unless
there is a control character in the value. -/
theorem request_wire (hr : Reached r) (hlen : r.headers.list.length < 2^31)
    (ho : parseOptions (optionsOf r) = .ok o) :
    verb (start o) = r.method.map Nat.toUInt8 ∧
    postBody (start o) = jsPropBytes r.content ∧
    (∀ s, r.content = some (.text s) → (∀ u ∈ s, u < 0x10000) →
      (postBody (start o) = utf8 s ↔ 0 ∉ s)) ∧
    (r.method = js "GET" ∨ r.method = js "HEAD" →
      r.content = none ∧ ∀ b, .postFields b ∉ start o) ∧
    (∀ rest, splitHead [] (renderHead (headerLines (start o))++rest) =
      some (headerLines (start o),rest)) ∧
    (headerLines (start o)).map readField = r.headers.list.map fun p =>
      if p.2.any isControl then none else some (p.1.map Nat.toUInt8,utf8 p.2) := by
  obtain ⟨hmethod,hbody,hheaders⟩ := parseOptions_ok ho
  obtain ⟨hne,htoken⟩ := method_token hr.built.method
  obtain ⟨hname,hchars⟩ := toCString_token htoken
  have hne' : r.method.map Nat.toUInt8 ≠ [] := mt List.map_eq_nil_iff.mp hne
  rw [hname,if_neg hne'] at hmethod
  have hverb : verb (start o) = o.method := by
    refine verb_start (hmethod ▸ hne') ?_
    rw [hmethod]
    refine cStr_of_ne fun b hb => ?_
    rintro rfl
    exact absurd (hchars 0 hb) (by decide)
  have hpost : postBody (start o) = o.body := by
    refine postBody_start (hmethod ▸ hne') fun hget => ?_
    have hlookup : r.method = js "GET" ∨ r.method = js "HEAD" := by
      rw [hmethod] at hget
      have hunits := toNat_toUInt8_token htoken
      refine hget.imp (fun h => ?_) fun h => ?_
      · rw [← hunits,h]
        decide
      · rw [← hunits,h]
        decide
    rw [hbody,noBody_of_reached hr (lookup_withoutBody hlookup)]
    rfl
  have hnormal : HeaderList.AllNormal r.headers := hr.built.headers
  have hlines : headerLines (start o) =
      r.headers.list.map fun p => fieldLine (toCString p.1,toCString p.2) := by
    rw [headerLines_start,hheaders,int32OfUInt64_of_lt hlen,Int.toNat_natCast,List.take_length,
      List.map_map]
    exact List.map_congr_left fun p hp => headerLine_eq (hnormal p hp)
  refine ⟨hverb.trans hmethod,hpost.trans hbody,fun s hs hunits => ?_,fun hget => ?_,
    fun rest => ?_,?_⟩
  · rw [hpost,hbody,hs]
    exact toCString_eq_iff hunits
  · refine ⟨noBody_of_reached hr (lookup_withoutBody hget),postFields_notMem ?_⟩
    rw [hmethod]
    exact hget.imp (fun h => by rw [h]; rfl) fun h => by rw [h]; rfl
  · refine HttpMessage.splitHead_renderHead (fun l hl => ?_) rest
    rw [hlines] at hl
    obtain ⟨p,hp,rfl⟩ := List.mem_map.mp hl
    exact fieldLine_clean (hnormal p hp)
  · rw [hlines,List.map_map]
    refine List.map_congr_left fun p hp => ?_
    have hp := hnormal p hp
    have hvalue := toCString_value hp
    rw [Function.comp_apply,readField_line hp,hvalue,all_isFieldChar fun u hu => (hp.value u hu).1,
      (toCString_token fun c hc => (hp.token c hc).1).1]
    cases p.2.any isControl <;> rfl

end

/-- A `POST` of one letter, with a header in the list for its content type. -/
def sampleOptions : FetchOptions where
  url := ascii "http://a/"
  method := ascii "POST"
  headers := [(ascii "content-type",ascii "text/plain;charset=UTF-8")]
  body := ascii "x"
  followRedirects := true
  failOnRedirect := false

theorem request_wire_sample :
    verb (start sampleOptions) = (js "POST").map Nat.toUInt8 ∧
      postBody (start sampleOptions) = toCString (js "x") ∧
      (headerLines (start sampleOptions)).map readField =
        [some (ascii "content-type",ascii "text/plain;charset=UTF-8")] := by
  obtain ⟨hverb,hbody,-,-,-,hread⟩ := @request_wire RequestJs.sampleRequest sampleOptions
    RequestJs.sampleRequest_reached (by decide) rfl
  exact ⟨hverb,hbody,hread.trans (by decide +kernel)⟩

end RequestWire
end AsioQuickjs
