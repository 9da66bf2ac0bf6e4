import AsioQuickjs.Base64
import AsioQuickjs.ResponseJs

/-! `fetch` of `data:` addresses in `src/js/fetch.js`: what bytes come out of them. -/
namespace AsioQuickjs
namespace DataUrls

open Base64 (base64 base64Decode binaryString)
open BodyBytes (units fromCharCodes)
open Headers (toLowerCase)
open JsText (decodeURIComponent escaped)
open RequestJs (Thrown JsValue typeError)
open ResponseJs (Heap stringToBytes)

/-- `meta.replace(/;base64$/i, '')`, if the expression matches. -/
def cutEnd (metaText : JsString) : Option JsString :=
  if toLowerCase (metaText.drop (metaText.length-7)) = js ";base64" then
    some (metaText.take (metaText.length-7))
  else none

/-- `meta.replace(/;base64;/i, ';')`, if the expression matches. -/
def cutInside : JsString → Option JsString
  | [] => none
  | u::us =>
    if (js ";base64;").isPrefixOf (toLowerCase (u::us)) then some (59::(u::us).drop 8)
    else (cutInside us).map (u::·)

structure Parsed where
  mime : JsString
  body : JsString

/-- `decodeDataUrl`, behind the `data:`; `atob` is that of the engine, if it has one. -/
def decodeDataUrl (atob : Option (JsString → Except Thrown JsString)) (rest : JsString) :
    Except Thrown Parsed := do
  if !rest.contains 44 then typeError (js "Invalid data URL")
  let metaText := rest.takeWhile (· ≠ 44)
  let data := (rest.dropWhile (· ≠ 44)).drop 1
  let isBase64 := (cutEnd metaText).isSome || (cutInside metaText).isSome
  let outer := (cutEnd metaText).getD metaText
  let inner := (cutInside outer).getD outer
  let mime := if inner = [] then js "text/plain;charset=US-ASCII" else inner
  if isBase64 then
    match atob with
    | some f => return { mime := mime, body := ← f data }
    | none => return { mime := mime, body := base64Decode data }
  else
    match decodeURIComponent data with
    | some s => return { mime := mime, body := s }
    | none => .error .value

/-- What `fetch` comes to before the native side is asked, or that it is. -/
inductive Local
  | rejected
  | resolved (r : ResponseJs.Response) (heap : Heap)
  | native

def responseInit (mime url : JsString) : ResponseJs.Init where
  status := some (some 200)
  statusText := .string (js "OK")
  headers := .keys [(js "Content-Type",mime)]
  url := .string url
  type := .string (js "basic")

/-- A `HEAD` request gets no body. -/
def dataResponse (atob : Option (JsString → Except Thrown JsString)) (method url : JsString)
    (heap : Heap) : Except Thrown (ResponseJs.Response × Heap) := do
  let parsed ← decodeDataUrl atob (url.drop 5)
  let body := if method = js "HEAD" then [] else parsed.body
  ResponseJs.construct (some (.string body)) (responseInit parsed.mime url) heap

/-- `fetch(input, init)` as far as it makes no native request. -/
def fetch (atob : Option (JsString → Except Thrown JsString)) (input : RequestJs.Input)
    (init : RequestJs.Init) (s : Option RequestJs.Request) (heap : Heap) : Local :=
  match RequestJs.construct input init s with
  | .error _ _ => .rejected
  | .ok request _ =>
    if request.signal.aborted then .rejected
    else if (js "about:").isPrefixOf request.url then .rejected
    else if (js "data:").isPrefixOf request.url then
      match dataResponse atob request.method request.url heap with
      | .ok (r,heap) => .resolved r heap
      | .error _ => .rejected
    else .native

/-- The fetch resolves with status 200 and a body of these bytes. -/
def Carries (atob : Option (JsString → Except Thrown JsString)) (heap : Heap) (url : JsString)
    (b : Bytes) : Prop :=
  ∃ r heap', fetch atob (.string url) {} none heap = .resolved r heap' ∧ r.status = 200 ∧
    (r.read [] heap' .arrayBuffer).2 = .value b

/-- `atob` gives what was encoded, as a binary string. -/
def DecodesBase64 (atob : Option (JsString → Except Thrown JsString)) : Prop :=
  ∀ f, atob = some f → ∀ b, f (base64 b) = .ok (binaryString b)

/-- Printable ASCII without a comma and without `;base64`. -/
structure MediaType (m : JsString) : Prop where
  printable : ∀ u ∈ m, 32 ≤ u ∧ u ≤ 126
  comma : 44 ∉ m
  base64 : ¬ js ";base64" <:+: toLowerCase m

theorem cutEnd_base64 (m : JsString) : cutEnd (m++js ";base64") = some m := by
  have hlength : (m++js ";base64").length-7 = m.length := by
    rw [List.length_append]
    exact Nat.add_sub_cancel _ 7
  have hlower : toLowerCase (js ";base64") = js ";base64" := by decide
  rw [cutEnd,hlength,List.drop_left,if_pos hlower,List.take_left]

theorem cutEnd_none {m : JsString} (hm : ¬ js ";base64" <:+: toLowerCase m) : cutEnd m = none := by
  refine if_neg fun h => hm ?_
  rw [← h,toLowerCase,List.map_drop]
  exact (List.drop_suffix _ _).isInfix

theorem cutInside_none {m : JsString} (hm : ¬ js ";base64" <:+: toLowerCase m) :
    cutInside m = none := by
  induction m with
  | nil => rfl
  | cons u us ih =>
    have hhead : ¬ (js ";base64;").isPrefixOf (toLowerCase (u::us)) = true := fun h => hm <|
      List.IsInfix.trans (by decide) (List.isPrefixOf_iff_prefix.mp h).isInfix
    have htail : ¬ js ";base64" <:+: toLowerCase us := fun h => hm <|
      h.trans (List.suffix_cons _ _).isInfix
    rw [cutInside,if_neg hhead,ih htail]
    rfl

theorem decode_split {x : JsString} (hx : 44 ∉ x) (data : JsString) :
    (x++44::data).contains 44 = true ∧ (x++44::data).takeWhile (· ≠ 44) = x ∧
      ((x++44::data).dropWhile (· ≠ 44)).drop 1 = data := by
  have hall : ∀ u ∈ x, decide (u ≠ 44) = true := fun u hu => decide_eq_true fun h => hx (h ▸ hu)
  refine ⟨by simp,?_,?_⟩
  · rw [List.takeWhile_append_of_pos hall]
    simp
  · rw [List.dropWhile_append_of_pos hall]
    simp

def mimeOf (m : JsString) : JsString := if m = [] then js "text/plain;charset=US-ASCII" else m

theorem decode_base64 {atob : Option (JsString → Except Thrown JsString)}
    (hatob : DecodesBase64 atob) {m : JsString} (hm : MediaType m) (b : Bytes) :
    decodeDataUrl atob (m++js ";base64,"++base64 b) =
      .ok { mime := mimeOf m, body := binaryString b } := by
  have hcomma : 44 ∉ m++js ";base64" := List.not_mem_append hm.comma (by decide)
  have hrest : m++js ";base64,"++base64 b = (m++js ";base64")++44::base64 b := by
    have hjs : js ";base64," = js ";base64"++[44] := by decide
    simp only [hjs,List.append_assoc,List.singleton_append]
  obtain ⟨hcontains,htake,hdrop⟩ := decode_split hcomma (base64 b)
  simp only [decodeDataUrl,hrest,hcontains,htake,hdrop,cutEnd_base64,cutInside_none hm.base64,
    Option.isSome_some,Option.getD_some,Option.getD_none,Bool.true_or,if_true,Bool.not_true,
    Bool.false_eq_true,if_false,mimeOf]
  cases atob with
  | none =>
    simp only [Base64.base64Decode_base64]
    rfl
  | some f =>
    simp only [hatob f rfl b]
    rfl

theorem decode_percent (atob : Option (JsString → Except Thrown JsString)) {m : JsString}
    (hm : MediaType m) (data : JsString) :
    decodeDataUrl atob (m++js ","++data) = match decodeURIComponent data with
      | some s => .ok { mime := mimeOf m, body := s }
      | none => .error .value := by
  have hrest : m++js ","++data = m++44::data := by
    have hjs : js "," = [44] := by decide
    rw [hjs,List.append_assoc,List.singleton_append]
  obtain ⟨hcontains,htake,hdrop⟩ := decode_split hm.comma data
  simp only [decodeDataUrl,hrest,hcontains,htake,hdrop,cutEnd_none hm.base64,
    cutInside_none hm.base64,Option.isSome_none,Option.getD_none,Bool.or_false,Bool.not_true,
    Bool.false_eq_true,if_false,mimeOf]
  cases decodeURIComponent data <;> rfl

theorem mimeOf_printable {m : JsString} (hm : ∀ u ∈ m, 32 ≤ u ∧ u ≤ 126) :
    ∀ u ∈ mimeOf m, 32 ≤ u ∧ u ≤ 126 := by
  rw [mimeOf]
  split
  · decide
  · exact hm

theorem normalizeValue_printable {v : JsString} (hv : ∀ u ∈ v, 32 ≤ u ∧ u ≤ 126) :
    Headers.normalizeValue v = .ok (Headers.trim v) := by
  have hwide : (v.any (0xff < ·)) = false := by
    rw [List.any_eq_false]
    intro u hu
    have hbound := hv u hu
    simp only [decide_eq_true_eq]
    omega
  have hsub : ∀ u ∈ Headers.trim v, u ∈ v := fun u hu => by
    have hback := List.mem_reverse.mp (List.dropWhile_sublist _ |>.subset (List.mem_reverse.mp hu))
    exact (List.dropWhile_sublist _).subset hback
  have hcontrol : ((Headers.trim v).any ([0,13,10].contains ·)) = false := by
    rw [List.any_eq_false]
    intro u hu
    have hbound := hv u (hsub u hu)
    simp only [List.contains_eq_mem,List.mem_cons,List.not_mem_nil,or_false,decide_eq_true_eq]
    omega
  rw [Headers.normalizeValue,hwide,hcontrol]
  rfl

theorem new_contentType {mime : JsString} (hmime : ∀ u ∈ mime, 32 ≤ u ∧ u ≤ 126) :
    HeaderList.new (.keys [(js "Content-Type",mime)]) =
      .ok { list := [(js "content-type",Headers.trim mime)] } := by
  have hname : Headers.normalizeName (js "Content-Type") = .ok (js "content-type") := by
    decide +kernel
  have happend : HeaderList.append (js "Content-Type") mime {} =
      .ok () { list := [(js "content-type",Headers.trim mime)] } :=
    HeaderList.append_ok (by decide) hname (normalizeValue_printable hmime)
  have hloop : HeaderList.construct (.keys [(js "Content-Type",mime)]) {} =
      (HeaderList.append (js "Content-Type") mime >>= fun _ => pure ()) {} := rfl
  rw [HeaderList.new,hloop]
  simp only [bind,EStateM.bind,happend]
  rfl

theorem construct_string {mime : JsString} (hmime : ∀ u ∈ mime, 32 ≤ u ∧ u ≤ 126)
    (url body : JsString) (heap : Heap) :
    (∀ e, stringToBytes body = .error e →
      ResponseJs.construct (some (.string body)) (responseInit mime url) heap = .error e) ∧
    ∀ b, stringToBytes body = .ok b → ∃ r,
      ResponseJs.construct (some (.string body)) (responseInit mime url) heap =
        .ok (r,heap++[b]) ∧ r.status = 200 ∧ r.bodyUsed = false ∧ r.abortSignal = none ∧
        r.content = some ⟨heap.length,0,b.length⟩ := by
  let head : ResponseJs.Head :=
    { headers := { list := [(js "content-type",Headers.trim mime)], guard := .response }
      status := 200, statusText := js "OK", url := url }
  have hcheck : ResponseJs.checkInit (responseInit mime url) = .ok head := by
    simp only [ResponseJs.checkInit,responseInit,new_contentType hmime]
    rfl
  have hextract : ResponseJs.extractBody heap (.string body) = (stringToBytes body).map fun b =>
      ({ bytes := some ⟨heap.length,0,b.length⟩, contentType := some RequestJs.textPlain },
        heap++[b]) := by
    simp only [ResponseJs.extractBody,ResponseJs.extractString]
    cases stringToBytes body <;> rfl
  constructor
  · intro e he
    simp only [ResponseJs.construct,hcheck,hextract,he]
    rfl
  · intro b hb
    refine ⟨ResponseJs.build head (responseInit mime url) head.headers
      { bytes := some ⟨heap.length,0,b.length⟩, contentType := some RequestJs.textPlain }
      (some .placeholder),?_,rfl,rfl,rfl,rfl⟩
    simp only [ResponseJs.construct,hcheck,hextract,hb]
    rfl

theorem fetch_data (atob : Option (JsString → Except Thrown JsString)) (rest : JsString)
    (heap : Heap) : fetch atob (.string (js "data:"++rest)) {} none heap =
      match dataResponse atob (js "GET") (js "data:"++rest) heap with
      | .ok (r,heap) => .resolved r heap
      | .error _ => .rejected := by
  rfl

theorem read_alloc (heap : Heap) (b : Bytes) {r : ResponseJs.Response}
    (hused : r.bodyUsed = false) (hsignal : r.abortSignal = none)
    (hcontent : r.content = some ⟨heap.length,0,b.length⟩) :
    (r.read [] (heap++[b]) .arrayBuffer).2 = .value b := by
  have hbuffer : ResponseJs.bufferAt (heap++[b]) heap.length = b := by
    simp [ResponseJs.bufferAt]
  simp [ResponseJs.Response.read,ResponseJs.Response.consume,hused,hsignal,hcontent,
    ResponseJs.View.bytes,hbuffer]

theorem dataResponse_get (atob : Option (JsString → Except Thrown JsString)) (rest : JsString)
    (heap : Heap) : dataResponse atob (js "GET") (js "data:"++rest) heap =
      (decodeDataUrl atob rest >>= fun parsed =>
        ResponseJs.construct (some (.string parsed.body))
          (responseInit parsed.mime (js "data:"++rest)) heap) := by
  have hget : js "GET" ≠ js "HEAD" := by decide
  have hdrop : (js "data:"++rest).drop 5 = rest := rfl
  simp only [dataResponse,hdrop,if_neg hget]

theorem carries_of_decoded {atob : Option (JsString → Except Thrown JsString)} {rest : JsString}
    {parsed : Parsed} (hparsed : decodeDataUrl atob rest = .ok parsed)
    (hmime : ∀ u ∈ parsed.mime, 32 ≤ u ∧ u ≤ 126) (heap : Heap) (b : Bytes) :
    Carries atob heap (js "data:"++rest) b ↔ stringToBytes parsed.body = .ok b := by
  obtain ⟨herror,hok⟩ := construct_string hmime (js "data:"++rest) parsed.body heap
  rw [Carries,fetch_data,dataResponse_get,hparsed,RequestJs.ok_bind]
  cases hbytes : stringToBytes parsed.body with
  | error e =>
    rw [herror e hbytes]
    refine iff_of_false ?_ (by simp)
    rintro ⟨r,heap',h,-⟩
    cases h
  | ok b' =>
    obtain ⟨r,hr,hstatus,hused,hsignal,hcontent⟩ := hok b' hbytes
    have hread := read_alloc heap b' hused hsignal hcontent
    rw [hr]
    constructor
    · rintro ⟨r',heap',h,-,hvalue⟩
      cases h
      rw [hread] at hvalue
      cases hvalue
      rfl
    · intro h
      cases h
      exact ⟨r,_,rfl,hstatus,hread⟩

theorem not_carries_of_error {atob : Option (JsString → Except Thrown JsString)} {rest : JsString}
    {e : Thrown} (herror : decodeDataUrl atob rest = .error e) (heap : Heap) (b : Bytes) :
    ¬ Carries atob heap (js "data:"++rest) b := by
  rw [Carries,fetch_data,dataResponse_get,herror,RequestJs.error_bind]
  rintro ⟨_,_,h,-⟩
  cases h

theorem units_fromCharCodes (b : Bytes) : units (fromCharCodes b) = binaryString b := by
  induction b with
  | nil => rfl
  | cons x b ih =>
    have hunits : Utf8.units (Char.ofNat x.toNat).toNat = [x.toNat] := by
      have hx := UInt8.toNat_lt x
      rw [BodyBytes.toNat_ofNat _ hx,Utf8.units,if_pos (by omega)]
    have hcons : units (fromCharCodes (x::b)) =
        Utf8.units (Char.ofNat x.toNat).toNat++units (fromCharCodes b) := rfl
    rw [hcons,hunits,ih]
    rfl

theorem stringToBytes_units (cs : List Char) :
    stringToBytes (units cs) = .ok (Utf8.encode cs) := by
  have hchars : stringToBytes (units cs) = .ok (BodyBytes.stringToBytes cs) := by
    rw [stringToBytes,JsText.chars_units]
  rw [hchars,BodyBytes.stringToBytes_eq]

theorem stringToBytes_binaryString (b : Bytes) :
    stringToBytes (binaryString b) = .ok b ↔ ∀ x ∈ b, x.toNat < 128 := by
  have hmem : (∀ c ∈ fromCharCodes b, c.toNat < 128) ↔ ∀ x ∈ b, x.toNat < 128 := by
    simp only [fromCharCodes,List.forall_mem_map,BodyBytes.toNat_ofNat _ (UInt8.toNat_lt _)]
  rw [← units_fromCharCodes,stringToBytes_units,Except.ok.injEq,← hmem]
  constructor
  · intro h
    refine (BodyBytes.units_length _).2 ?_
    rw [h,units_fromCharCodes,binaryString,List.length_map]
  · exact BodyBytes.encode_fromCharCodes

theorem stringToBytes_encode {s : JsString} {b : Bytes} (h : stringToBytes s = .ok b) :
    ∃ cs, b = Utf8.encode cs := by
  rw [stringToBytes] at h
  cases hs : JsText.chars s with
  | none => simp [hs] at h
  | some cs =>
    rw [hs] at h
    cases h
    exact ⟨cs,BodyBytes.stringToBytes_eq cs⟩

/-- Bytes in base64 come out of a `data:` address exactly if they are ASCII, and percent-encoded
ones if they are UTF-8. -/
theorem carries_iff {atob : Option (JsString → Except Thrown JsString)}
    (hatob : DecodesBase64 atob) (heap : Heap) {m : JsString} (hm : MediaType m) (b : Bytes) :
    (Carries atob heap (js "data:"++(m++js ";base64,"++base64 b)) b ↔
      ∀ x ∈ b, x.toNat < 128) ∧
    (Carries atob heap (js "data:"++(m++js ","++b.flatMap escaped)) b ↔
      ∃ cs, b = Utf8.encode cs) := by
  have hprintable := mimeOf_printable hm.printable
  constructor
  · rw [carries_of_decoded (decode_base64 hatob hm b) hprintable]
    exact stringToBytes_binaryString b
  · have hdecoded := decode_percent atob hm (b.flatMap escaped)
    constructor
    · intro h
      cases hs : decodeURIComponent (b.flatMap escaped) with
      | none =>
        rw [hs] at hdecoded
        exact absurd h (not_carries_of_error hdecoded heap b)
      | some s =>
        rw [hs] at hdecoded
        exact stringToBytes_encode ((carries_of_decoded hdecoded hprintable heap b).mp h)
    · rintro ⟨cs,rfl⟩
      rw [JsText.decode_escapes] at hdecoded
      exact (carries_of_decoded hdecoded hprintable heap _).mpr (stringToBytes_units cs)

theorem plainText : MediaType (js "text/plain") := ⟨by decide,by decide,by decide⟩

def fallback : Option (JsString → Except Thrown JsString) := some fun s => .ok (base64Decode s)

theorem fallback_decodes : DecodesBase64 fallback := fun f hf b => by
  cases hf
  exact congrArg Except.ok (Base64.base64Decode_base64 b)

theorem carries_iff_sample :
    Carries fallback [] (js "data:"++(js "text/plain"++js ";base64,"++base64 [104,105])) [104,105] ∧
      Carries fallback [] (js "data:"++(js "text/plain"++js ","++[0xc3,0xa9].flatMap escaped))
        [0xc3,0xa9] := by
  obtain ⟨hbase64,-⟩ := carries_iff fallback_decodes [] plainText [104,105]
  obtain ⟨-,hpercent⟩ := carries_iff fallback_decodes [] plainText [0xc3,0xa9]
  exact ⟨hbase64.mpr (by decide +kernel),hpercent.mpr ⟨['é'],by decide +kernel⟩⟩

/-- The byte `0xff` comes out as two bytes or not at all. -/
theorem byte_lost :
    js "data:"++(js "text/plain"++js ";base64,"++base64 [0xff]) =
        js "data:text/plain;base64,/w==" ∧
      ¬ Carries none [] (js "data:text/plain;base64,/w==") [0xff] ∧
      js "data:"++(js "text/plain"++js ","++[0xff].flatMap escaped) = js "data:text/plain,%FF" ∧
      ¬ Carries none [] (js "data:text/plain,%FF") [0xff] := by
  have hbase64 : js "data:"++(js "text/plain"++js ";base64,"++base64 [0xff]) =
      js "data:text/plain;base64,/w==" := by decide +kernel
  have hpercent : js "data:"++(js "text/plain"++js ","++[0xff].flatMap escaped) =
      js "data:text/plain,%FF" := by decide +kernel
  have hnone : DecodesBase64 none := fun f hf => by cases hf
  refine ⟨hbase64,fun h => ?_,hpercent,fun h => ?_⟩
  · have hparsed := decode_base64 hnone plainText [0xff]
    have hprintable := mimeOf_printable plainText.printable
    rw [← hbase64,carries_of_decoded hparsed hprintable,stringToBytes_binaryString] at h
    exact absurd h (by decide +kernel)
  · have hparsed := decode_percent none plainText ([0xff].flatMap escaped)
    have hinvalid : decodeURIComponent ([0xff].flatMap escaped) = none := by decide +kernel
    rw [hinvalid] at hparsed
    rw [← hpercent] at h
    exact not_carries_of_error hparsed [] [0xff] h

end DataUrls
end AsioQuickjs
