import AsioQuickjs.RequestWire
import AsioQuickjs.ResponseJs
import AsioQuickjs.SearchParamsText

/-! The bytes of a request or response body, as its three readers have them. `Request` keeps
a string as it is, `Response` turns it into bytes at once, a `Blob` holds everything in one
string, and the native side reads a string as a C string. -/
namespace AsioQuickjs
namespace BodyReaders

open BodyBytes (View units)
open JsText (chars)
open RequestJs (Content Thrown)
open SearchParams (Entries)

/-- What a `Blob` is made of. A string is a list of code units, well-formed or not. -/
inductive Part
  | string (s : JsString) (isString : ∀ u ∈ s, u < 2^16)
  | arrayBuffer (b : Bytes)
  | view (v : View)

/-- `String.fromCharCode.apply(null, bytes)`. The engine passes up to 65535 arguments; where
there are more, the constructor throws and there is no blob. -/
def fromCharCode (b : Bytes) : JsString := b.map UInt8.toNat

/-- What the constructor of `Blob` adds to `_data` for a part. -/
def Part.data : Part → JsString
  | .string s _ => s
  | .arrayBuffer b => fromCharCode (View.ofBuffer b).bytes
  | .view v => fromCharCode v.bytes

def blobData (parts : List Part) : JsString := parts.flatMap Part.data

inductive BodyInit
  | string (s : List Char)
  | arrayBuffer (b : Bytes)
  | view (v : View)
  | params (entries : Entries)
  | blob (parts : List Part)

/-- `toString` of a `URLSearchParams`. -/
def paramsText (entries : Entries) : Except Thrown JsString :=
  match SearchParamsText.serialize entries with
  | none => .error .value
  | some text => .ok text

/-- The body as the constructor of `Request` finds it. -/
def requestInit : BodyInit → RequestJs.Body
  | .string s => .string (units s)
  | .arrayBuffer b => .arrayBuffer b
  | .view v => .view v
  | .params entries => .params (paramsText entries)
  | .blob parts => .blob (blobData parts) []

/-- The body as the constructor of `Response` finds it, with the buffer that it is over. -/
def responseInit : BodyInit → ResponseJs.Heap × ResponseJs.Body
  | .string s => ([],.string (units s))
  | .arrayBuffer b => ([b],.arrayBuffer 0)
  | .view v => ([v.buffer],.view ⟨0,v.byteOffset,v.byteLength⟩)
  | .params entries => ([],.params (paramsText entries))
  | .blob parts => ([],.blob (blobData parts) [])

/-- `_body` of the request. -/
def requestContent (body : BodyInit) : Option Content :=
  match RequestJs.extractBody (requestInit body) with
  | .error _ => none
  | .ok extracted => extracted.bytes

/-- What `Request.arrayBuffer` resolves to, if the request can be made and read. -/
def requestArrayBuffer (body : BodyInit) : Option Bytes :=
  (requestContent body).bind fun
    | .text s => (chars s).map BodyBytes.stringToBytes
    | .bytes v => some v.slice

/-- What `Response.arrayBuffer` resolves to, if the response can be made. -/
def responseArrayBuffer (body : BodyInit) : Option Bytes :=
  let (heap,init) := responseInit body
  match ResponseJs.extractBody heap init with
  | .error _ => none
  | .ok (extracted,heap) => extracted.bytes.map (·.bytes heap)

/-- The `body` that `parse_options` finds in the options `fetch` makes of the request. -/
def fetchOptionsBody (body : BodyInit) : Option Bytes :=
  (requestContent body).map fun content => RequestWire.jsPropBytes (some content)

def Part.contents : Part → Option Bytes
  | .string s _ => (chars s).map Utf8.encode
  | .arrayBuffer b => some b
  | .view v => some v.bytes

def texts (e : JsString × JsString) : Option (List Char × List Char) :=
  (chars e.1).bind fun name => (chars e.2).map fun value => (name,value)

/-- The UTF-8 of strings and the bytes of binary content; of parameters, the UTF-8 of their
standard serialization. A lone surrogate has no UTF-8. -/
def contents : BodyInit → Option Bytes
  | .string s => some (Utf8.encode s)
  | .arrayBuffer b => some b
  | .view v => some v.bytes
  | .params entries =>
    (entries.mapM texts).map fun pairs => Utf8.encode (UrlencodedForm.serialize pairs)
  | .blob parts => (parts.mapM Part.contents).map List.flatten

/-- All three readers give the bytes of the body. -/
def Agree (body : BodyInit) : Prop :=
  ∃ bs, contents body = some bs ∧ requestArrayBuffer body = some bs ∧
    responseArrayBuffer body = some bs ∧ fetchOptionsBody body = some bs

/-- A string without U+0000, parameters without a lone surrogate, and in a blob nothing but the
units and bytes from 1 to 127. -/
def Plain : BodyInit → Prop
  | .string s => '\x00' ∉ s
  | .params entries => ∀ e ∈ entries, chars e.1 ≠ none ∧ chars e.2 ≠ none
  | .blob parts => ∀ p ∈ parts, ∀ u ∈ p.data, 0 < u ∧ u < 128
  | _ => True

theorem codePoints_unit {t : ℕ} (ht : JsText.isHigh t = false) (us : JsString) :
    RequestWire.codePoints (t::us) = t::RequestWire.codePoints us := by
  cases us <;> simp [RequestWire.codePoints,ht]

theorem codePoints_units (cs : List Char) :
    RequestWire.codePoints (units cs) = cs.map Char.toNat := by
  induction cs with
  | nil => rfl
  | cons c cs ih =>
    have hvalid : c.toNat < 0xd800 ∨ (0xdfff < c.toNat ∧ c.toNat < 0x110000) := c.valid
    have hunits : units (c::cs) = Utf8.units c.toNat++units cs := rfl
    rw [hunits,Utf8.units,List.map_cons,← ih]
    split
    · exact codePoints_unit (Bool.or_eq_false_iff.mp (JsText.isSurrogate_char c)).1 (units cs)
    · have hpair : (JsText.isHigh (0xD800+(c.toNat-0x10000)/0x400) &&
          JsText.isLow (0xDC00+(c.toNat-0x10000)%0x400)) = true := by
        simp only [JsText.isHigh,JsText.isLow,Bool.and_eq_true,decide_eq_true_eq]
        omega
      have hvalue : 0x10000+(0xD800+(c.toNat-0x10000)/0x400-0xD800)*0x400+
          (0xDC00+(c.toNat-0x10000)%0x400-0xDC00) = c.toNat := by omega
      rw [List.cons_append,List.cons_append,List.nil_append,RequestWire.codePoints,if_pos hpair,
        hvalue]

theorem utf8_units (cs : List Char) : RequestWire.utf8 (units cs) = Utf8.encode cs := by
  rw [RequestWire.utf8,codePoints_units,Utf8.encode,List.flatMap_map]
  exact List.flatMap_congr fun c _ => TextEncoder.utf8_char c

theorem toNat_eq_zero (c : Char) : c.toNat = 0 ↔ c = '\x00' :=
  ⟨fun h => Char.toNat_inj.mp h,fun h => h ▸ rfl⟩

theorem zero_mem_units (cs : List Char) : 0 ∈ units cs ↔ '\x00' ∈ cs := by
  rw [← RequestWire.zero_mem_codePoints,codePoints_units,List.mem_map]
  simp only [toNat_eq_zero,exists_eq_right]

theorem toCString_units (cs : List Char) :
    RequestWire.toCString (units cs) = Utf8.encode cs ↔ '\x00' ∉ cs := by
  rw [← utf8_units,RequestWire.toCString_eq_iff (TextEncoder.units_lt cs),zero_mem_units]

theorem ascii_text {s : JsString} (hs : ∀ u ∈ s, u < 128) :
    ∃ cs, chars s = some cs ∧ Utf8.encode cs = s.map Nat.toUInt8 := by
  induction s with
  | nil => exact ⟨[],rfl,rfl⟩
  | cons u s ih =>
    obtain ⟨hu,htail⟩ := List.forall_mem_cons.mp hs
    obtain ⟨cs,hcs,hbytes⟩ := ih htail
    have hplain : (JsText.isHigh u || JsText.isLow u) = false := by
      simp only [JsText.isHigh,JsText.isLow,Bool.or_eq_false_iff,Bool.and_eq_false_iff,
        decide_eq_false_iff_not]
      omega
    have hchar := JsText.ofNat_valid (n := u) (by omega)
    refine ⟨Char.ofNat u::cs,by rw [JsText.chars_plain hplain,hcs]; rfl,?_⟩
    rw [Utf8.encode_cons,BodyBytes.utf8EncodeChar_ascii (by omega),hchar,hbytes]
    rfl

theorem fromCharCode_bytes (b : Bytes) : (fromCharCode b).map Nat.toUInt8 = b := by
  simp [fromCharCode,Function.comp_def]

theorem fromCharCode_lt (b : Bytes) : ∀ u ∈ fromCharCode b, u < 2^16 := by
  intro u hu
  obtain ⟨x,-,rfl⟩ := List.mem_map.mp hu
  exact (UInt8.toNat_lt x).trans (by decide)

theorem data_lt (parts : List Part) : ∀ u ∈ blobData parts, u < 2^16 := by
  intro u hu
  obtain ⟨p,-,hp⟩ := List.mem_flatMap.mp hu
  cases p with
  | string s isString => exact isString u hp
  | arrayBuffer b => exact fromCharCode_lt _ u hp
  | view v => exact fromCharCode_lt _ u hp

theorem contents_part {p : Part} (h : ∀ u ∈ p.data, u < 128) :
    p.contents = some (p.data.map Nat.toUInt8) := by
  cases p with
  | string s isString =>
    obtain ⟨cs,hcs,hbytes⟩ := ascii_text (s := s) h
    rw [Part.contents,hcs]
    exact congrArg some hbytes
  | arrayBuffer b =>
    rw [Part.data,fromCharCode_bytes,BodyBytes.ofBuffer_bytes]
    rfl
  | view v =>
    rw [Part.data,fromCharCode_bytes]
    rfl

theorem contents_blob {parts : List Part} (h : ∀ u ∈ blobData parts, u < 128) :
    contents (.blob parts) = some ((blobData parts).map Nat.toUInt8) := by
  have hmap : parts.mapM Part.contents = some (parts.map fun p => p.data.map Nat.toUInt8) := by
    induction parts with
    | nil => rfl
    | cons p ps ih =>
      rw [List.mapM_cons,contents_part fun u hu => h u (List.mem_append_left _ hu),
        ih fun u hu => h u (List.mem_append_right _ hu)]
      rfl
  rw [contents,hmap,blobData,List.map_flatMap,List.flatMap_def]
  rfl

theorem agree_blob_iff (parts : List Part) :
    Agree (.blob parts) ↔ ∀ u ∈ blobData parts, 0 < u ∧ u < 128 := by
  have hresponse : responseArrayBuffer (.blob parts) =
      some ((blobData parts).map Nat.toUInt8) := by
    simp [responseArrayBuffer,responseInit,ResponseJs.extractBody,ResponseJs.alloc,
      ResponseJs.View.bytes,ResponseJs.bufferAt,ResponseJs.latin1ToBytes]
  have hrequest : requestArrayBuffer (.blob parts) =
      (chars (blobData parts)).map Utf8.encode := by
    simp [requestArrayBuffer,requestContent,requestInit,RequestJs.extractBody,
      funext BodyBytes.stringToBytes_eq]
  have hnative : fetchOptionsBody (.blob parts) =
      some (RequestWire.toCString (blobData parts)) := rfl
  have hnul (hascii : ∀ u ∈ blobData parts, u < 128) :
      RequestWire.toCString (blobData parts) = (blobData parts).map Nat.toUInt8 ↔
        0 ∉ blobData parts := by
    rw [← RequestWire.utf8_ascii hascii,RequestWire.toCString_eq_iff (data_lt parts)]
  constructor
  · rintro ⟨bs,-,hreq,hres,hnat⟩
    obtain ⟨cs,hcs,rfl⟩ := Option.map_eq_some_iff.mp (hrequest.symm.trans hreq)
    have hbytes := Option.some.inj (hresponse.symm.trans hres)
    have hunits := JsText.units_of_chars (data_lt parts) hcs
    have hlength := congrArg List.length hbytes
    rw [List.length_map,← hunits] at hlength
    have hascii : ∀ u ∈ blobData parts, u < 128 := by
      intro u hu
      rw [← hunits] at hu
      obtain ⟨c,hc,hu⟩ := List.mem_flatMap.mp hu
      have hlt := (BodyBytes.units_length cs).2 hlength c hc
      rw [BodyBytes.units_ascii hlt,List.mem_singleton] at hu
      omega
    have hzero := (hnul hascii).mp (Option.some.inj (hnative.symm.trans (hnat.trans
      (congrArg some hbytes.symm))))
    intro u hu
    exact ⟨Nat.pos_of_ne_zero fun h => hzero (h ▸ hu),hascii u hu⟩
  · intro h
    have hascii : ∀ u ∈ blobData parts, u < 128 := fun u hu => (h u hu).2
    have hzero : 0 ∉ blobData parts := fun hmem => absurd (h 0 hmem).1 (by decide)
    obtain ⟨cs,hcs,hbytes⟩ := ascii_text hascii
    refine ⟨(blobData parts).map Nat.toUInt8,contents_blob hascii,?_,hresponse,?_⟩
    · rw [hrequest,hcs]
      exact congrArg some hbytes
    · rw [hnative,(hnul hascii).mpr hzero]

theorem serialize_eq (entries : Entries) : SearchParamsText.serialize entries =
    (entries.mapM texts).map fun pairs => units (UrlencodedForm.serialize pairs) := by
  have hentry (e : JsString × JsString) : SearchParamsText.encodeEntry e =
      (texts e).map fun p => units (UrlencodedForm.serializePair p) := by
    rw [SearchParamsText.encodeEntry,SearchParamsText.encode_eq,SearchParamsText.encode_eq,texts]
    cases chars e.1 <;> cases chars e.2 <;> simp [UrlencodedForm.units_serializePair]
  have hmap : entries.mapM SearchParamsText.encodeEntry = (entries.mapM texts).map fun pairs =>
      (pairs.map UrlencodedForm.serializePair).map units := by
    induction entries with
    | nil => rfl
    | cons e es ih =>
      rw [List.mapM_cons,List.mapM_cons,hentry,ih]
      cases texts e <;> cases es.mapM texts <;> rfl
  rw [SearchParamsText.serialize,hmap,Option.map_map]
  simp only [Function.comp_def,UrlencodedForm.serialize,UrlencodedForm.units_intercalate]
  rfl

theorem mapM_texts (entries : Entries) :
    (∃ pairs, entries.mapM texts = some pairs) ↔
      ∀ e ∈ entries, chars e.1 ≠ none ∧ chars e.2 ≠ none := by
  have hnone := SearchParamsText.serialize_eq_none entries
  rw [serialize_eq,Option.map_eq_none_iff] at hnone
  rw [← Option.ne_none_iff_exists',ne_eq,hnone]
  simp only [not_exists,not_and,not_or,ne_eq]

theorem nul_notMem_serialize (pairs : List (List Char × List Char)) :
    '\x00' ∉ UrlencodedForm.serialize pairs := by
  have hbyte : ∀ n < 256, '\x00' ∉ UrlencodedForm.serializeByte (UInt8.ofNat n) := by
    decide +kernel
  have htext (s : List Char) : '\x00' ∉ UrlencodedForm.serializeText s := by
    intro h
    obtain ⟨b,-,hb⟩ := List.mem_flatMap.mp h
    have hnot := hbyte b.toNat (UInt8.toNat_lt b)
    rw [UInt8.ofNat_toNat] at hnot
    exact hnot hb
  rw [UrlencodedForm.serialize]
  induction pairs with
  | nil => simp
  | cons p ps ih =>
    have hpair : '\x00' ∉ UrlencodedForm.serializePair p := by
      simp [UrlencodedForm.serializePair,htext]
    cases ps with
    | nil => simpa using hpair
    | cons q qs =>
      rw [List.map_cons,List.map_cons,List.intercalate_cons_cons]
      rw [List.map_cons] at ih
      simp [hpair,ih]

theorem responseArrayBuffer_text {body : BodyInit} {cs : List Char} {contentType : JsString}
    (h : ResponseJs.extractBody (responseInit body).1 (responseInit body).2 =
      ResponseJs.extractString (responseInit body).1 (units cs) contentType) :
    responseArrayBuffer body = some (Utf8.encode cs) := by
  rw [responseArrayBuffer]
  simp only [h]
  simp [ResponseJs.extractString,ResponseJs.stringToBytes,JsText.chars_units,
    BodyBytes.stringToBytes_eq,ResponseJs.alloc,ResponseJs.View.bytes,ResponseJs.bufferAt,
    bind,Except.bind,pure,Except.pure]

theorem agree_text {body : BodyInit} {cs : List Char}
    (hcontents : contents body = some (Utf8.encode cs))
    (hrequest : requestContent body = some (.text (units cs)))
    (hresponse : responseArrayBuffer body = some (Utf8.encode cs)) :
    Agree body ↔ '\x00' ∉ cs := by
  have hread : requestArrayBuffer body = some (Utf8.encode cs) := by
    rw [requestArrayBuffer,hrequest,← BodyBytes.stringToBytes_eq]
    exact congrArg (Option.map BodyBytes.stringToBytes) (JsText.chars_units cs)
  have hnative : fetchOptionsBody body = some (RequestWire.toCString (units cs)) := by
    rw [fetchOptionsBody,hrequest]
    rfl
  rw [← toCString_units]
  constructor
  · rintro ⟨bs,hbs,-,-,hnat⟩
    exact Option.some.inj (hnative.symm.trans (hnat.trans (hbs.symm.trans hcontents)))
  · intro h
    exact ⟨_,hcontents,hread,hresponse,by rw [hnative,h]⟩

theorem agree_params_iff (entries : Entries) : Agree (.params entries) ↔
    ∀ e ∈ entries, chars e.1 ≠ none ∧ chars e.2 ≠ none := by
  rw [← mapM_texts]
  constructor
  · rintro ⟨bs,hbs,-⟩
    obtain ⟨pairs,hpairs,-⟩ := Option.map_eq_some_iff.mp hbs
    exact ⟨pairs,hpairs⟩
  · rintro ⟨pairs,hpairs⟩
    have htext : paramsText entries = .ok (units (UrlencodedForm.serialize pairs)) := by
      rw [paramsText,serialize_eq,hpairs]
      rfl
    refine (@agree_text _ (UrlencodedForm.serialize pairs) ?_ ?_ ?_).mpr
      (nul_notMem_serialize pairs)
    · rw [contents,hpairs]
      rfl
    · rw [requestContent,requestInit,htext]
      rfl
    · refine @responseArrayBuffer_text _ _
        (js "application/x-www-form-urlencoded;charset=UTF-8") ?_
      rw [responseInit,htext]
      rfl

/-- The readers of a body agree exactly if it is a plain one. -/
theorem readers_agree_iff (body : BodyInit) : Agree body ↔ Plain body := by
  cases body with
  | string s => exact agree_text rfl rfl (responseArrayBuffer_text rfl)
  | arrayBuffer b =>
    refine iff_of_true ⟨b,rfl,?_,?_,?_⟩ trivial
    · simp [requestArrayBuffer,requestContent,requestInit,RequestJs.extractBody]
    · simp [responseArrayBuffer,responseInit,ResponseJs.extractBody,ResponseJs.View.bytes,
        ResponseJs.bufferAt]
    · simp [fetchOptionsBody,requestContent,requestInit,RequestJs.extractBody,
        RequestWire.jsPropBytes]
  | view v =>
    refine iff_of_true ⟨v.bytes,rfl,?_,?_,?_⟩ trivial
    · simp [requestArrayBuffer,requestContent,requestInit,RequestJs.extractBody]
    · simp [responseArrayBuffer,responseInit,ResponseJs.extractBody,ResponseJs.View.bytes,
        ResponseJs.bufferAt,View.bytes]
    · simp [fetchOptionsBody,requestContent,requestInit,RequestJs.extractBody,
        RequestWire.jsPropBytes]
  | params entries => exact agree_params_iff entries
  | blob parts =>
    rw [agree_blob_iff]
    simp only [Plain,blobData,List.mem_flatMap]
    constructor
    · intro h p hp u hu
      exact h u ⟨p,hp,hu⟩
    · rintro h u ⟨p,hp,hu⟩
      exact h p hp u hu

/-- A blob of the string "é": two bytes in the request, one in the response. -/
theorem blob_readers_differ :
    requestArrayBuffer (.blob [.string [0xE9] (by decide)]) = some [0xC3,0xA9] ∧
      responseArrayBuffer (.blob [.string [0xE9] (by decide)]) = some [0xE9] ∧
      ¬ ∀ body, Agree body := by
  have hrequest : requestArrayBuffer (.blob [.string [0xE9] (by decide)]) = some [0xC3,0xA9] := by
    decide
  have hresponse : responseArrayBuffer (.blob [.string [0xE9] (by decide)]) = some [0xE9] := by
    decide
  refine ⟨hrequest,hresponse,fun hall => ?_⟩
  obtain ⟨bs,-,hreq,hres,-⟩ := hall (.blob [.string [0xE9] (by decide)])
  rw [hrequest] at hreq
  rw [hresponse,← hreq] at hres
  exact absurd hres (by decide)

end BodyReaders
end AsioQuickjs
