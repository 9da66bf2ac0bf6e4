import AsioQuickjs.BodyOnce
import AsioQuickjs.JsText
import AsioQuickjs.RequestJs

/-! What `formData` of a `Request` and of a `Response` makes of an urlencoded body. -/
namespace AsioQuickjs
namespace UrlencodedForm

open BodyBytes (units percent)
open BodyOnce (Body Codec Outcome Failure)
open JsText (decodeURIComponent escaped)
open RequestJs (Content)

/-- A byte that stands for itself: a digit, a letter or one of `*-._`. -/
def kept (b : UInt8) : Bool :=
  (48 ≤ b.toNat && b.toNat ≤ 57) || (65 ≤ b.toNat && b.toNat ≤ 90) ||
    (97 ≤ b.toNat && b.toNat ≤ 122) || [42,45,46,95].contains b.toNat

def serializeByte (b : UInt8) : List Char :=
  if b.toNat = 32 then ['+'] else if kept b then [Char.ofNat b.toNat] else percent b

def serializeText (s : List Char) : List Char := (Utf8.encode s).flatMap serializeByte

def serializePair (p : List Char × List Char) : List Char :=
  serializeText p.1++ '='::serializeText p.2

def serialize (pairs : List (List Char × List Char)) : List Char :=
  ['&'].intercalate (pairs.map serializePair)

abbrev Entries := List (JsString × JsString)

/-- A part of the text, cut at its first `=`. -/
def parsePart (part : JsString) : Option (JsString × JsString) :=
  if part.contains 61 then do
    let name ← decodeURIComponent (part.takeWhile (· ≠ 61))
    let value ← decodeURIComponent ((part.dropWhile (· ≠ 61)).drop 1)
    return (name,value)
  else (decodeURIComponent part).map fun name => (name,[])

/-- The loop of `formData`; `none` if `decodeURIComponent` throws in it. -/
def parse (text : JsString) : Option Entries :=
  if text = [] then some [] else ((text.splitOn 38).filter (· ≠ [])).mapM parsePart

/-- The text of a body; `decoder` is `TextDecoder.decode`. -/
def bodyText (decoder : Bytes → JsString) : Content → JsString
  | .text s => s
  | .bytes v => decoder v.bytes

variable {W E : Type}

/-- Readers whose `formData` reads this way. -/
def formCodec (decoder : Bytes → JsString) (uriError : E) (k : Codec Content (Entries ⊕ W) E) :
    Codec Content (Entries ⊕ W) E :=
  { k with form := fun c => match parse (bodyText decoder c) with
      | some es => .ok (.inl es)
      | none => .error uriError }

def plus (c : Char) : Char := if c = ' ' then '+' else c

theorem units_percents (bs : Bytes) : units (bs.flatMap percent) = bs.flatMap escaped := by
  induction bs with
  | nil => rfl
  | cons b bs ih => rw [List.flatMap_cons,BodyBytes.units_append,ih]; rfl

theorem bytes_wide {c : Char} (hc : 128 ≤ c.toNat) :
    ∀ b ∈ String.utf8EncodeChar c, 128 ≤ b.toNat := by
  have hvalid : c.toNat < 0x110000 := by
    have := c.valid
    rcases this with h | h
    · exact Nat.lt_trans h (by decide)
    · exact h.2
  have hval : c.val.toNat = c.toNat := rfl
  intro b hb
  simp only [String.utf8EncodeChar,hval] at hb
  split at hb
  · omega
  · split at hb
    · simp only [List.mem_cons,List.not_mem_nil,or_false] at hb
      rcases hb with rfl | rfl <;> rw [JsText.toNat_ofNat (by omega)] <;> omega
    · split at hb
      · simp only [List.mem_cons,List.not_mem_nil,or_false] at hb
        rcases hb with rfl | rfl | rfl <;> rw [JsText.toNat_ofNat (by omega)] <;> omega
      · simp only [List.mem_cons,List.not_mem_nil,or_false] at hb
        rcases hb with rfl | rfl | rfl | rfl <;> rw [JsText.toNat_ofNat (by omega)] <;> omega

theorem kept_bounds {b : UInt8} (h : kept b = true) :
    b.toNat < 128 ∧ b.toNat ≠ 32 ∧ b.toNat ≠ 37 ∧ b.toNat ≠ 38 ∧ b.toNat ≠ 61 := by
  simp only [kept,Bool.or_eq_true,Bool.and_eq_true,decide_eq_true_eq,List.contains_eq_mem,
    List.mem_cons,List.not_mem_nil,or_false] at h
  omega

theorem serializeByte_wide {b : UInt8} (hb : 128 ≤ b.toNat) : serializeByte b = percent b := by
  rw [serializeByte,if_neg (by omega),if_neg]
  intro hkept
  have hbounds := kept_bounds hkept
  omega

def written (c : Char) : JsString := units ((String.utf8EncodeChar c).flatMap serializeByte)

theorem units_serializeText (s : List Char) : units (serializeText s) = s.flatMap written := by
  induction s with
  | nil => rfl
  | cons c s ih =>
    have hcons : serializeText (c::s) =
        (String.utf8EncodeChar c).flatMap serializeByte++serializeText s := by
      rw [serializeText,Utf8.encode_cons,List.flatMap_append]
      rfl
    rw [hcons,BodyBytes.units_append,ih]
    rfl

theorem written_cases (c : Char) :
    (written c = [(plus c).toNat] ∧ (plus c).toNat < 128 ∧ (plus c).toNat ≠ 37 ∧
        (plus c).toNat ≠ 38 ∧ (plus c).toNat ≠ 61) ∨
      (written c = (String.utf8EncodeChar c).flatMap escaped ∧ plus c = c) := by
  by_cases hwide : 128 ≤ c.toNat
  · have hbytes : (String.utf8EncodeChar c).flatMap serializeByte =
        (String.utf8EncodeChar c).flatMap percent :=
      List.flatMap_congr fun b hb => serializeByte_wide (bytes_wide hwide b hb)
    have hplus : plus c = c := if_neg fun h => by
      rw [h] at hwide
      exact absurd hwide (by decide)
    exact .inr ⟨by rw [written,hbytes,units_percents],hplus⟩
  · have hascii : c.toNat < 128 := by omega
    have hbyte : (c.toNat.toUInt8).toNat = c.toNat := JsText.toNat_ofNat (by omega)
    rw [written,BodyBytes.utf8EncodeChar_ascii hascii,List.flatMap_singleton,
      List.flatMap_singleton]
    by_cases hspace : c = ' '
    · subst hspace
      exact .inl (by decide +kernel)
    · have hne : c.toNat ≠ 32 := fun h => hspace (Char.toNat_inj.mp h)
      have hplus : plus c = c := if_neg hspace
      rw [serializeByte,hbyte,if_neg hne,hplus]
      by_cases hkept : kept c.toNat.toUInt8 = true
      · have hbounds := kept_bounds hkept
        rw [hbyte] at hbounds
        rw [if_pos hkept,Char.ofNat_toNat,BodyBytes.units_cons_ascii hascii]
        exact .inl ⟨rfl,hascii,hbounds.2.2.1,hbounds.2.2.2.1,hbounds.2.2.2.2⟩
      · rw [if_neg hkept]
        exact .inr ⟨rfl,rfl⟩

theorem decode_written (c : Char) (us : JsString) :
    decodeURIComponent (written c++us) =
      (decodeURIComponent us).map (Utf8.units (plus c).toNat++·) := by
  rcases written_cases c with ⟨hunit,hascii,hne,-,-⟩ | ⟨hescapes,hplus⟩
  · rw [hunit,List.singleton_append,JsText.decode_unit hne,BodyBytes.units_ascii hascii]
    rfl
  · rw [hescapes,hplus]
    exact JsText.decode_char c us

theorem decode_serializeText (s : List Char) :
    decodeURIComponent (units (serializeText s)) = some (units (s.map plus)) := by
  rw [units_serializeText]
  induction s with
  | nil => rfl
  | cons c s ih =>
    rw [List.flatMap_cons,decode_written,ih]
    rfl

theorem notMem_escaped {u : ℕ} (hu : u ≠ 37) (hdigit : JsLiteral.hexDigit u = none) (b : UInt8) :
    u ∉ escaped b := by
  have hb := UInt8.toNat_lt b
  obtain ⟨-,-,-,hx⟩ := BodyBytes.hexChar_toNat (b.toNat/16) (by omega)
  obtain ⟨-,-,-,hy⟩ := BodyBytes.hexChar_toNat (b.toNat % 16) (by omega)
  rw [JsText.escaped_eq]
  intro hmem
  simp only [List.mem_cons,List.not_mem_nil,or_false] at hmem
  rcases hmem with h | h | h
  · exact hu h
  · rw [← h,hdigit] at hx
    cases hx
  · rw [← h,hdigit] at hy
    cases hy

theorem text_separators (s : List Char) :
    38 ∉ units (serializeText s) ∧ 61 ∉ units (serializeText s) := by
  have hchar (c : Char) : 38 ∉ written c ∧ 61 ∉ written c := by
    rcases written_cases c with ⟨hunit,-,-,hamp,heq⟩ | ⟨hescapes,-⟩
    · rw [hunit]
      simp [Ne.symm hamp,Ne.symm heq]
    · rw [hescapes]
      simp only [List.mem_flatMap,not_exists,not_and]
      exact ⟨fun b _ => notMem_escaped (by decide) rfl b,
        fun b _ => notMem_escaped (by decide) rfl b⟩
  rw [units_serializeText]
  simp only [List.mem_flatMap,not_exists,not_and]
  exact ⟨fun c _ => (hchar c).1,fun c _ => (hchar c).2⟩

theorem units_intercalate (sep : List Char) (ls : List (List Char)) :
    units (sep.intercalate ls) = (units sep).intercalate (ls.map units) := by
  induction ls with
  | nil => rfl
  | cons l ls ih =>
    cases ls with
    | nil => simp
    | cons m ms =>
      rw [List.map_cons,List.map_cons,List.intercalate_cons_cons,List.intercalate_cons_cons,
        BodyBytes.units_append,BodyBytes.units_append,ih]
      rfl

theorem units_serializePair (p : List Char × List Char) :
    units (serializePair p) = units (serializeText p.1)++61::units (serializeText p.2) := by
  rw [serializePair,BodyBytes.units_append,BodyBytes.units_cons_ascii (by decide)]
  rfl

def read (p : List Char × List Char) : JsString × JsString :=
  (units (p.1.map plus),units (p.2.map plus))

theorem cut_serializePair (p : List Char × List Char) :
    (units (serializePair p)).takeWhile (· ≠ 61) = units (serializeText p.1) ∧
      (units (serializePair p)).dropWhile (· ≠ 61) = 61::units (serializeText p.2) := by
  obtain ⟨-,hname⟩ := text_separators p.1
  have hfree : ∀ u ∈ units (serializeText p.1), decide (u ≠ 61) = true :=
    fun u hu => decide_eq_true fun h => hname (h ▸ hu)
  rw [units_serializePair]
  constructor
  · rw [List.takeWhile_append_of_pos hfree]
    simp
  · rw [List.dropWhile_append_of_pos hfree]
    simp

theorem parsePart_serializePair (p : List Char × List Char) :
    parsePart (units (serializePair p)) = some (read p) := by
  obtain ⟨htake,hdrop⟩ := cut_serializePair p
  have hcontains : (units (serializePair p)).contains 61 = true := by
    rw [units_serializePair]
    simp
  rw [parsePart,if_pos hcontains,htake,hdrop,List.drop_one,List.tail_cons,decode_serializeText,
    decode_serializeText]
  rfl

theorem parts_serialize (pairs : List (List Char × List Char)) :
    ((units (serialize pairs)).splitOn 38).filter (· ≠ []) =
      pairs.map fun q => units (serializePair q) := by
  cases pairs with
  | nil => rfl
  | cons p ps =>
    have hsep (q : List Char × List Char) : 38 ∉ units (serializePair q) := by
      rw [units_serializePair]
      simp [(text_separators q.1).1,(text_separators q.2).1]
    have hne (q : List Char × List Char) : units (serializePair q) ≠ [] := by
      rw [units_serializePair]
      simp
    have hparts : (units (serialize (p::ps))).splitOn 38 =
        (p::ps).map fun q => units (serializePair q) := by
      rw [serialize,units_intercalate,List.map_map]
      refine List.splitOn_intercalate 38 (fun l hl => ?_) (by simp)
      obtain ⟨q,-,rfl⟩ := List.mem_map.mp hl
      exact hsep q
    rw [hparts]
    refine List.filter_eq_self.mpr fun l hl => ?_
    obtain ⟨q,-,rfl⟩ := List.mem_map.mp hl
    exact decide_eq_true (hne q)

theorem parse_serialize (pairs : List (List Char × List Char)) :
    parse (units (serialize pairs)) = some (pairs.map read) := by
  have hmap (qs : List (List Char × List Char)) :
      (qs.map fun q => units (serializePair q)).mapM parsePart = some (qs.map read) := by
    induction qs with
    | nil => rfl
    | cons q qs ih =>
      rw [List.map_cons,List.mapM_cons,parsePart_serializePair,ih]
      rfl
  rw [parse]
  split
  · next hempty =>
    have hparts := parts_serialize pairs
    rw [hempty] at hparts
    obtain rfl : pairs = [] := List.map_eq_nil_iff.mp hparts.symm
    rfl
  · rw [parts_serialize,hmap]

theorem read_eq_iff (pairs : List (List Char × List Char)) :
    pairs.map read = pairs.map (fun p => (units p.1,units p.2)) ↔
      ∀ p ∈ pairs, ' ' ∉ p.1 ∧ ' ' ∉ p.2 := by
  have htext (s : List Char) : units (s.map plus) = units s ↔ ' ' ∉ s := by
    have hid : s.map plus = s ↔ ∀ c ∈ s, plus c = c := by
      simpa using @List.map_inj_left _ _ s plus id
    have hplus (c : Char) : plus c = c ↔ c ≠ ' ' := by
      by_cases hc : c = ' '
      · subst hc
        decide
      · simp [plus,hc]
    have hunits : units (s.map plus) = units s ↔ s.map plus = s :=
      ⟨JsText.units_injective,congrArg units⟩
    rw [hunits,hid]
    simp only [hplus]
    exact ⟨fun h hmem => h ' ' hmem rfl,fun h c hc he => h (he ▸ hc)⟩
  simp only [List.map_inj_left,read,Prod.mk.injEq,htext]

theorem percent_ascii {b : UInt8} {c : Char} (hc : c ∈ percent b) : c.toNat < 128 := by
  have hb := UInt8.toNat_lt b
  obtain ⟨hh,-⟩ := BodyBytes.hexChar_toNat (b.toNat/16) (by omega)
  obtain ⟨hl,-⟩ := BodyBytes.hexChar_toNat (b.toNat % 16) (by omega)
  simp only [percent,List.mem_cons,List.not_mem_nil,or_false] at hc
  rcases hc with rfl | rfl | rfl
  · decide
  · exact hh
  · exact hl

theorem serializeByte_ascii {b : UInt8} {c : Char} (hc : c ∈ serializeByte b) :
    c.toNat < 128 := by
  rw [serializeByte] at hc
  split at hc
  · rw [List.mem_singleton] at hc
    subst hc
    decide
  · split at hc
    · next hkept =>
      have hbound := (kept_bounds hkept).1
      rw [List.mem_singleton] at hc
      rw [hc,BodyBytes.toNat_ofNat _ (by omega)]
      exact hbound
    · exact percent_ascii hc

theorem serializeText_ascii {s : List Char} {c : Char} (hc : c ∈ serializeText s) :
    c.toNat < 128 := by
  obtain ⟨b,-,hb⟩ := List.mem_flatMap.mp hc
  exact serializeByte_ascii hb

theorem serializePair_ascii {p : List Char × List Char} {c : Char} (hc : c ∈ serializePair p) :
    c.toNat < 128 := by
  rw [serializePair,List.mem_append,List.mem_cons] at hc
  rcases hc with hc | rfl | hc
  · exact serializeText_ascii hc
  · decide
  · exact serializeText_ascii hc

theorem serialize_ascii (pairs : List (List Char × List Char)) :
    ∀ c ∈ serialize pairs, c.toNat < 128 := by
  induction pairs with
  | nil => exact fun c hc => absurd hc List.not_mem_nil
  | cons p ps ih =>
    intro c hc
    cases ps with
    | nil => exact serializePair_ascii (by simpa [serialize] using hc)
    | cons q qs =>
      have hsplit : serialize (p::q::qs) = serializePair p++ '&'::serialize (q::qs) := by
        simp [serialize,List.intercalate_cons_cons]
      rw [hsplit,List.mem_append,List.mem_cons] at hc
      rcases hc with hc | rfl | hc
      · exact serializePair_ascii hc
      · decide
      · exact ih c hc

/-- The body is the text: a string, or bytes that are its UTF-8. -/
def Holds (c : Content) (s : List Char) : Prop :=
  c = .text (units s) ∨ ∃ v, c = .bytes v ∧ v.bytes = Utf8.encode s

/-- `TextDecoder.decode` reads ASCII as it is. -/
def DecodesAscii (decoder : Bytes → JsString) : Prop :=
  ∀ s : List Char, (∀ c ∈ s, c.toNat < 128) → decoder (Utf8.encode s) = units s

/-- What of a part is handed to `decodeURIComponent`. -/
def partComponents (part : JsString) : List JsString :=
  if part.contains 61 then [part.takeWhile (· ≠ 61),(part.dropWhile (· ≠ 61)).drop 1] else [part]

def components (text : JsString) : List JsString :=
  ((text.splitOn 38).filter (· ≠ [])).flatMap partComponents

/-- A malformed escape makes `decodeURIComponent` throw. -/
def Wellformed (s : JsString) : Prop := (decodeURIComponent s).isSome = true

instance (s : JsString) : Decidable (Wellformed s) :=
  inferInstanceAs (Decidable ((decodeURIComponent s).isSome = true))

theorem parsePart_isSome (part : JsString) :
    (parsePart part).isSome = true ↔ ∀ s ∈ partComponents part, Wellformed s := by
  have hpair (x y : Option JsString) : (do
      let name ← x
      let value ← y
      return (name,value) : Option (JsString × JsString)).isSome = true ↔
        x.isSome = true ∧ y.isSome = true := by
    cases x <;> cases y <;> simp
  rw [parsePart,partComponents]
  split
  · exact (hpair _ _).trans (by simp [Wellformed])
  · simp [Wellformed]

theorem mapM_isSome {α β : Type} {f : α → Option β} (l : List α) :
    (l.mapM f).isSome = true ↔ ∀ a ∈ l, (f a).isSome = true := by
  induction l with
  | nil => simp
  | cons a l ih =>
    rw [List.mapM_cons,List.forall_mem_cons,← ih]
    cases f a <;> cases l.mapM f <;> simp

theorem parse_isSome (text : JsString) :
    (parse text).isSome = true ↔ ∀ s ∈ components text, Wellformed s := by
  rw [parse]
  split
  · next hempty =>
    subst hempty
    exact iff_of_true rfl (by simp [components,List.splitOn_nil])
  · rw [mapM_isSome,components]
    simp only [List.forall_mem_flatMap,parsePart_isSome]

theorem bodyText_of_holds {decoder : Bytes → JsString} (hdec : DecodesAscii decoder)
    {c : Content} {s : List Char} (hc : Holds c s) (hs : ∀ d ∈ s, d.toNat < 128) :
    bodyText decoder c = units s := by
  rcases hc with rfl | ⟨v,rfl,hv⟩
  · rfl
  · rw [bodyText,hv,hdec s hs]

/-- The call does not throw; a promise comes back. -/
def Returns {V : Type} (o : Outcome V E) : Prop := ∀ f, o ≠ .thrown f

section

variable {decoder : Bytes → JsString} {uriError : E} {k : Codec Content (Entries ⊕ W) E}
  {b : Body Content} {c : Content}

theorem readForm_eq : (b.readForm (formCodec decoder uriError k) c).2 =
    match parse (bodyText decoder c) with
      | some es => .fulfilled (.inl es)
      | none => .thrown (.conversion uriError) := by
  have hform : (formCodec decoder uriError k).form c = match parse (bodyText decoder c) with
      | some es => .ok (.inl es)
      | none => .error uriError := rfl
  rw [Body.readForm,hform]
  cases parse (bodyText decoder c) <;> rfl

theorem requestFormData_eq (hu : b.bodyUsed = false) (hf : b.isForm = true)
    (hb : b.body = some c) :
    b.requestFormData (formCodec decoder uriError k) =
      b.readForm (formCodec decoder uriError k) c := by
  rw [Body.requestFormData]
  simp [hu,hb,hf]

theorem responseFormData_eq (hu : b.bodyUsed = false) (hf : b.isForm = true)
    (hb : b.body = some c) :
    b.responseFormData (formCodec decoder uriError k) =
      b.readForm (formCodec decoder uriError k) c := by
  rw [Body.responseFormData]
  simp [hu,hb,hf]

theorem readForm_pairs {pairs : List (List Char × List Char)}
    (ht : bodyText decoder c = units (serialize pairs)) :
    (b.readForm (formCodec decoder uriError k) c).2 =
        .fulfilled (.inl (pairs.map fun p => (units p.1,units p.2))) ↔
      ∀ p ∈ pairs, ' ' ∉ p.1 ∧ ' ' ∉ p.2 := by
  rw [readForm_eq,ht,parse_serialize,← read_eq_iff]
  simp

theorem readForm_returns : Returns (b.readForm (formCodec decoder uriError k) c).2 ↔
    ∀ s ∈ components (bodyText decoder c), Wellformed s := by
  rw [readForm_eq,← parse_isSome]
  cases parse (bodyText decoder c) with
  | none => exact iff_of_false (fun h => h _ rfl) (by simp)
  | some es => exact iff_of_true (fun f h => by cases h) rfl

end

/-- A request or a response with the content type of a form: `formData` gives the pairs whose
serialization the body is exactly if there is no space in them, and gives a promise at all
exactly if every name and value of the text is well-formed. -/
theorem formData_iff {decoder : Bytes → JsString} (hdec : DecodesAscii decoder) (uriError : E)
    (k : Codec Content (Entries ⊕ W) E) {b : Body Content} {c : Content}
    (hu : b.bodyUsed = false) (hf : b.isForm = true) (hb : b.body = some c) :
    (∀ pairs, Holds c (serialize pairs) →
      ((b.requestFormData (formCodec decoder uriError k)).2 =
          .fulfilled (.inl (pairs.map fun p => (units p.1,units p.2))) ↔
        ∀ p ∈ pairs, ' ' ∉ p.1 ∧ ' ' ∉ p.2) ∧
      ((b.responseFormData (formCodec decoder uriError k)).2 =
          .fulfilled (.inl (pairs.map fun p => (units p.1,units p.2))) ↔
        ∀ p ∈ pairs, ' ' ∉ p.1 ∧ ' ' ∉ p.2)) ∧
    (Returns (b.requestFormData (formCodec decoder uriError k)).2 ↔
      ∀ s ∈ components (bodyText decoder c), Wellformed s) ∧
    (Returns (b.responseFormData (formCodec decoder uriError k)).2 ↔
      ∀ s ∈ components (bodyText decoder c), Wellformed s) := by
  rw [requestFormData_eq hu hf hb,responseFormData_eq hu hf hb]
  refine ⟨fun pairs hc => ?_,readForm_returns,readForm_returns⟩
  have ht := bodyText_of_holds hdec hc (serialize_ascii pairs)
  exact ⟨readForm_pairs ht,readForm_pairs ht⟩

def decodeUtf8 (bs : Bytes) : JsString := ((Utf8.text bs).map units).getD []

theorem decodeUtf8_ascii : DecodesAscii decodeUtf8 := fun s _ => by
  rw [decodeUtf8,Utf8.text_encode]
  rfl

def form (kind : BodyOnce.Kind) (c : Content) : Body Content :=
  { kind := kind, body := some c, contentType := some "application/x-www-form-urlencoded" }

def onlyForms : Codec Content (Entries ⊕ Unit) Unit where
  emptyString := .text []
  isString := fun c => match c with
    | .text _ => true
    | .bytes _ => false
  text := fun _ => .inr ()
  raw := fun _ => .inr ()
  arrayBuffer := fun _ => .ok (.inr ())
  blob := id
  bytes := id
  parse := .ok
  form := fun _ => .error ()
  ofNull := fun _ => .inl []

def twoPairs : Content :=
  .bytes (BodyBytes.View.ofBuffer (Utf8.encode "a+b=c&d=%E2%82%AC".toList))

theorem formData_iff_sample :
    (Holds twoPairs (serialize [("a b".toList,"c".toList),("d".toList,"€".toList)]) ∧
      ((form .response twoPairs).responseFormData (formCodec decodeUtf8 () onlyForms)).2 ≠
        .fulfilled (.inl
          [(units "a b".toList,units "c".toList),(units "d".toList,units "€".toList)])) ∧
    Returns ((form .response twoPairs).responseFormData
      (formCodec decodeUtf8 () onlyForms)).2 := by
  obtain ⟨hpairs,-,hreturns⟩ :=
    formData_iff decodeUtf8_ascii () onlyForms (b := form .response twoPairs)
      rfl (by decide +kernel) rfl
  have hc : Holds twoPairs (serialize [("a b".toList,"c".toList),("d".toList,"€".toList)]) :=
    .inr ⟨_,rfl,by decide +kernel⟩
  refine ⟨⟨hc,fun h => ?_⟩,hreturns.mpr (by decide +kernel)⟩
  have hspace := ((hpairs _ hc).2.mp h) ("a b".toList,"c".toList) (by decide)
  exact absurd hspace.1 (by decide)

/-- A space comes back as a plus sign, and a percent sign alone is thrown. -/
theorem plus_and_percent :
    serialize [("a b".toList,"c".toList)] = "a+b=c".toList ∧
    ((form .request (.text (units "a+b=c".toList))).requestFormData
      (formCodec decodeUtf8 () onlyForms)).2 =
        .fulfilled (.inl [(units "a+b".toList,units "c".toList)]) ∧
    ((form .request (.text (units "%".toList))).requestFormData
      (formCodec decodeUtf8 () onlyForms)).2 =
        .thrown (.conversion ()) := by
  decide +kernel

end UrlencodedForm
end AsioQuickjs
