import AsioQuickjs.JsLiteral
import Mathlib.Data.List.TakeWhile

/-! The strings and byte arrays that bodies are made of. A string is a list of characters;
where the source goes through it by `charCodeAt` it is the list of its code units. -/
namespace AsioQuickjs
namespace BodyBytes

def units (s : List Char) : List ℕ := s.flatMap fun c => Utf8.units c.toNat

def unreserved (c : Char) : Bool := c.isAlphanum || c ∈ "-_.!~*'()".toList

def hexChar (n : ℕ) : Char := Char.ofNat (if n < 10 then 48+n else 55+n)

def percent (b : UInt8) : List Char := ['%',hexChar (b.toNat/16),hexChar (b.toNat % 16)]

def encodeURIComponent (s : List Char) : List Char :=
  s.flatMap fun c => if unreserved c then [c] else (String.utf8EncodeChar c).flatMap percent

/-- The code unit that an escape stands for behind its `%`, and the length of the rest. -/
def escape : List ℕ → Option (ℕ × ℕ)
  | 117::a::b::c::d::_ => do
    let a ← JsLiteral.hexDigit a
    let b ← JsLiteral.hexDigit b
    let c ← JsLiteral.hexDigit c
    let d ← JsLiteral.hexDigit d
    return (4096*a+256*b+16*c+d,5)
  | a::b::_ => do
    let a ← JsLiteral.hexDigit a
    let b ← JsLiteral.hexDigit b
    return (16*a+b,2)
  | _ => none

/-- `unescape`, with so many units left to skip. -/
def unescapeFrom : ℕ → List ℕ → List ℕ
  | _, [] => []
  | skip+1, _::us => unescapeFrom skip us
  | 0, u::us =>
    if u = 37 then
      match escape us with
      | some (v,n) => v::unescapeFrom n us
      | none => u::unescapeFrom 0 us
    else u::unescapeFrom 0 us

/-- `unescape(encodeURIComponent(s))`, unit by unit `& 0xff`. -/
def stringToBytes (s : List Char) : Bytes :=
  (unescapeFrom 0 (units (encodeURIComponent s))).map Nat.toUInt8

/-- A typed-array view of a buffer. -/
structure View where
  buffer : Bytes
  byteOffset : ℕ
  byteLength : ℕ
  inBounds : byteOffset+byteLength ≤ buffer.length

/-- `new Uint8Array(buffer)`. -/
def View.ofBuffer (buffer : Bytes) : View := ⟨buffer,0,buffer.length,by simp⟩

def View.bytes (v : View) : Bytes := (v.buffer.drop v.byteOffset).take v.byteLength

/-- `v.buffer.slice(v.byteOffset, v.byteOffset + v.byteLength)`. -/
def View.slice (v : View) : Bytes := (v.buffer.take (v.byteOffset+v.byteLength)).drop v.byteOffset

def fromCharCodes (b : Bytes) : List Char := b.map fun x => Char.ofNat x.toNat

@[simp] theorem units_append (s t : List Char) : units (s++t) = units s++units t := by
  simp [units]

theorem units_ascii {c : Char} (h : c.toNat < 128) : Utf8.units c.toNat = [c.toNat] :=
  if_pos (by omega)

theorem units_cons_ascii {c : Char} (h : c.toNat < 128) (s : List Char) :
    units (c::s) = c.toNat::units s := by
  simp [units,units_ascii h]

theorem hexChar_toNat : ∀ n < 16, (hexChar n).toNat < 128 ∧ (hexChar n).toNat ≠ 117 ∧
    (hexChar n).toNat ≠ 0 ∧ JsLiteral.hexDigit (hexChar n).toNat = some n := by decide

theorem escape_two {x y a b : ℕ} {us : List ℕ} (hx : x ≠ 117)
    (ha : JsLiteral.hexDigit x = some a) (hb : JsLiteral.hexDigit y = some b) :
    escape (x::y::us) = some (16*a+b,2) := by
  unfold escape
  split
  · next heq => exact absurd (List.cons.inj heq).1 hx
  · next heq =>
    obtain ⟨rfl,htail⟩ := List.cons.inj heq
    obtain ⟨rfl,-⟩ := List.cons.inj htail
    simp [ha,hb]
  · next hno => exact absurd rfl (hno x y us)

theorem unescape_percent (b : UInt8) (us : List ℕ) :
    unescapeFrom 0 (units (percent b)++us) = b.toNat::unescapeFrom 0 us := by
  have hb := UInt8.toNat_lt b
  obtain ⟨hh,hu,-,hhex⟩ := hexChar_toNat (b.toNat/16) (by omega)
  obtain ⟨hl,-,-,hlex⟩ := hexChar_toNat (b.toNat % 16) (by omega)
  have hunits : units (percent b) =
      [37,(hexChar (b.toNat/16)).toNat,(hexChar (b.toNat % 16)).toNat] := by
    rw [percent,units_cons_ascii (by decide),units_cons_ascii hh,units_cons_ascii hl]
    rfl
  have hvalue : 16*(b.toNat/16)+b.toNat % 16 = b.toNat := by omega
  rw [hunits]
  simp only [List.cons_append,List.nil_append,unescapeFrom,if_true,escape_two hu hhex hlex,hvalue]

theorem unescape_percents (bs : Bytes) (us : List ℕ) :
    unescapeFrom 0 (units (bs.flatMap percent)++us) = bs.map UInt8.toNat++unescapeFrom 0 us := by
  induction bs with
  | nil => rfl
  | cons b bs ih =>
    rw [List.flatMap_cons,units_append,List.append_assoc,unescape_percent,ih]
    rfl

theorem unreserved_ascii {c : Char} (h : unreserved c = true) :
    c.toNat < 128 ∧ c.toNat ≠ 37 ∧ c.toNat ≠ 0 := by
  have hmarks : ∀ m ∈ "-_.!~*'()".toList, m.toNat < 128 ∧ m.toNat ≠ 37 ∧ m.toNat ≠ 0 := by simp
  rcases Bool.or_eq_true_iff.mp h with halnum | hmark
  · have hval : c.toNat = c.val.toNat := rfl
    have hrange : (decide (65 ≤ c.val ∧ c.val ≤ 90) || (decide (97 ≤ c.val) && decide (c.val ≤ 122)) ||
      (decide (48 ≤ c.val) && decide (c.val ≤ 57))) = true := halnum
    simp only [Bool.or_eq_true,Bool.and_eq_true,decide_eq_true_eq,UInt32.le_iff_toNat_le] at hrange
    simp at hrange
    omega
  · exact hmarks c (by simpa using hmark)

theorem utf8EncodeChar_ascii {c : Char} (h : c.toNat < 128) :
    String.utf8EncodeChar c = [c.toNat.toUInt8] :=
  if_pos (Nat.le_of_lt_succ h)

theorem unescape_encodeURIComponent (s : List Char) :
    unescapeFrom 0 (units (encodeURIComponent s)) = (Utf8.encode s).map UInt8.toNat := by
  induction s with
  | nil => rfl
  | cons c s ih =>
    simp only [encodeURIComponent,Utf8.encode,List.flatMap_cons,units_append,List.map_append] at ih ⊢
    split
    · next hc =>
      obtain ⟨hascii,hpercent,-⟩ := unreserved_ascii hc
      rw [utf8EncodeChar_ascii hascii,units_cons_ascii hascii]
      simp only [units,List.flatMap_nil,List.cons_append,List.nil_append,unescapeFrom,hpercent,
        if_false] at ih ⊢
      rw [ih]
      simp [Nat.mod_eq_of_lt (show c.toNat < 256 by omega)]
    · rw [unescape_percents,ih]

theorem stringToBytes_eq (s : List Char) : stringToBytes s = Utf8.encode s := by
  rw [stringToBytes,unescape_encodeURIComponent,List.map_map]
  simp [Function.comp_def]

@[simp] theorem ofBuffer_bytes (b : Bytes) : (View.ofBuffer b).bytes = b := by
  simp [View.ofBuffer,View.bytes]

@[simp] theorem slice_eq (v : View) : v.slice = v.bytes := by
  simp [View.slice,View.bytes,List.drop_take]

theorem units_length_le (c : Char) :
    (Utf8.units c.toNat).length ≤ (String.utf8EncodeChar c).length ∧
      ((Utf8.units c.toNat).length = (String.utf8EncodeChar c).length → c.toNat < 128) := by
  have hval : c.val.toNat = c.toNat := rfl
  simp only [Utf8.units,String.utf8EncodeChar,hval]
  split <;> split <;> (try split) <;> (try split) <;> simp <;> omega

theorem units_length (s : List Char) : (units s).length ≤ (Utf8.encode s).length ∧
    ((units s).length = (Utf8.encode s).length → ∀ c ∈ s, c.toNat < 128) := by
  induction s with
  | nil => simp [units,Utf8.encode]
  | cons c s ih =>
    obtain ⟨hle,hascii⟩ := units_length_le c
    obtain ⟨hles,hasciis⟩ := ih
    simp only [units,Utf8.encode,List.flatMap_cons,List.length_append] at hles hasciis ⊢
    refine ⟨by omega,fun heq => ?_⟩
    intro d hd
    rcases List.mem_cons.mp hd with rfl | hd
    · exact hascii (by omega)
    · exact hasciis (by omega) d hd

theorem toNat_ofNat : ∀ n < 256, (Char.ofNat n).toNat = n := by decide +kernel

theorem encode_fromCharCodes {b : Bytes} (h : ∀ c ∈ fromCharCodes b, c.toNat < 128) :
    Utf8.encode (fromCharCodes b) = b := by
  induction b with
  | nil => rfl
  | cons x b ih =>
    have hx := h (Char.ofNat x.toNat) (by simp [fromCharCodes])
    have hb := ih fun d hd => h d (List.mem_cons_of_mem _ hd)
    have hcons : fromCharCodes (x::b) = Char.ofNat x.toNat::fromCharCodes b := rfl
    rw [hcons,Utf8.encode_cons,hb,utf8EncodeChar_ascii hx,toNat_ofNat _ (UInt8.toNat_lt x)]
    simp

end BodyBytes
end AsioQuickjs
