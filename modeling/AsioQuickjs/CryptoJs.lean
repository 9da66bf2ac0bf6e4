import AsioQuickjs.Base64
import AsioQuickjs.BodyBytes
import AsioQuickjs.JsText

/-! How `src/js/crypto.js` reads bytes from strings. -/
namespace AsioQuickjs
namespace CryptoJs

/-- What `crypto.js` throws, and the `URIError` of `encodeURIComponent`. -/
inductive Thrown
  | error (message : JsString)
  | typeError (message : JsString)
  | uriError
  deriving DecidableEq

def latin1ToBytes (s : JsString) : Bytes := s.map Nat.toUInt8

/-- `unescape(encodeURIComponent(s))`; the conversion of a lone surrogate throws. -/
def stringToUtf8 (s : JsString) : Except Thrown Bytes :=
  match JsText.chars s with
  | none => .error .uriError
  | some cs => .ok (BodyBytes.stringToBytes cs)

def hexPairs : List ℕ → Bytes
  | a::b::s => (16*a+b).toUInt8::hexPairs s
  | _ => []

def hexToBytes (s : JsString) : Except Thrown Bytes :=
  let digits := s.filterMap JsLiteral.hexDigit
  if digits.length % 2 ≠ 0 then .error (.error (js "Invalid hex string")) else .ok (hexPairs digits)

/-- `ToInt32`. -/
def toInt32 (z : ℤ) : ℤ := if z % 2^32 < 2^31 then z % 2^32 else z % 2^32-2^32

/-- `map[c]` -/
def lookup (c : ℕ) : Option ℕ :=
  if c ∈ Base64.alphabet then some (Base64.alphabet.idxOf c) else none

/-- The loop over the characters, with the bits so far and how many of them are not yet taken,
less eight. -/
def base64Loop : ℤ → ℤ → JsString → Bytes
  | _, _, [] => []
  | val, valb, c::s =>
    if c = 61 then []
    else
      match lookup c with
      | none => base64Loop val valb s
      | some idx =>
        let val := toInt32 (val*2^6)+idx
        let valb := valb+6
        if 0 ≤ valb then
          (toInt32 val/2^valb.toNat % 256).toNat.toUInt8::base64Loop val (valb-8) s
        else base64Loop val valb s

def base64ToBytes (s : JsString) : Bytes := base64Loop 0 (-8) s

theorem lookup_digit : ∀ n < 64, lookup (Base64.digit n) = some n ∧ Base64.digit n ≠ 61 := by
  decide +kernel

theorem toInt32_eq (z : ℤ) : ∃ k, toInt32 z = z+2^32*k := by
  rw [toInt32]
  split
  · exact ⟨-(z/2^32),by omega⟩
  · exact ⟨-(z/2^32)-1,by omega⟩

theorem base64Loop_wait (val valb : ℤ) {c : ℕ} (hc : c < 64) (hb : valb+6 < 0) (s : JsString) :
    ∃ k, base64Loop val valb (Base64.digit c::s) =
      base64Loop (64*val+c+2^32*k) (valb+6) s := by
  obtain ⟨hlookup,hpad⟩ := lookup_digit c hc
  obtain ⟨k,hk⟩ := toInt32_eq (val*2^6)
  refine ⟨k,?_⟩
  have hval : toInt32 (val*2^6)+c = 64*val+c+2^32*k := by omega
  simp only [base64Loop,hpad,hlookup,if_false,hval]
  rw [if_neg (by omega)]

/-- A digit that brings the bits to eight or more: the top eight are a byte. What was above
them does not show. -/
theorem base64Loop_take (val valb : ℤ) {c : ℕ} (hc : c < 64) (hb : 0 ≤ valb+6) (s : JsString) :
    ∃ k l, base64Loop val valb (Base64.digit c::s) =
      ((64*val+c+2^32*k)/2^(valb+6).toNat % 256).toNat.toUInt8::
        base64Loop (64*val+c+2^32*l) (valb-2) s := by
  obtain ⟨hlookup,hpad⟩ := lookup_digit c hc
  obtain ⟨k,hk⟩ := toInt32_eq (val*2^6)
  have hval : toInt32 (val*2^6)+c = 64*val+c+2^32*k := by omega
  obtain ⟨l,hl⟩ := toInt32_eq (64*val+c+2^32*k)
  refine ⟨k+l,k,?_⟩
  have hval' : toInt32 (64*val+c+2^32*k) = 64*val+c+2^32*(k+l) := by omega
  have hvalb : valb+6-8 = valb-2 := by omega
  simp only [base64Loop,hpad,hlookup,if_false,hval,hval',hvalb]
  rw [if_pos hb]

theorem toUInt8_of_eq {b : UInt8} {z : ℤ} (h : z = b.toNat) : z.toNat.toUInt8 = b := by
  rw [h,Int.toNat_natCast,Nat.toUInt8_eq]
  exact UInt8.ofNat_toNat

-- Two digits are a byte, three are two, and four are three with nothing left, whatever was
-- read before.

theorem base64Loop_two (c1 c2 : ℕ) (h1 : c1 < 64) (h2 : c2 < 64) (val : ℤ) (s : JsString)
    {a : UInt8} (ha : a.toNat = c1*4+c2/16) :
    ∃ k, base64Loop val (-8) (Base64.digit c1::Base64.digit c2::s) =
      a::base64Loop (64*(64*val+c1)+c2+64*k) (-4) s := by
  obtain ⟨k1,hk1⟩ := base64Loop_wait val (-8) h1 (by decide) (Base64.digit c2::s)
  obtain ⟨k2,l2,hk2⟩ :=
    base64Loop_take (64*val+c1+2^32*k1) (-8+6) h2 (by decide) s
  refine ⟨2^32*k1+2^26*l2,?_⟩
  have hshift : ((-8 : ℤ)+6+6).toNat = 4 := rfl
  have hstate : 64*(64*val+c1+2^32*k1)+c2+2^32*l2 =
      64*(64*val+c1)+c2+64*(2^32*k1+2^26*l2) := by omega
  rw [hk1,hk2,hshift,toUInt8_of_eq (b := a) (by omega),hstate]
  rfl

theorem base64Loop_three (c3 : ℕ) (h3 : c3 < 64) (val k : ℤ) (c2 : ℕ) (s : JsString)
    {b : UInt8} (hb : b.toNat = c2 % 16*16+c3/4) :
    ∃ l, base64Loop (64*val+c2+64*k) (-4) (Base64.digit c3::s) =
      b::base64Loop (64*c2+c3+64*64*l) (-6) s := by
  obtain ⟨i,j,h⟩ := base64Loop_take (64*val+c2+64*k) (-4) h3 (by decide) s
  refine ⟨val+k+2^20*j,?_⟩
  have hshift : ((-4 : ℤ)+6).toNat = 2 := rfl
  have hstate : 64*(64*val+c2+64*k)+c3+2^32*j = 64*c2+c3+64*64*(val+k+2^20*j) := by omega
  rw [h,hshift,toUInt8_of_eq (b := b) (by omega),hstate]
  rfl

theorem base64Loop_four (c4 : ℕ) (h4 : c4 < 64) (c2 c3 : ℕ) (l : ℤ) (s : JsString)
    {c : UInt8} (hc : c.toNat = c3 % 4*64+c4) :
    ∃ val, base64Loop (64*c2+c3+64*64*l) (-6) (Base64.digit c4::s) =
      c::base64Loop val (-8) s := by
  obtain ⟨i,j,h⟩ := base64Loop_take (64*c2+c3+64*64*l) (-6) h4 (by decide) s
  refine ⟨64*(64*c2+c3+64*64*l)+c4+2^32*j,?_⟩
  have hshift : ((-6 : ℤ)+6).toNat = 0 := rfl
  rw [h,hshift,toUInt8_of_eq (b := c) (by omega)]
  rfl

theorem base64Loop_padding (val valb : ℤ) (n : ℕ) :
    base64Loop val valb (List.replicate n 61) = [] := by
  cases n <;> simp [base64Loop,List.replicate_succ]

theorem base64Loop_digits (b : Bytes) (val : ℤ) (n : ℕ) :
    base64Loop val (-8) (Base64.digits b++List.replicate n 61) = b := by
  induction b using Base64.digits.induct generalizing val with
  | case1 => exact base64Loop_padding val (-8) n
  | case2 a =>
    have ha := UInt8.toNat_lt a
    obtain ⟨k,hk⟩ := base64Loop_two (a.toNat/4) (a.toNat % 4*16) (by omega)
      (by omega) val (List.replicate n 61) (a := a) (by omega)
    rw [Base64.digits,List.cons_append,List.cons_append,List.nil_append,hk,base64Loop_padding]
  | case3 a b =>
    have ha := UInt8.toNat_lt a
    have hb := UInt8.toNat_lt b
    obtain ⟨k,hk⟩ := base64Loop_two (a.toNat/4) (a.toNat % 4*16+b.toNat/16) (by omega)
      (by omega) val (Base64.digit (b.toNat % 16*4)::List.replicate n 61) (a := a) (by omega)
    obtain ⟨l,hl⟩ := base64Loop_three (b.toNat % 16*4) (by omega)
      (64*val+(a.toNat/4 : ℕ)) k (a.toNat % 4*16+b.toNat/16) (List.replicate n 61) (b := b)
      (by omega)
    rw [Base64.digits,List.cons_append,List.cons_append,List.cons_append,List.nil_append,hk,hl,
      base64Loop_padding]
  | case4 a b c rest ih =>
    have ha := UInt8.toNat_lt a
    have hb := UInt8.toNat_lt b
    have hc := UInt8.toNat_lt c
    obtain ⟨k,hk⟩ := base64Loop_two (a.toNat/4) (a.toNat % 4*16+b.toNat/16) (by omega)
      (by omega) val (Base64.digit (b.toNat % 16*4+c.toNat/64)::Base64.digit (c.toNat % 64)::
        (Base64.digits rest++List.replicate n 61)) (a := a) (by omega)
    obtain ⟨l,hl⟩ := base64Loop_three (b.toNat % 16*4+c.toNat/64) (by omega)
      (64*val+(a.toNat/4 : ℕ)) k (a.toNat % 4*16+b.toNat/16)
      (Base64.digit (c.toNat % 64)::(Base64.digits rest++List.replicate n 61)) (b := b) (by omega)
    obtain ⟨val',hval'⟩ := base64Loop_four (c.toNat % 64) (by omega)
      (a.toNat % 4*16+b.toNat/16) (b.toNat % 16*4+c.toNat/64) l
      (Base64.digits rest++List.replicate n 61) (c := c) (by omega)
    rw [Base64.digits,List.cons_append,List.cons_append,List.cons_append,List.cons_append,hk,hl,
      hval',ih]

theorem base64ToBytes_base64 (b : Bytes) : base64ToBytes (Base64.base64 b) = b :=
  base64Loop_digits b 0 _

end CryptoJs
end AsioQuickjs
