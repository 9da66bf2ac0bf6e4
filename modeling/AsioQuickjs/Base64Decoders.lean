import AsioQuickjs.CryptoJs

/-! The base64 functions of host.cpp over the `EVP` functions of OpenSSL, and the agreement of
the three decoders: this one, that of `crypto.js` and that of `fetch.js`. -/
namespace AsioQuickjs
namespace Base64Decoders

open Base64 (base64 digit digits alphabet binaryString)

def pad : UInt8 := 61

/-- A digit as a `char`. -/
def char (n : ℕ) : UInt8 := (digit (n % 64)).toUInt8

/-- `EVP_EncodeBlock`: four characters for three bytes, the last group padded. -/
def evpEncodeBlock : Bytes → Bytes
  | [] => []
  | [a] =>
    let l := a.toNat*2^16
    [char (l/2^18),char (l/2^12),pad,pad]
  | [a,b] =>
    let l := a.toNat*2^16+b.toNat*2^8
    [char (l/2^18),char (l/2^12),char (l/2^6),pad]
  | a::b::c::rest =>
    let l := a.toNat*2^16+b.toNat*2^8+c.toNat
    char (l/2^18)::char (l/2^12)::char (l/2^6)::char l::evpEncodeBlock rest

def bits (u : UInt8) : Option ℕ :=
  if u = pad then some 0 else CryptoJs.lookup u.toNat

/-- `EVP_DecodeBlock`: three bytes for four characters, padded or not, or a failure. -/
def evpDecodeBlock : Bytes → Option Bytes
  | [] => some []
  | x::y::z::w::rest => do
    let a ← bits x
    let b ← bits y
    let c ← bits z
    let d ← bits w
    let l := a*2^18+b*2^12+c*2^6+d
    let out ← evpDecodeBlock rest
    return (l/2^16).toUInt8::(l/2^8).toUInt8::l.toUInt8::out
  | _ => none

/-- The length is an `int` for OpenSSL, and its result is one. -/
def base64EncodeBytes (data : Bytes) : Except String Bytes :=
  if data = [] then .ok []
  else
    let out := evpEncodeBlock (data.take (int32OfUInt64 data.length).toNat)
    if int32OfUInt64 out.length < 0 then .error "base64 encode failed" else .ok out

def padding (s : Bytes) : ℕ :=
  if s.getD (s.length-1) 0 = pad then
    if 2 ≤ s.length ∧ s.getD (s.length-2) 0 = pad then 2 else 1
  else 0

def base64DecodeString (s : Bytes) : Except String Bytes :=
  if s = [] then .ok []
  else
    match evpDecodeBlock (s.take (int32OfUInt64 s.length).toNat) with
    | none => .error "base64 decode failed"
    | some out =>
      -- a `resize` to less than nothing
      if out.length < padding s then .error "vector::_M_default_append"
      else .ok (out.take (out.length-padding s))

theorem digit_toUInt8 : ∀ n < 64, (digit n).toUInt8.toNat = digit n ∧
    bits (digit n).toUInt8 = some n ∧ (digit n).toUInt8 ≠ pad := by
  decide +kernel

theorem char_toNat {k : ℕ} (h : k < 64) : (char k).toNat = digit k := by
  rw [char,Nat.mod_eq_of_lt h]
  exact (digit_toUInt8 k h).1

theorem char_eq {n k : ℕ} (h : n % 64 = k) : char n = char k := by
  rw [char,char,← h,Nat.mod_mod]

theorem length_group (a b c : UInt8) (rest : Bytes) :
    (a::b::c::rest).length % 3 = rest.length % 3 := by
  simp only [List.length_cons]
  omega

theorem evpEncodeBlock_one (a : UInt8) :
    evpEncodeBlock [a] = [char (a.toNat/4),char (a.toNat % 4*16),pad,pad] := by
  have ha := UInt8.toNat_lt a
  exact congrArg₂ List.cons (char_eq (by omega))
    (congrArg₂ List.cons (char_eq (by omega)) rfl)

theorem evpEncodeBlock_two (a b : UInt8) :
    evpEncodeBlock [a,b] =
      [char (a.toNat/4),char (a.toNat % 4*16+b.toNat/16),char (b.toNat % 16*4),pad] := by
  have ha := UInt8.toNat_lt a
  have hb := UInt8.toNat_lt b
  exact congrArg₂ List.cons (char_eq (by omega)) (congrArg₂ List.cons (char_eq (by omega))
    (congrArg₂ List.cons (char_eq (by omega)) rfl))

theorem evpEncodeBlock_group (a b c : UInt8) (rest : Bytes) :
    evpEncodeBlock (a::b::c::rest) =
      char (a.toNat/4)::char (a.toNat % 4*16+b.toNat/16)::char (b.toNat % 16*4+c.toNat/64)::
        char (c.toNat % 64)::evpEncodeBlock rest := by
  have ha := UInt8.toNat_lt a
  have hb := UInt8.toNat_lt b
  have hc := UInt8.toNat_lt c
  rw [evpEncodeBlock]
  exact congrArg₂ List.cons (char_eq (by omega)) (congrArg₂ List.cons (char_eq (by omega))
    (congrArg₂ List.cons (char_eq (by omega)) (congrArg₂ List.cons (char_eq (by omega)) rfl)))

theorem evpEncodeBlock_eq (b : Bytes) : (evpEncodeBlock b).map UInt8.toNat = base64 b := by
  induction b using evpEncodeBlock.induct with
  | case1 => rfl
  | case2 a =>
    have ha := UInt8.toNat_lt a
    simp only [evpEncodeBlock_one,List.map_cons,List.map_nil]
    rw [char_toNat (by omega),char_toNat (by omega)]
    rfl
  | case3 a b =>
    have ha := UInt8.toNat_lt a
    have hb := UInt8.toNat_lt b
    simp only [evpEncodeBlock_two,List.map_cons,List.map_nil]
    rw [char_toNat (by omega),char_toNat (by omega),char_toNat (by omega)]
    rfl
  | case4 a b c rest ih =>
    have ha := UInt8.toNat_lt a
    have hb := UInt8.toNat_lt b
    have hc := UInt8.toNat_lt c
    have hlen := length_group a b c rest
    have hbase : base64 (a::b::c::rest) = digit (a.toNat/4)::digit (a.toNat % 4*16+b.toNat/16)::
        digit (b.toNat % 16*4+c.toNat/64)::digit (c.toNat % 64)::base64 rest := by
      rw [base64,hlen]
      rfl
    simp only [evpEncodeBlock_group,List.map_cons,ih,hbase]
    rw [char_toNat (by omega),char_toNat (by omega),char_toNat (by omega),char_toNat (by omega)]

theorem evpEncodeBlock_length (b : Bytes) :
    (evpEncodeBlock b).length = 4*((b.length+2)/3) := by
  induction b using evpEncodeBlock.induct with
  | case1 => rfl
  | case2 a => simp [evpEncodeBlock]
  | case3 a b => simp [evpEncodeBlock]
  | case4 a b c rest ih =>
    simp only [evpEncodeBlock,List.length_cons,ih]
    omega

theorem base64EncodeBytes_eq {b : Bytes} (h : 4*((b.length+2)/3) < 2^31) :
    base64EncodeBytes b = .ok (evpEncodeBlock b) := by
  rw [base64EncodeBytes]
  split
  · next hnil =>
    rw [hnil]
    rfl
  · have hlen : int32OfUInt64 b.length = b.length := int32OfUInt64_of_lt (by omega)
    have hout : ¬ int32OfUInt64 (evpEncodeBlock b).length < 0 := by
      rw [evpEncodeBlock_length,int32OfUInt64_of_lt h]
      omega
    simp only [hlen,Int.toNat_natCast,List.take_length]
    rw [if_neg hout]

theorem bits_char {k : ℕ} (h : k < 64) : bits (char k) = some k := by
  rw [char,Nat.mod_eq_of_lt h]
  exact (digit_toUInt8 k h).2.1

theorem bits_pad : bits pad = some 0 := if_pos rfl

theorem char_ne_pad (n : ℕ) : char n ≠ pad :=
  (digit_toUInt8 (n % 64) (Nat.mod_lt _ (by decide))).2.2

theorem toUInt8_eq {b : UInt8} {n : ℕ} (h : n % 256 = b.toNat) : n.toUInt8 = b := by
  rw [← UInt8.toNat_inj,Nat.toUInt8_eq,UInt8.toNat_ofNat']
  exact h

theorem evpDecodeBlock_evpEncodeBlock (b : Bytes) :
    evpDecodeBlock (evpEncodeBlock b) = some (b++List.replicate ((3-b.length % 3) % 3) 0) := by
  induction b using evpEncodeBlock.induct with
  | case1 => rfl
  | case2 a =>
    have ha := UInt8.toNat_lt a
    simp only [evpEncodeBlock_one,evpDecodeBlock]
    rw [bits_char (by omega),bits_char (by omega),bits_pad]
    simp only [Option.bind_eq_bind,Option.bind_some,Option.pure_def]
    rw [toUInt8_eq (b := a) (by omega),toUInt8_eq (b := 0) (by simp; omega),
      toUInt8_eq (b := 0) (by simp; omega)]
    rfl
  | case3 a b =>
    have ha := UInt8.toNat_lt a
    have hb := UInt8.toNat_lt b
    simp only [evpEncodeBlock_two,evpDecodeBlock]
    rw [bits_char (by omega),bits_char (by omega),bits_char (by omega),bits_pad]
    simp only [Option.bind_eq_bind,Option.bind_some,Option.pure_def]
    rw [toUInt8_eq (b := a) (by omega),toUInt8_eq (b := b) (by omega),
      toUInt8_eq (b := 0) (by simp; omega)]
    rfl
  | case4 a b c rest ih =>
    have ha := UInt8.toNat_lt a
    have hb := UInt8.toNat_lt b
    have hc := UInt8.toNat_lt c
    have hlen := length_group a b c rest
    simp only [evpEncodeBlock_group,evpDecodeBlock,ih,hlen]
    rw [bits_char (by omega),bits_char (by omega),bits_char (by omega),bits_char (by omega)]
    simp only [Option.bind_eq_bind,Option.bind_some,Option.pure_def]
    rw [toUInt8_eq (b := a) (by omega),toUInt8_eq (b := b) (by omega),
      toUInt8_eq (b := c) (by omega)]
    rfl

theorem padding_append {front back : Bytes} (h : 2 ≤ back.length) :
    padding (front++back) = padding back := by
  have hat (i : ℕ) (hi : 1 ≤ i) (hle : i ≤ 2) :
      (front++back).getD ((front++back).length-i) 0 = back.getD (back.length-i) 0 := by
    rw [List.getD_eq_getElem?_getD,List.getD_eq_getElem?_getD,List.length_append,
      List.getElem?_append_right (by omega)]
    congr 2
    omega
  rw [padding,padding,hat 1 (by decide) (by decide),hat 2 (by decide) (by decide),
    List.length_append]
  simp only [h,show 2 ≤ front.length+back.length by omega]

theorem padding_evpEncodeBlock {b : Bytes} (hne : b ≠ []) :
    padding (evpEncodeBlock b) = (3-b.length % 3) % 3 := by
  induction b using evpEncodeBlock.induct with
  | case1 => exact absurd rfl hne
  | case2 a => simp [evpEncodeBlock,padding]
  | case3 a b => simp [evpEncodeBlock,padding,char_ne_pad]
  | case4 a b c rest ih =>
    have hlen := length_group a b c rest
    by_cases hrest : rest = []
    · subst hrest
      simp [evpEncodeBlock,padding,char_ne_pad]
    · have hpos := List.length_pos_iff.mpr hrest
      have hlong : 2 ≤ (evpEncodeBlock rest).length := by
        rw [evpEncodeBlock_length]
        omega
      obtain ⟨front,hfront⟩ : ∃ front, evpEncodeBlock (a::b::c::rest) =
          front++evpEncodeBlock rest := ⟨[_,_,_,_],evpEncodeBlock_group a b c rest⟩
      rw [hlen,← ih hrest,hfront,padding_append hlong]

theorem base64DecodeString_evpEncodeBlock {b : Bytes} (h : 4*((b.length+2)/3) < 2^31) :
    base64DecodeString (evpEncodeBlock b) = .ok b := by
  have hlength := evpEncodeBlock_length b
  rw [base64DecodeString]
  by_cases hne : b = []
  · subst hne
    rfl
  · have hpos := List.length_pos_iff.mpr hne
    have hout : evpEncodeBlock b ≠ [] := by
      rw [← List.length_pos_iff,hlength]
      omega
    have hint : int32OfUInt64 (evpEncodeBlock b).length = (evpEncodeBlock b).length :=
      int32OfUInt64_of_lt (hlength ▸ h)
    rw [if_neg hout,hint,Int.toNat_natCast,List.take_length,evpDecodeBlock_evpEncodeBlock]
    simp only [padding_evpEncodeBlock hne,List.length_append,List.length_replicate]
    rw [if_neg (by omega)]
    simp

/-- For all bytes whose text has a length that is an `int`, the text is the standard one, and
the three decoders give the bytes back. -/
theorem decoders_agree (b : Bytes) (h : 4*((b.length+2)/3) < 2^31) :
    ∃ text, base64EncodeBytes b = .ok text ∧ binaryString text = base64 b ∧
      base64DecodeString text = .ok b ∧
      CryptoJs.base64ToBytes (binaryString text) = b ∧
      Base64.base64Decode (binaryString text) = binaryString b := by
  have htext : binaryString (evpEncodeBlock b) = base64 b := evpEncodeBlock_eq b
  refine ⟨evpEncodeBlock b,base64EncodeBytes_eq h,htext,base64DecodeString_evpEncodeBlock h,?_,?_⟩
  · rw [htext]
    exact CryptoJs.base64ToBytes_base64 b
  · rw [htext]
    exact Base64.base64Decode_base64 b

theorem decoders_agree_sample :
    ∃ text, base64EncodeBytes [0x00,0x01,0x02,0xff,0xfe] = .ok text ∧
      binaryString text = base64 [0x00,0x01,0x02,0xff,0xfe] ∧
      base64DecodeString text = .ok [0x00,0x01,0x02,0xff,0xfe] ∧
      CryptoJs.base64ToBytes (binaryString text) = [0x00,0x01,0x02,0xff,0xfe] ∧
      Base64.base64Decode (binaryString text) = binaryString [0x00,0x01,0x02,0xff,0xfe] :=
  decoders_agree _ (by decide)

end Base64Decoders
end AsioQuickjs
