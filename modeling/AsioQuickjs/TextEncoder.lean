import AsioQuickjs.TextDecoder

/-! `TextEncoder`, made before there is a `Buffer`: it writes bytes into a buffer that it lets
grow, and what it writes is read back by the decoder. -/
namespace AsioQuickjs
namespace TextEncoder

open BodyBytes (units)
open JsText (isHigh isLow)
open TextDecoder (plain wideUnits)

/-- The next position of the string, that of the buffer, and the buffer with the length `i` it
is reckoned from. -/
structure Encoder where
  e : ℕ
  n : ℕ
  i : ℕ
  o : Bytes

/-- `i>>>3<<3` as the length of a new array, which cannot be negative. -/
def aligned (i : ℕ) : Option ℕ :=
  if (i % 2^32) >>> 3 <<< 3 < 2^31 then some ((i % 2^32) >>> 3 <<< 3) else none

/-- The bytes of a code point, `[]` where the loop goes on. -/
def pointBytes (t : ℕ) : List ℕ :=
  if t &&& 4294967168 = 0 then [t]
  else if t &&& 4294965248 = 0 then [t >>> 6 &&& 31 ||| 192,t &&& 63 ||| 128]
  else if t &&& 4294901760 = 0 then
    [t >>> 12 &&& 15 ||| 224,t >>> 6 &&& 63 ||| 128,t &&& 63 ||| 128]
  else if t &&& 4292870144 = 0 then
    [t >>> 18 &&& 7 ||| 240,t >>> 12 &&& 63 ||| 128,t >>> 6 &&& 63 ||| 128,t &&& 63 ||| 128]
  else []

/-- `o[n++]=b`. A `Uint8Array` keeps eight bits, and nothing past its end. -/
def Encoder.put (s : Encoder) (b : ℕ) : Encoder :=
  { s with o := s.o.set s.n b.toUInt8, n := s.n+1 }

section

-- the integer part of `i*(1+e/length*2)`, which is computed in doubles
variable (scale : ℕ → ℕ → ℕ → ℕ)

/-- A longer buffer with the bytes of this one, which have to fit in it. -/
def Encoder.grow (length : ℕ) (s : Encoder) : Option Encoder :=
  (aligned (scale (s.i+8) s.e length)).bind fun i =>
    if s.o.length ≤ i then some { s with i := i, o := s.o++List.replicate (i-s.o.length) 0 }
    else none

def Encoder.write (length : ℕ) (s : Encoder) (t : ℕ) : Option Encoder :=
  (if s.n+4 > s.o.length then s.grow scale length else some s).map fun s =>
    (pointBytes t).foldl Encoder.put s

/-- The loop over what is left of the string. A high surrogate alone is passed over. -/
def encodeFrom (length : ℕ) : JsString → Encoder → Option Encoder
  | [], s => some s
  | [t], s =>
    if 55296 ≤ t ∧ t ≤ 56319 then some { s with e := s.e+1 }
    else Encoder.write scale length { s with e := s.e+1 } t
  | t::v::us, s =>
    if 55296 ≤ t ∧ t ≤ 56319 then
      if v &&& 64512 = 56320 then
        (Encoder.write scale length { s with e := s.e+2 }
          (((t &&& 1023) <<< 10)+(v &&& 1023)+65536)).bind (encodeFrom length us)
      else encodeFrom length (v::us) { s with e := s.e+1 }
    else (Encoder.write scale length { s with e := s.e+1 } t).bind (encodeFrom length (v::us))

def firstLength (length : ℕ) : ℕ := max 32 (length+length >>> 1+7)

/-- `TextEncoder.encode`, where no buffer is refused. -/
def encode (r : JsString) : Option Bytes :=
  (aligned (firstLength r.length)).bind fun k =>
    (encodeFrom scale r.length r ⟨0,0,firstLength r.length,List.replicate k 0⟩).map fun s =>
      s.o.take s.n

end

/-- The code points of a string: a high surrogate alone is none, a low one is. -/
def points : JsString → List ℕ
  | [] => []
  | [t] => if isHigh t then [] else [t]
  | t::v::us =>
    if isHigh t then
      if isLow v then (0x10000+(t-0xD800)*0x400+(v-0xDC00))::points us else points (v::us)
    else t::points (v::us)

def utf8 (t : ℕ) : List ℕ :=
  if t < 0x80 then [t]
  else if t < 0x800 then [t/0x40+0xC0,t % 0x40+0x80]
  else if t < 0x10000 then [t/0x1000+0xE0,t/0x40 % 0x40+0x80,t % 0x40+0x80]
  else [t/0x40000+0xF0,t/0x1000 % 0x40+0x80,t/0x40 % 0x40+0x80,t % 0x40+0x80]

def bytes (s : JsString) : Bytes := (points s).flatMap fun t => (utf8 t).map Nat.toUInt8

theorem pointBytes_eq {t : ℕ} (ht : t < 0x200000) : pointBytes t = utf8 t := by
  have hone : t &&& 4294967168 = 0 ↔ t < 0x80 := @Bits.and_high_eq_zero t 25 7 (by omega)
  have htwo : t &&& 4294965248 = 0 ↔ t < 0x800 := @Bits.and_high_eq_zero t 21 11 (by omega)
  have hthree : t &&& 4294901760 = 0 ↔ t < 0x10000 := @Bits.and_high_eq_zero t 16 16 (by omega)
  have hfour : t &&& 4292870144 = 0 ↔ t < 0x200000 := @Bits.and_high_eq_zero t 11 21 (by omega)
  have hmid (x : ℕ) : x &&& 63 ||| 128 = x % 0x40+0x80 := @Bits.and_or 128 6 (by decide) x
  have hlead2 (x : ℕ) : x &&& 31 ||| 192 = x % 0x20+0xC0 := @Bits.and_or 192 5 (by decide) x
  have hlead3 (x : ℕ) : x &&& 15 ||| 224 = x % 0x10+0xE0 := @Bits.and_or 224 4 (by decide) x
  have hlead4 (x : ℕ) : x &&& 7 ||| 240 = x % 8+0xF0 := @Bits.and_or 240 3 (by decide) x
  have hsix : t >>> 6 = t/0x40 := Nat.shiftRight_eq_div_pow t 6
  have htwelve : t >>> 12 = t/0x1000 := Nat.shiftRight_eq_div_pow t 12
  have heighteen : t >>> 18 = t/0x40000 := Nat.shiftRight_eq_div_pow t 18
  rw [pointBytes,utf8]
  simp only [hone,htwo,hthree,hfour,hlead2,hlead3,hlead4,hmid,hsix,htwelve,heighteen]
  split_ifs with h1 h2 h3
  · rfl
  · rw [@Nat.mod_eq_of_lt (t/0x40) _ (by omega)]
  · rw [@Nat.mod_eq_of_lt (t/0x1000) _ (by omega)]
  · rw [@Nat.mod_eq_of_lt (t/0x40000) _ (by omega)]

theorem utf8_length (t : ℕ) : (utf8 t).length ≤ 4 ∧ (t < 0x10000 → (utf8 t).length ≤ 3) := by
  rw [utf8]
  split_ifs <;> simp [*]

theorem utf8_char (c : Char) : (utf8 c.toNat).map Nat.toUInt8 = String.utf8EncodeChar c := by
  have hvalid : c.toNat < 0xd800 ∨ (0xdfff < c.toNat ∧ c.toNat < 0x110000) := c.valid
  have hval : c.val.toNat = c.toNat := rfl
  simp only [String.utf8EncodeChar,hval,utf8]
  rcases Nat.lt_or_ge c.toNat 0x80 with h1 | h1
  · rw [if_pos h1,if_pos (by omega)]
    rfl
  rcases Nat.lt_or_ge c.toNat 0x800 with h2 | h2
  · rw [if_neg (by omega),if_pos h2,if_neg (by omega),if_pos (by omega),
      @Nat.mod_eq_of_lt (c.toNat/64) 32 (by omega)]
    rfl
  rcases Nat.lt_or_ge c.toNat 0x10000 with h3 | h3
  · rw [if_neg (by omega),if_neg (by omega),if_pos h3,if_neg (by omega),if_neg (by omega),
      if_pos (by omega),@Nat.mod_eq_of_lt (c.toNat/4096) 16 (by omega)]
    rfl
  · rw [if_neg (by omega),if_neg (by omega),if_neg (by omega),if_neg (by omega),
      if_neg (by omega),if_neg (by omega),@Nat.mod_eq_of_lt (c.toNat/262144) 8 (by omega)]
    rfl

theorem isLow_iff {v : ℕ} (hv : v < 2^16) : v &&& 64512 = 56320 ↔ isLow v = true := by
  have hhigh : v &&& 64512 = v/2^10*2^10 := @Bits.and_high v 6 10 hv
  rw [hhigh,isLow,Bool.and_eq_true,decide_eq_true_eq,decide_eq_true_eq]
  omega

theorem isHigh_iff (t : ℕ) : (55296 ≤ t ∧ t ≤ 56319) ↔ isHigh t = true := by
  rw [isHigh,Bool.and_eq_true,decide_eq_true_eq,decide_eq_true_eq]
  omega

theorem pair_eq {t v : ℕ} (ht : isHigh t = true) (hv : isLow v = true) :
    ((t &&& 1023) <<< 10)+(v &&& 1023)+65536 = 0x10000+(t-0xD800)*0x400+(v-0xDC00) := by
  have hmask (x : ℕ) : x &&& 1023 = x % 1024 := Bits.and_low x 10
  simp only [isHigh,isLow,Bool.and_eq_true,decide_eq_true_eq] at ht hv
  rw [hmask,hmask,Nat.shiftLeft_eq]
  omega

theorem pair_lt {t v : ℕ} (ht : isHigh t = true) (hv : isLow v = true) :
    0x10000+(t-0xD800)*0x400+(v-0xDC00) < 0x110000 := by
  simp only [isHigh,isLow,Bool.and_eq_true,decide_eq_true_eq] at ht hv
  omega

/-- What doubles leave of `i*(1+e/length*2)`: the integer part is off by one at most, and the
factor is between one and three. -/
structure Doubles (scale : ℕ → ℕ → ℕ → ℕ) : Prop where
  least : ∀ i e length, i < 2^32 → 0 < length → e ≤ length → i ≤ scale i e length
  most : ∀ i e length, i < 2^32 → 0 < length → e ≤ length → scale i e length ≤ 3*i
  close : ∀ i e length, i < 2^32 → 0 < length → e ≤ length →
    i*(length+2*e)/length ≤ scale i e length+1

theorem aligned_eq {i : ℕ} (hi : i < 2^31) : aligned i = some (i/8*8) := by
  have hmod : i % 2^32 = i := Nat.mod_eq_of_lt (by omega)
  have heq : (i % 2^32) >>> 3 <<< 3 = i/8*8 := by
    rw [hmod,Nat.shiftRight_eq_div_pow,Nat.shiftLeft_eq]
  rw [aligned,heq,if_pos (by omega)]

theorem firstLength_eq (length : ℕ) : firstLength length = max 32 (length+length/2+7) := by
  rw [firstLength,Nat.shiftRight_eq_div_pow,Nat.pow_one]

theorem scaled_length {scale : ℕ → ℕ → ℕ → ℕ} (hd : Doubles scale) {length e n : ℕ}
    (hlength : length < 2^28) (hone : 1 ≤ e) (he : e ≤ length) (hn : n+3 ≤ 3*e)
    (hfull : firstLength length/8*8 < n+4) :
    3*length+12 ≤ scale (firstLength length+8) e length := by
  rw [firstLength_eq] at hfull ⊢
  have hclose := hd.close (max 32 (length+length/2+7)+8) e length (by omega) (by omega) he
  have hproduct : (3*length+13)*length ≤ (max 32 (length+length/2+7)+8)*(length+2*e) := by
    rcases Nat.lt_or_ge length 17 with hshort | hlong
    · have hleft : (3*length+13)*length ≤ 61*length := Nat.mul_le_mul_right _ (by omega)
      have hright : 40*(length+2*e) ≤ (max 32 (length+length/2+7)+8)*(length+2*e) :=
        Nat.mul_le_mul_right _ (by omega)
      omega
    · have hright : (max 32 (length+length/2+7)+8)*(2*length) ≤
          (max 32 (length+length/2+7)+8)*(length+2*e) := Nat.mul_le_mul_left _ (by omega)
      have hmiddle : (3*length+13)*length ≤ (2*(max 32 (length+length/2+7)+8))*length :=
        Nat.mul_le_mul_right _ (by omega)
      have hswap : (2*(max 32 (length+length/2+7)+8))*length =
          (max 32 (length+length/2+7)+8)*(2*length) := by
        rw [Nat.mul_comm 2,Nat.mul_assoc]
      omega
  have hdiv := (Nat.le_div_iff_mul_le (by omega : 0 < length)).mpr hproduct
  omega

/-- The buffer is as it was at first, or long enough for everything. -/
structure Sized (length : ℕ) (s : Encoder) : Prop where
  filled : s.n ≤ s.o.length
  size : (s.i = firstLength length ∧ s.o.length = s.i/8*8) ∨ 3*length+4 ≤ s.o.length

theorem foldl_put {bs : List ℕ} {s : Encoder} (hroom : s.n+bs.length ≤ s.o.length) :
    (bs.foldl Encoder.put s).e = s.e ∧ (bs.foldl Encoder.put s).i = s.i ∧
      (bs.foldl Encoder.put s).n = s.n+bs.length ∧
      (bs.foldl Encoder.put s).o.length = s.o.length ∧
      (bs.foldl Encoder.put s).o.take (s.n+bs.length) = s.o.take s.n++bs.map Nat.toUInt8 := by
  induction bs generalizing s with
  | nil => simp
  | cons b bs ih =>
    rw [List.length_cons] at hroom
    have hlength : (s.put b).o.length = s.o.length := List.length_set
    have hput : (s.put b).o.take (s.n+1) = s.o.take s.n++[b.toUInt8] := by
      simp only [Encoder.put]
      rw [List.take_succ_eq_append_getElem (by rw [List.length_set]; omega),
        List.take_set_of_le (le_refl _),List.getElem_set_self]
    have hn : (s.put b).n = s.n+1 := rfl
    obtain ⟨he,hi,hn',ho,htake⟩ := ih (s := s.put b) (by rw [hlength,hn]; omega)
    rw [hn,Nat.add_assoc,Nat.add_comm 1] at hn' htake
    rw [List.foldl_cons,List.length_cons,List.map_cons]
    refine ⟨he,hi,hn',ho.trans hlength,?_⟩
    rw [htake,hput,List.append_assoc]
    rfl

section

variable {scale : ℕ → ℕ → ℕ → ℕ} {length : ℕ}

theorem write_spec (hd : Doubles scale) (hlength : length < 2^28) {s : Encoder} {t : ℕ}
    (ht : t < 0x200000) (hone : 1 ≤ s.e) (he : s.e ≤ length) (hn : s.n+3 ≤ 3*s.e)
    (hsized : Sized length s) :
    ∃ s', s.write scale length t = some s' ∧ s'.e = s.e ∧ s'.n = s.n+(utf8 t).length ∧
      s'.o.take s'.n = s.o.take s.n++(utf8 t).map Nat.toUInt8 ∧ Sized length s' := by
  have hroom : ∃ g : Encoder,
      (if s.n+4 > s.o.length then s.grow scale length else some s) = some g ∧ g.e = s.e ∧
        g.n = s.n ∧ g.o.take s.n = s.o.take s.n ∧ s.n+4 ≤ g.o.length ∧ Sized length g := by
    have hfilled := hsized.filled
    by_cases hfull : s.n+4 > s.o.length
    · rcases hsized.size with ⟨hi,ho⟩ | hlong
      · have hfull' : firstLength length/8*8 < s.n+4 := by rw [← hi,← ho]; exact hfull
        have hgrown := scaled_length hd hlength hone he hn hfull'
        have hfirst : firstLength length+8 < 2^29 := by
          rw [firstLength_eq]
          omega
        have hleast := hd.least (firstLength length+8) s.e length (by omega) (by omega) he
        have hmost := hd.most (firstLength length+8) s.e length (by omega) (by omega) he
        have halign := @aligned_eq (scale (firstLength length+8) s.e length) (by omega)
        have hfits : s.o.length ≤ scale (firstLength length+8) s.e length/8*8 := by
          rw [ho,hi]
          omega
        have hlonger : (s.o++List.replicate (scale (firstLength length+8) s.e length/8*8-
            s.o.length) 0).length = scale (firstLength length+8) s.e length/8*8 := by
          rw [List.length_append,List.length_replicate]
          omega
        refine ⟨{ s with
            i := scale (firstLength length+8) s.e length/8*8
            o := s.o++List.replicate (scale (firstLength length+8) s.e length/8*8-s.o.length) 0 },
          ?_,rfl,rfl,List.take_append_of_le_length hfilled,?_,?_,.inr ?_⟩
        · rw [if_pos hfull,Encoder.grow,hi,halign,Option.bind_some,if_pos hfits]
        · simp only [hlonger]
          omega
        · simp only [hlonger]
          omega
        · simp only [hlonger]
          omega
      · omega
    · exact ⟨s,if_neg hfull,rfl,rfl,rfl,by omega,hsized⟩
  obtain ⟨g,hg,hge,hgn,hgo,hglen,hgs⟩ := hroom
  have hbytes := (utf8_length t).1
  obtain ⟨he',hi',hn',ho',htake⟩ := @foldl_put (utf8 t) g (by omega)
  refine ⟨(utf8 t).foldl Encoder.put g,?_,he'.trans hge,by rw [hn',hgn],?_,?_⟩
  · rw [Encoder.write,hg,Option.map_some,pointBytes_eq ht]
  · rw [hn',htake,hgn,hgo]
  · refine ⟨by omega,?_⟩
    rw [hi',ho']
    exact hgs.size

theorem encodeFrom_spec (hd : Doubles scale) (hlength : length < 2^28) {us : JsString}
    {s : Encoder} (hus : ∀ u ∈ us, u < 2^16) (he : s.e+us.length = length) (hn : s.n ≤ 3*s.e)
    (hsized : Sized length s) :
    ∃ s', encodeFrom scale length us s = some s' ∧ s'.o.take s'.n = s.o.take s.n++bytes us := by
  induction us using points.induct generalizing s with
  | case1 => exact ⟨s,rfl,by simp [bytes,points]⟩
  | case2 t ht =>
    refine ⟨{ s with e := s.e+1 },by rw [encodeFrom,if_pos ((isHigh_iff t).mpr ht)],?_⟩
    simp [bytes,points,ht]
  | case3 t ht =>
    have hunit := hus t (by simp)
    simp only [List.length_cons,List.length_nil] at he
    obtain ⟨s',hwrite,-,-,htake,-⟩ := @write_spec scale length hd hlength { s with e := s.e+1 } t
      (by omega) (by simp) (by simp only; omega) (by simp only; omega) ⟨hsized.filled,hsized.size⟩
    refine ⟨s',by rw [encodeFrom,if_neg (fun h => ht ((isHigh_iff t).mp h)),hwrite],?_⟩
    rw [htake]
    simp [bytes,points,ht]
  | case4 t v us ht hv ih =>
    have hunit := hus v (by simp)
    have hpair := pair_lt ht hv
    simp only [List.length_cons] at he
    obtain ⟨s',hwrite,he',hn',htake,hsized'⟩ := @write_spec scale length hd hlength
      { s with e := s.e+2 } (0x10000+(t-0xD800)*0x400+(v-0xDC00)) (by omega) (by simp)
      (by simp only; omega) (by simp only; omega) ⟨hsized.filled,hsized.size⟩
    have hbytes := (utf8_length (0x10000+(t-0xD800)*0x400+(v-0xDC00))).1
    simp only at he' hn'
    obtain ⟨s'',hrest,htake'⟩ := @ih s' (fun u hu => hus u (by simp [hu])) (by omega) (by omega)
      hsized'
    refine ⟨s'',?_,?_⟩
    · rw [encodeFrom,if_pos ((isHigh_iff t).mpr ht),if_pos ((isLow_iff hunit).mpr hv),
        pair_eq ht hv,hwrite,Option.bind_some,hrest]
    · rw [htake',htake,List.append_assoc]
      simp [bytes,points,ht,hv]
  | case5 t v us ht hv ih =>
    have hunit := hus v (by simp)
    simp only [List.length_cons] at he
    obtain ⟨s',hrest,htake⟩ := @ih { s with e := s.e+1 } (fun u hu => hus u (by
      rw [List.mem_cons]; exact .inr hu)) (by simp only [List.length_cons]; omega)
      (by simp only; omega) ⟨hsized.filled,hsized.size⟩
    refine ⟨s',?_,?_⟩
    · rw [encodeFrom,if_pos ((isHigh_iff t).mpr ht),if_neg (fun h => hv ((isLow_iff hunit).mp h)),
        hrest]
    · rw [htake]
      simp [bytes,points,ht,hv]
  | case6 t v us ht ih =>
    have hunit := hus t (by simp)
    simp only [List.length_cons] at he
    obtain ⟨s',hwrite,he',hn',htake,hsized'⟩ := @write_spec scale length hd hlength
      { s with e := s.e+1 } t (by omega) (by simp) (by simp only; omega) (by simp only; omega)
      ⟨hsized.filled,hsized.size⟩
    have hbytes := (utf8_length t).2 (by omega)
    simp only at he' hn'
    obtain ⟨s'',hrest,htake'⟩ := @ih s' (fun u hu => hus u (by
      rw [List.mem_cons]; exact .inr hu)) (by simp only [List.length_cons]; omega) (by omega)
      hsized'
    refine ⟨s'',?_,?_⟩
    · rw [encodeFrom,if_neg (fun h => ht ((isHigh_iff t).mp h)),hwrite,Option.bind_some,hrest]
    · rw [htake',htake,List.append_assoc]
      simp [bytes,points,ht]

theorem encode_eq (hd : Doubles scale) {r : JsString} (hr : ∀ u ∈ r, u < 2^16)
    (hlength : r.length < 2^28) : encode scale r = some (bytes r) := by
  have hfirst : firstLength r.length < 2^31 := by
    rw [firstLength_eq]
    omega
  obtain ⟨s,hs,htake⟩ := @encodeFrom_spec scale r.length hd hlength r
    ⟨0,0,firstLength r.length,List.replicate (firstLength r.length/8*8) 0⟩ hr (Nat.zero_add _)
    (le_refl _) ⟨Nat.zero_le _,.inl ⟨rfl,List.length_replicate⟩⟩
  rw [encode,aligned_eq hfirst,Option.bind_some,hs,Option.map_some,htake]
  rfl

end

def scrub : JsString → JsString
  | [] => []
  | [t] => if isHigh t then [] else [t]
  | t::v::us =>
    if isHigh t then if isLow v then t::v::scrub us else scrub (v::us)
    else t::scrub (v::us)

/-- Somewhere a high surrogate is not followed by a low one. -/
def LoneHigh (s : JsString) : Prop :=
  ∃ t us, (t::us) <:+ s ∧ isHigh t = true ∧ ∀ v vs, us = v::vs → isLow v = false

theorem points_lt {s : JsString} (hs : ∀ u ∈ s, u < 2^16) : ∀ t ∈ points s, t < 0x110000 := by
  induction s using points.induct with
  | case1 => simp [points]
  | case2 t ht => simp [points,ht]
  | case3 t ht =>
    have hunit := hs t (by simp)
    simp [points,ht]
    omega
  | case4 t v us ht hv ih =>
    have hpair := pair_lt ht hv
    rw [points,if_pos ht,if_pos hv,List.forall_mem_cons]
    exact ⟨hpair,ih fun u hu => hs u (by simp [hu])⟩
  | case5 t v us ht hv ih =>
    rw [points,if_pos ht,if_neg hv]
    exact ih fun u hu => hs u (List.mem_cons_of_mem _ hu)
  | case6 t v us ht ih =>
    have hunit := hs t (by simp)
    rw [points,if_neg ht,List.forall_mem_cons]
    exact ⟨by omega,ih fun u hu => hs u (List.mem_cons_of_mem _ hu)⟩

theorem units_pair {t v : ℕ} (ht : isHigh t = true) (hv : isLow v = true) :
    Utf8.units (0x10000+(t-0xD800)*0x400+(v-0xDC00)) = [t,v] := by
  simp only [isHigh,isLow,Bool.and_eq_true,decide_eq_true_eq] at ht hv
  rw [Utf8.units,if_neg (by omega)]
  have hfirst : 0xD800+(0x10000+(t-0xD800)*0x400+(v-0xDC00)-0x10000)/0x400 = t := by omega
  have hsecond : 0xDC00+(0x10000+(t-0xD800)*0x400+(v-0xDC00)-0x10000) % 0x400 = v := by omega
  rw [hfirst,hsecond]

theorem units_points {s : JsString} (hs : ∀ u ∈ s, u < 2^16) :
    (points s).flatMap Utf8.units = scrub s := by
  have hunit {t : ℕ} (ht : t < 2^16) : Utf8.units t = [t] := by
    rw [Utf8.units,if_pos (by omega)]
  induction s using points.induct with
  | case1 => rfl
  | case2 t ht => simp [points,scrub,ht]
  | case3 t ht => simp [points,scrub,ht,hunit (hs t (by simp))]
  | case4 t v us ht hv ih =>
    rw [points,scrub,if_pos ht,if_pos hv,if_pos ht,if_pos hv,List.flatMap_cons,units_pair ht hv,
      ih fun u hu => hs u (by simp [hu])]
    rfl
  | case5 t v us ht hv ih =>
    rw [points,scrub,if_pos ht,if_neg hv,if_pos ht,if_neg hv]
    exact ih fun u hu => hs u (List.mem_cons_of_mem _ hu)
  | case6 t v us ht ih =>
    rw [points,scrub,if_neg ht,if_neg ht,List.flatMap_cons,hunit (hs t (by simp)),
      ih fun u hu => hs u (List.mem_cons_of_mem _ hu)]
    rfl

theorem scrub_length (s : JsString) : (scrub s).length ≤ s.length := by
  induction s using points.induct with
  | case1 => exact le_refl _
  | case2 t ht => simp [scrub,ht]
  | case3 t ht => simp [scrub,ht]
  | case4 t v us ht hv ih => simp [scrub,ht,hv,ih]
  | case5 t v us ht hv ih =>
    rw [scrub,if_pos ht,if_neg hv]
    exact ih.trans (by simp)
  | case6 t v us ht ih =>
    rw [scrub,if_neg ht,List.length_cons,List.length_cons]
    exact Nat.succ_le_succ ih

theorem loneHigh_cons {t : ℕ} {us : JsString} (ht : ¬ isHigh t = true) :
    LoneHigh (t::us) ↔ LoneHigh us := by
  constructor
  · rintro ⟨u,vs,hsuffix,hu,hv⟩
    rcases List.suffix_cons_iff.mp hsuffix with heq | hsuffix
    · obtain ⟨rfl,rfl⟩ := List.cons.inj heq
      exact absurd hu ht
    · exact ⟨u,vs,hsuffix,hu,hv⟩
  · rintro ⟨u,vs,hsuffix,hu,hv⟩
    exact ⟨u,vs,hsuffix.trans (List.suffix_cons _ _),hu,hv⟩

theorem loneHigh_pair {t v : ℕ} {us : JsString} (hv : isLow v = true) :
    LoneHigh (t::v::us) ↔ LoneHigh us := by
  have hnot : ¬ isHigh v = true := by
    simp only [isHigh,isLow,Bool.and_eq_true,decide_eq_true_eq] at hv ⊢
    omega
  rw [← @loneHigh_cons v us hnot]
  constructor
  · rintro ⟨u,vs,hsuffix,hu,hlow⟩
    rcases List.suffix_cons_iff.mp hsuffix with heq | hsuffix
    · obtain ⟨rfl,rfl⟩ := List.cons.inj heq
      rw [hlow v us rfl] at hv
      cases hv
    · exact ⟨u,vs,hsuffix,hu,hlow⟩
  · rintro ⟨u,vs,hsuffix,hu,hlow⟩
    exact ⟨u,vs,hsuffix.trans (List.suffix_cons _ _),hu,hlow⟩

theorem scrub_eq_iff (s : JsString) : scrub s = s ↔ ¬LoneHigh s := by
  induction s using points.induct with
  | case1 => simp [scrub,LoneHigh]
  | case2 t ht =>
    refine iff_of_false (by simp [scrub,ht]) fun h => h ?_
    exact ⟨t,[],List.suffix_refl _,ht,by simp⟩
  | case3 t ht =>
    rw [loneHigh_cons ht]
    simp [scrub,ht,LoneHigh]
  | case4 t v us ht hv ih =>
    rw [scrub,if_pos ht,if_pos hv,loneHigh_pair hv,← ih]
    simp
  | case5 t v us ht hv ih =>
    refine iff_of_false (fun h => ?_) fun h => h ?_
    · have hlength := scrub_length (v::us)
      rw [scrub,if_pos ht,if_neg hv] at h
      rw [h,List.length_cons] at hlength
      omega
    · refine ⟨t,v::us,List.suffix_refl _,ht,fun w ws heq => ?_⟩
      obtain ⟨rfl,-⟩ := List.cons.inj heq
      simpa using hv
  | case6 t v us ht ih =>
    rw [scrub,if_neg ht,loneHigh_cons ht,← ih]
    simp

theorem toNat_toUInt8 {n : ℕ} (h : n < 256) : n.toUInt8.toNat = n := Nat.mod_eq_of_lt h

theorem plain_utf8 {t : ℕ} (ht : t < 0x110000) (bs : Bytes) :
    plain ((utf8 t).map Nat.toUInt8++bs) 0 = Utf8.units t++plain bs 0 := by
  have hmid {r : Bytes} {e n : ℕ} (hn : n < 0x40) (hr : r[e]? = some (n+0x80).toUInt8) :
      TextDecoder.low r e = n := by
    have hbyte : (n+0x80).toUInt8.toNat = n+0x80 := toNat_toUInt8 (by omega)
    rw [TextDecoder.low_of_mid hr (by omega) (by omega),hbyte,Nat.add_sub_cancel]
  rw [utf8]
  split_ifs with h1 h2 h3
  · have hbyte : t.toUInt8.toNat = t := toNat_toUInt8 (by omega)
    have hchar := TextDecoder.character_eq (r := t.toUInt8::bs) (e := 0) rfl
    rw [hbyte,if_pos h1] at hchar
    rw [Utf8.units,if_pos (by omega)]
    exact TextDecoder.plain_char (by simp) hchar
  · have hbyte : (t/0x40+0xC0).toUInt8.toNat = t/0x40+0xC0 := toNat_toUInt8 (by omega)
    have hchar := TextDecoder.character_eq
      (r := (t/0x40+0xC0).toUInt8::(t % 0x40+0x80).toUInt8::bs) (e := 0) rfl
    rw [hbyte,if_neg (by omega),if_neg (by omega),if_pos (by omega),
      hmid (n := t % 0x40) (by omega) rfl] at hchar
    have hvalue : (t/0x40+0xC0-192)*64+t % 0x40 = t := by omega
    rw [hvalue] at hchar
    rw [Utf8.units,if_pos (by omega)]
    exact TextDecoder.plain_char (by simp) hchar
  · have hbyte : (t/0x1000+0xE0).toUInt8.toNat = t/0x1000+0xE0 := toNat_toUInt8 (by omega)
    have hchar := TextDecoder.character_eq
      (r := (t/0x1000+0xE0).toUInt8::(t/0x40 % 0x40+0x80).toUInt8::(t % 0x40+0x80).toUInt8::bs)
      (e := 0) rfl
    rw [hbyte,if_neg (by omega),if_neg (by omega),if_neg (by omega),if_pos (by omega),
      hmid (n := t/0x40 % 0x40) (by omega) rfl,hmid (n := t % 0x40) (by omega) rfl] at hchar
    have hvalue : (t/0x1000+0xE0-224)*4096+t/0x40 % 0x40*64+t % 0x40 = t := by omega
    rw [hvalue] at hchar
    rw [Utf8.units,if_pos h3]
    exact TextDecoder.plain_char (by simp) hchar
  · have hbyte : (t/0x40000+0xF0).toUInt8.toNat = t/0x40000+0xF0 := toNat_toUInt8 (by omega)
    have hchar := TextDecoder.character_eq
      (r := (t/0x40000+0xF0).toUInt8::(t/0x1000 % 0x40+0x80).toUInt8::
        (t/0x40 % 0x40+0x80).toUInt8::(t % 0x40+0x80).toUInt8::bs) (e := 0) rfl
    rw [hbyte,if_neg (by omega),if_neg (by omega),if_neg (by omega),if_neg (by omega),
      if_pos (by omega),hmid (n := t/0x1000 % 0x40) (by omega) rfl,
      hmid (n := t/0x40 % 0x40) (by omega) rfl,hmid (n := t % 0x40) (by omega) rfl] at hchar
    have hvalue : (t/0x40000+0xF0-240)*262144+t/0x1000 % 0x40*4096+t/0x40 % 0x40*64+t % 0x40 =
        t := by omega
    rw [hvalue,TextDecoder.wideUnits_eq ht] at hchar
    exact TextDecoder.plain_char (by simp) hchar

theorem plain_bytes {s : JsString} (hs : ∀ u ∈ s, u < 2^16) : plain (bytes s) 0 = scrub s := by
  have hall (ts : List ℕ) (hts : ∀ t ∈ ts, t < 0x110000) :
      plain (ts.flatMap fun t => (utf8 t).map Nat.toUInt8) 0 = ts.flatMap Utf8.units := by
    induction ts with
    | nil =>
      rw [List.flatMap_nil,TextDecoder.plain_eq]
      rfl
    | cons t ts ih =>
      obtain ⟨ht,hts⟩ := List.forall_mem_cons.mp hts
      rw [List.flatMap_cons,List.flatMap_cons,plain_utf8 ht,ih hts]
  rw [bytes,hall _ (points_lt hs),units_points hs]

theorem points_unit {t : ℕ} (ht : isHigh t = false) (us : JsString) :
    points (t::us) = t::points us := by
  cases us <;> simp [points,ht]

theorem points_units (cs : List Char) : points (units cs) = cs.map Char.toNat := by
  induction cs with
  | nil => rfl
  | cons c cs ih =>
    have hvalid : c.toNat < 0xd800 ∨ (0xdfff < c.toNat ∧ c.toNat < 0x110000) := c.valid
    have hunits : units (c::cs) = Utf8.units c.toNat++units cs := rfl
    rw [hunits,Utf8.units,List.map_cons,← ih]
    split
    · have hhigh := (Bool.or_eq_false_iff.mp (JsText.isSurrogate_char c)).1
      exact points_unit hhigh (units cs)
    · have hhigh : isHigh (0xD800+(c.toNat-0x10000)/0x400) = true := by
        simp only [isHigh,Bool.and_eq_true,decide_eq_true_eq]
        omega
      have hlow : isLow (0xDC00+(c.toNat-0x10000)%0x400) = true := by
        simp only [isLow,Bool.and_eq_true,decide_eq_true_eq]
        omega
      have hvalue : 0x10000+(0xD800+(c.toNat-0x10000)/0x400-0xD800)*0x400+
          (0xDC00+(c.toNat-0x10000)%0x400-0xDC00) = c.toNat := by omega
      rw [List.cons_append,List.cons_append,List.nil_append,points,if_pos hhigh,if_pos hlow,hvalue]

theorem bytes_units (cs : List Char) : bytes (units cs) = Utf8.encode cs := by
  rw [bytes,points_units,Utf8.encode,List.flatMap_map]
  exact List.flatMap_congr fun c _ => utf8_char c

theorem units_lt (cs : List Char) : ∀ u ∈ units cs, u < 2^16 := by
  intro u hu
  obtain ⟨c,-,hc⟩ := List.mem_flatMap.mp hu
  have hvalid : c.toNat < 0xd800 ∨ (0xdfff < c.toNat ∧ c.toNat < 0x110000) := c.valid
  rw [Utf8.units] at hc
  split at hc <;> simp only [List.mem_cons,List.not_mem_nil,or_false] at hc <;> omega

theorem decode_encode (cs : List Char) : TextDecoder.decode (Utf8.encode cs) = units cs := by
  rw [← bytes_units,TextDecoder.decode_eq_plain,plain_bytes (units_lt cs),
    ← units_points (units_lt cs),points_units,List.flatMap_map]
  rfl

theorem decode_ascii : UrlencodedForm.DecodesAscii TextDecoder.decode := fun s _ => decode_encode s

/-- For all strings of scripts that are not enormous, and however doubles are rounded:
`encode` throws nothing and gives the UTF-8 of the string, which `decode` reads as the string
without its lone high surrogates. -/
theorem encode_spec {scale : ℕ → ℕ → ℕ → ℕ} (hd : Doubles scale) {r : JsString}
    (hr : ∀ u ∈ r, u < 2^16) (hlength : r.length < 2^28) :
    encode scale r = some (bytes r) ∧ TextDecoder.decode (bytes r) = scrub r ∧
      (TextDecoder.decode (bytes r) = r ↔ ¬LoneHigh r) ∧
      ∀ cs, r = units cs → bytes r = Utf8.encode cs ∧ TextDecoder.decode (Utf8.encode cs) = r := by
  have hdecode : TextDecoder.decode (bytes r) = scrub r := by
    rw [TextDecoder.decode_eq_plain,plain_bytes hr]
  refine ⟨encode_eq hd hr hlength,hdecode,?_,fun cs hcs => ?_⟩
  · rw [hdecode]
    exact scrub_eq_iff r
  · subst hcs
    exact ⟨bytes_units cs,decode_encode cs⟩

/-- `i*(length+2*e)/length` as it is. -/
def exact (i e length : ℕ) : ℕ := i*(length+2*e)/length

theorem exact_doubles : Doubles exact where
  least i e length _ hpos _ := by
    rw [exact,Nat.le_div_iff_mul_le hpos]
    exact Nat.mul_le_mul_left i (by omega)
  most i e length _ hpos he := by
    refine Nat.div_le_of_le_mul ?_
    calc i*(length+2*e) ≤ i*(3*length) := Nat.mul_le_mul_left i (by omega)
      _ = length*(3*i) := by rw [Nat.mul_left_comm,Nat.mul_left_comm length,Nat.mul_comm i]
  close i e length _ _ _ := Nat.le_succ _

/-- A character of four bytes, and a high surrogate that is lost. -/
theorem encode_spec_sample :
    encode exact (0xD800::units "a😀".toList) = some [0x61,0xF0,0x9F,0x98,0x80] ∧
      TextDecoder.decode [0x61,0xF0,0x9F,0x98,0x80] = units "a😀".toList := by
  have h := encode_spec exact_doubles (r := 0xD800::units "a😀".toList) (by decide) (by decide)
  have hbytes : bytes (0xD800::units "a😀".toList) = [0x61,0xF0,0x9F,0x98,0x80] := by
    decide +kernel
  have hscrub : scrub (0xD800::units "a😀".toList) = units "a😀".toList := by decide +kernel
  exact ⟨h.1.trans (congrArg some hbytes),hbytes ▸ h.2.1.trans hscrub⟩

end TextEncoder
end AsioQuickjs
