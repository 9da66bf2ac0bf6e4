import AsioQuickjs.Headers

/-! Base64, and the decoder of `src/js/fetch.js` where there is no `atob`. -/
namespace AsioQuickjs
namespace Base64

/-- `chars` -/
def alphabet : JsString := js "ABCDEFGHIJKLMNOPQRSTUVWXYZabcdefghijklmnopqrstuvwxyz0123456789+/"

def digit (n : ℕ) : ℕ := alphabet.getD n 0

def digits : Bytes → JsString
  | [] => []
  | [a] => [digit (a.toNat/4),digit (a.toNat % 4*16)]
  | [a,b] =>
    [digit (a.toNat/4),digit (a.toNat % 4*16+b.toNat/16),digit (b.toNat % 16*4)]
  | a::b::c::rest =>
    digit (a.toNat/4)::digit (a.toNat % 4*16+b.toNat/16)::digit (b.toNat % 16*4+c.toNat/64)::
      digit (c.toNat % 64)::digits rest

def base64 (b : Bytes) : JsString := digits b++List.replicate ((3-b.length % 3) % 3) 61

/-- Each byte as a unit, as `atob` gives them. -/
def binaryString (b : Bytes) : JsString := b.map UInt8.toNat

/-- `-1` as the unsigned value of an `int32`. -/
def missing : ℕ := 2^32-1

/-- `chars.indexOf(str.charAt(i))`; beyond the end it is that of the empty string. -/
def indexOf : Option ℕ → ℕ
  | none => 0
  | some u => if u ∈ alphabet then alphabet.idxOf u else missing

/-- The bits of four characters, as an `int32` by its unsigned value. -/
def group (c1 c2 c3 c4 : ℕ) : ℕ :=
  ((c1 <<< 18) ||| (c2 <<< 12) ||| ((c3 &&& 63) <<< 6) ||| (c4 &&& 63)) % 2^32

def decodeGroup (x y z w : Option ℕ) : JsString :=
  let n := group (indexOf x) (indexOf y) (indexOf z) (indexOf w)
  [(n >>> 16) &&& 255]++
    (if indexOf z ≠ missing ∧ z.isSome then [(n >>> 8) &&& 255] else [])++
    (if indexOf w ≠ missing ∧ w.isSome then [n &&& 255] else [])

def decodeGroups : JsString → JsString
  | [] => []
  | [x] => decodeGroup (some x) none none none
  | [x,y] => decodeGroup (some x) (some y) none none
  | [x,y,z] => decodeGroup (some x) (some y) (some z) none
  | x::y::z::w::rest => decodeGroup (some x) (some y) (some z) (some w)++decodeGroups rest

/-- `base64Decode`, with `/=+$/` taken off first. -/
def base64Decode (b64 : JsString) : JsString :=
  decodeGroups (b64.reverse.dropWhile (· = 61)).reverse

theorem indexOf_digit : ∀ n < 64, indexOf (some (digit n)) = n ∧ digit n ≠ 61 ∧ digit n ≠ 44 := by
  decide +kernel

theorem group_eq {c1 c2 c3 c4 : ℕ} (h1 : c1 < 64) (h2 : c2 < 64) (h3 : c3 < 64) (h4 : c4 < 64) :
    group c1 c2 c3 c4 = 2^18*c1+2^12*c2+2^6*c3+c4 := by
  have hlow3 : c3 &&& 63 = c3 := by
    rw [Nat.and_two_pow_sub_one_eq_mod c3 6,Nat.mod_eq_of_lt h3]
  have hlow4 : c4 &&& 63 = c4 := by
    rw [Nat.and_two_pow_sub_one_eq_mod c4 6,Nat.mod_eq_of_lt h4]
  have hfirst : c1 <<< 18 ||| c2 <<< 12 = 2^12*(2^6*c1+c2) := by
    rw [Nat.shiftLeft_eq,Nat.shiftLeft_eq,Nat.mul_comm c1,Nat.mul_comm c2,
      ← Nat.two_pow_add_eq_or_of_lt (by omega)]
    omega
  have hsecond : 2^12*(2^6*c1+c2) ||| c3 <<< 6 = 2^6*(2^12*c1+2^6*c2+c3) := by
    rw [Nat.shiftLeft_eq,Nat.mul_comm c3,← Nat.two_pow_add_eq_or_of_lt (by omega)]
    omega
  rw [group,hlow3,hlow4,hfirst,hsecond,← Nat.two_pow_add_eq_or_of_lt (by omega),
    Nat.mod_eq_of_lt (by omega)]
  omega

theorem group_bytes {c1 c2 c3 c4 : ℕ} (h1 : c1 < 64) (h2 : c2 < 64) (h3 : c3 < 64)
    (h4 : c4 < 64) :
    (group c1 c2 c3 c4) >>> 16 &&& 255 = c1*4+c2/16 ∧
      (group c1 c2 c3 c4) >>> 8 &&& 255 = c2 % 16*16+c3/4 ∧
      group c1 c2 c3 c4 &&& 255 = c3 % 4*64+c4 := by
  have hmask (n : ℕ) : n &&& 255 = n % 2^8 := Nat.and_two_pow_sub_one_eq_mod n 8
  rw [hmask,hmask,hmask,Nat.shiftRight_eq_div_pow,Nat.shiftRight_eq_div_pow,
    group_eq h1 h2 h3 h4]
  refine ⟨?_,?_,?_⟩ <;> omega

theorem decodeGroup_digits {c1 c2 c3 c4 : ℕ} (h1 : c1 < 64) (h2 : c2 < 64) (h3 : c3 < 64)
    (h4 : c4 < 64) :
    decodeGroup (some (digit c1)) (some (digit c2)) (some (digit c3)) (some (digit c4)) =
        [c1*4+c2/16,c2 % 16*16+c3/4,c3 % 4*64+c4] ∧
      decodeGroup (some (digit c1)) (some (digit c2)) (some (digit c3)) none =
        [c1*4+c2/16,c2 % 16*16+c3/4] ∧
      decodeGroup (some (digit c1)) (some (digit c2)) none none = [c1*4+c2/16] := by
  have hmissing {c : ℕ} (hc : c < 64) : c ≠ missing := by
    rw [missing]
    omega
  have hfull := group_bytes h1 h2 h3 h4
  have hthree := group_bytes h1 h2 h3 (by decide : 0 < 64)
  have htwo := group_bytes h1 h2 (by decide : 0 < 64) (by decide : 0 < 64)
  have hnone : indexOf none = 0 := rfl
  simp only [decodeGroup,(indexOf_digit c1 h1).1,(indexOf_digit c2 h2).1,(indexOf_digit c3 h3).1,
    (indexOf_digit c4 h4).1,hnone,hfull,hthree,htwo]
  simp [hmissing h3,hmissing h4]

theorem decodeGroups_digits (b : Bytes) : decodeGroups (digits b) = binaryString b := by
  induction b using digits.induct with
  | case1 => rfl
  | case2 a =>
    have ha := UInt8.toNat_lt a
    rw [digits,decodeGroups,(decodeGroup_digits (by omega) (by omega) (by decide : 0 < 64)
      (by decide : 0 < 64)).2.2]
    simp only [binaryString,List.map_cons,List.map_nil,List.cons.injEq,and_true]
    omega
  | case3 a b =>
    have ha := UInt8.toNat_lt a
    have hb := UInt8.toNat_lt b
    rw [digits,decodeGroups,(decodeGroup_digits (by omega) (by omega) (by omega)
      (by decide : 0 < 64)).2.1]
    simp only [binaryString,List.map_cons,List.map_nil,List.cons.injEq,and_true]
    omega
  | case4 a b c rest ih =>
    have ha := UInt8.toNat_lt a
    have hb := UInt8.toNat_lt b
    have hc := UInt8.toNat_lt c
    rw [digits,decodeGroups,ih,(decodeGroup_digits (by omega) (by omega) (by omega)
      (by omega)).1]
    simp only [binaryString,List.map_cons,List.cons_append,List.nil_append,List.cons.injEq,
      and_true]
    omega

theorem digits_plain (b : Bytes) : ∀ u ∈ digits b, u ≠ 61 ∧ u ≠ 44 := by
  induction b using digits.induct with
  | case1 => exact fun u hu => absurd hu List.not_mem_nil
  | case2 a =>
    have ha := UInt8.toNat_lt a
    simp only [digits,List.forall_mem_cons]
    exact ⟨(indexOf_digit _ (by omega)).2,(indexOf_digit _ (by omega)).2,
      fun u hu => absurd hu List.not_mem_nil⟩
  | case3 a b =>
    have ha := UInt8.toNat_lt a
    have hb := UInt8.toNat_lt b
    simp only [digits,List.forall_mem_cons]
    exact ⟨(indexOf_digit _ (by omega)).2,(indexOf_digit _ (by omega)).2,
      (indexOf_digit _ (by omega)).2,fun u hu => absurd hu List.not_mem_nil⟩
  | case4 a b c rest ih =>
    have ha := UInt8.toNat_lt a
    have hb := UInt8.toNat_lt b
    have hc := UInt8.toNat_lt c
    simp only [digits,List.forall_mem_cons]
    exact ⟨(indexOf_digit _ (by omega)).2,(indexOf_digit _ (by omega)).2,
      (indexOf_digit _ (by omega)).2,(indexOf_digit _ (by omega)).2,ih⟩

theorem base64Decode_base64 (b : Bytes) : base64Decode (base64 b) = binaryString b := by
  have hstrip : ((base64 b).reverse.dropWhile (· = 61)).reverse = digits b := by
    rw [base64,List.reverse_append,List.reverse_replicate,List.dropWhile_append_of_pos]
    · have hhead : (digits b).reverse.dropWhile (· = 61) = (digits b).reverse := by
        cases hd : (digits b).reverse with
        | nil => rfl
        | cons u us =>
          have hu : u ∈ digits b := List.mem_reverse.mp (by rw [hd]; exact List.mem_cons_self)
          exact List.dropWhile_cons_of_neg (by simp [(digits_plain b u hu).1])
      rw [hhead,List.reverse_reverse]
    · intro u hu
      exact decide_eq_true (List.eq_of_mem_replicate hu)
  rw [base64Decode,hstrip,decodeGroups_digits]

end Base64
end AsioQuickjs
