import Mathlib.Data.Nat.Bitwise
import Mathlib.Algebra.Ring.Nat

/-! Masks and shifts of natural numbers as arithmetic. -/
namespace AsioQuickjs
namespace Bits

theorem and_low (x k : ℕ) : x &&& (2^k-1) = x % 2^k := Nat.and_two_pow_sub_one_eq_mod x k

theorem or_eq_add {x y k : ℕ} (hx : 2^k ∣ x) (hy : y < 2^k) : x ||| y = x+y := by
  obtain ⟨q,rfl⟩ := hx
  have h := Nat.shiftLeft_add_eq_or_of_lt hy q
  rw [Nat.shiftLeft_eq,Nat.mul_comm] at h
  exact h.symm

theorem pack_two (x d : ℕ) (hd : d < 64) : x <<< 6 ||| d = x*64+d := by
  rw [Nat.shiftLeft_eq,@or_eq_add _ d 6 (Nat.dvd_mul_left _ _) hd]
  rfl

theorem pack_three (x d l : ℕ) (hd : d < 64) (hl : l < 64) :
    x <<< 12 ||| d <<< 6 ||| l = x*4096+d*64+l := by
  rw [Nat.shiftLeft_eq,Nat.shiftLeft_eq,
    @or_eq_add _ (d*2^6) 12 (Nat.dvd_mul_left _ _) (by omega),
    @or_eq_add _ l 6 (by omega) hl]
  rfl

theorem pack_four (x d l m : ℕ) (hd : d < 64) (hl : l < 64) (hm : m < 64) :
    x <<< 18 ||| d <<< 12 ||| l <<< 6 ||| m = x*262144+d*4096+l*64+m := by
  rw [Nat.shiftLeft_eq,Nat.shiftLeft_eq,Nat.shiftLeft_eq,
    @or_eq_add _ (d*2^12) 18 (Nat.dvd_mul_left _ _) (by omega),
    @or_eq_add _ (l*2^6) 12 (by omega) (by omega),@or_eq_add _ m 6 (by omega) hm]
  rfl

theorem and_or {lead k : ℕ} (hlead : 2^k ∣ lead) (x : ℕ) :
    x &&& (2^k-1) ||| lead = x % 2^k+lead := by
  rw [and_low,Nat.or_comm,or_eq_add hlead (Nat.mod_lt _ (Nat.two_pow_pos k)),Nat.add_comm]

theorem and_high {x n k : ℕ} (hx : x < 2^(k+n)) :
    x &&& (2^n-1) <<< k = x/2^k*2^k := by
  rw [← Nat.shiftRight_eq_div_pow,← Nat.shiftLeft_eq]
  apply Nat.eq_of_testBit_eq
  intro i
  rw [Nat.testBit_and,Nat.testBit_shiftLeft,Nat.testBit_shiftLeft,
    Nat.testBit_two_pow_sub_one,Nat.testBit_shiftRight]
  rcases Nat.lt_or_ge i k with hi | hi
  · simp [Nat.not_le.mpr hi]
  · rw [Nat.add_sub_cancel' hi]
    rcases Nat.lt_or_ge i (k+n) with hin | hin
    · have hlt : i-k < n := by omega
      simp [hi,hlt]
    · have hbit : x.testBit i = false :=
        Nat.testBit_lt_two_pow (hx.trans_le (Nat.pow_le_pow_right (by decide) hin))
      simp [hbit]

theorem and_high_eq_zero {x n k : ℕ} (hx : x < 2^(k+n)) :
    x &&& (2^n-1) <<< k = 0 ↔ x < 2^k := by
  have hpos := Nat.two_pow_pos k
  rw [and_high hx,Nat.mul_eq_zero,Nat.div_eq_zero_iff]
  omega

end Bits
end AsioQuickjs
