import Mathlib.Data.List.AList
import Mathlib.Algebra.Ring.Int.Defs
import Mathlib.Algebra.Ring.Nat
import Mathlib.Tactic.Common

/-! Byte strings, string-keyed tables and the integer narrowings that the host
applies to the identifiers it shows to scripts. -/
namespace AsioQuickjs

/-- A `std::string` or `std::vector<uint8_t>`. -/
abbrev Bytes := List UInt8

/-- What is asked of every byte of a string is checked along the string. -/
instance (priority := high) {t : Bytes} {p : UInt8 → Prop} [DecidablePred p] :
    Decidable (∀ b, b ∈ t → p b) := List.decidableBAll p t

/-- An `std::unordered_map`, in whatever order it happens to iterate. -/
abbrev Table (K V : Type) := AList fun _ : K => V

theorem lookup_insert_ite {K V : Type} [DecidableEq K] (t : Table K V) (k j : K) (v : V) :
    (t.insert k v).lookup j = if j = k then some v else t.lookup j := by
  by_cases hj : j = k
  · subst hj
    rw [if_pos rfl]
    exact AList.lookup_insert t
  · rw [if_neg hj]
    exact AList.lookup_insert_ne hj

theorem lookup_erase_ite {K V : Type} [DecidableEq K] (t : Table K V) (k j : K) :
    (t.erase k).lookup j = if j = k then none else t.lookup j := by
  by_cases hj : j = k
  · subst hj
    rw [if_pos rfl]
    exact AList.lookup_erase j t
  · rw [if_neg hj]
    exact AList.lookup_erase_ne hj

def ascii (s : String) : Bytes := s.toList.map fun c => c.toNat.toUInt8

/-- What `c_str()` hands over. -/
def cStr (s : Bytes) : Bytes := s.takeWhile (· ≠ 0)

/-- `::tolower` on a byte, in the C locale. -/
def tolower (b : UInt8) : UInt8 := if 65 ≤ b ∧ b ≤ 90 then b+32 else b

/-- `std::transform(.., ::tolower)`. -/
def lower (s : Bytes) : Bytes := s.map tolower

@[simp] theorem lower_length (s : Bytes) : (lower s).length = s.length := by simp [lower]

/-- `static_cast<int32_t>` of a `uint64_t`. -/
def int32OfUInt64 (n : ℕ) : ℤ :=
  if n % 2^32 < 2^31 then n % 2^32 else n % 2^32-2^32

/-- `static_cast<uint64_t>` of an `int32_t`. -/
def uint64OfInt32 (z : ℤ) : ℕ := (z % 2^64).toNat

theorem int32OfUInt64_of_lt {n : ℕ} (h : n < 2^31) : int32OfUInt64 n = n := by
  unfold int32OfUInt64
  split <;> omega

theorem uint64OfInt32_int32OfUInt64 {n : ℕ} (h : n < 2^31) :
    uint64OfInt32 (int32OfUInt64 n) = n := by
  rw [int32OfUInt64_of_lt h,uint64OfInt32]
  omega

end AsioQuickjs
