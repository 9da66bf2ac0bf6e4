import Mathlib.Data.List.Basic
import Mathlib.Logic.Equiv.Defs
import Mathlib.Tactic.Common

/-! Messages cut into blocks, the padding that makes them whole blocks, and two modes of a
block cipher, which is a permutation of the blocks. -/
namespace AsioQuickjs
namespace BlockMode

variable {n : ℕ}

abbrev Block (n : ℕ) := Vector UInt8 n

def block (n : ℕ) (xs : List UInt8) : Block n := .ofFn fun i => xs.getD i 0

def blocks (n : ℕ) : ℕ → List UInt8 → List (Block n)
  | 0, _ => []
  | k+1, xs => block n xs::blocks n k (xs.drop n)

def bytes (bs : List (Block n)) : List UInt8 := bs.flatMap Vector.toList

@[simp] theorem blocks_length (k : ℕ) (xs : List UInt8) : (blocks n k xs).length = k := by
  induction k generalizing xs with
  | zero => rfl
  | succ k ih => simp [blocks,ih]

@[simp] theorem bytes_length (bs : List (Block n)) : (bytes bs).length = n*bs.length := by
  induction bs with
  | nil => rfl
  | cons b bs ih =>
    simp only [bytes,List.flatMap_cons,List.length_append] at ih ⊢
    rw [ih,Vector.length_toList,List.length_cons,Nat.mul_succ,Nat.add_comm]

theorem block_toList {xs : List UInt8} (h : n ≤ xs.length) : (block n xs).toList = xs.take n := by
  refine List.ext_getElem (by simp [h]) fun i hi _ => ?_
  have hin : i < n := by simpa using hi
  simp [block,List.getElem?_eq_getElem (Nat.lt_of_lt_of_le hin h)]

theorem block_append (b : Block n) (xs : List UInt8) : block n (b.toList++xs) = b := by
  apply Vector.ext
  intro i hi
  have hlt : i < b.toList.length := by simpa using hi
  simp [block,List.getElem?_append_left hlt,hi]

theorem bytes_blocks {k : ℕ} {xs : List UInt8} (h : xs.length = n*k) :
    bytes (blocks n k xs) = xs := by
  induction k generalizing xs with
  | zero =>
    obtain rfl : xs = [] := List.length_eq_zero_iff.mp (by simpa using h)
    rfl
  | succ k ih =>
    rw [Nat.mul_succ] at h
    have hlength : (xs.drop n).length = n*k := by rw [List.length_drop]; omega
    have hrest := ih hlength
    rw [bytes] at hrest
    rw [blocks,bytes,List.flatMap_cons,hrest,block_toList (by omega),List.take_append_drop]

theorem blocks_bytes (bs : List (Block n)) : blocks n bs.length (bytes bs) = bs := by
  induction bs with
  | nil => rfl
  | cons b bs ih =>
    have hdrop : (b.toList++bytes bs).drop n = bytes bs := by
      rw [List.drop_append_of_le_length (by simp),List.drop_of_length_le (by simp),List.nil_append]
    change block n (b.toList++bytes bs)::blocks n bs.length ((b.toList++bytes bs).drop n) = b::bs
    rw [block_append,hdrop,ih]

def missing (n : ℕ) (xs : List UInt8) : ℕ := n-xs.length % n

def pad (n : ℕ) (xs : List UInt8) : List UInt8 :=
  xs++List.replicate (missing n xs) (missing n xs).toUInt8

/-- The last byte says how many bytes to take off, and they all say so. -/
def unpad (n : ℕ) (xs : List UInt8) : Option (List UInt8) :=
  let k := (xs.getLastD 0).toNat
  if 0 < k ∧ k ≤ n ∧ k ≤ xs.length ∧ xs.drop (xs.length-k) = List.replicate k k.toUInt8 then
    some (xs.take (xs.length-k))
  else none

theorem missing_pos (hn : 0 < n) (xs : List UInt8) : 0 < missing n xs :=
  Nat.sub_pos_of_lt (Nat.mod_lt _ hn)

theorem missing_le (xs : List UInt8) : missing n xs ≤ n := Nat.sub_le _ _

theorem pad_length (hn : 0 < n) (xs : List UInt8) :
    (pad n xs).length = n*(xs.length/n+1) := by
  have hmod := Nat.mod_lt xs.length hn
  have hdiv := Nat.div_add_mod xs.length n
  simp only [pad,missing,List.length_append,List.length_replicate,Nat.mul_succ]
  omega

theorem drop_eq_replicate_iff {α : Type*} (xs : List α) (k : ℕ) (a : α) :
    xs.drop (xs.length-k) = List.replicate k a ↔ xs = xs.take (xs.length-k)++List.replicate k a := by
  constructor
  · intro h
    rw [← h,List.take_append_drop]
  · intro h
    have hlen : (xs.take (xs.length-k)).length = xs.length-k := by simp
    have hcut := congrArg (List.drop (xs.length-k)) h
    rwa [List.drop_left' hlen] at hcut

theorem unpad_eq_some_iff (hbyte : n < 256) (xs d : List UInt8) :
    unpad n xs = some d ↔ ∃ k, 1 ≤ k ∧ k ≤ n ∧ xs = d++List.replicate k k.toUInt8 := by
  constructor
  · intro h
    simp only [unpad,Option.ite_none_right_eq_some,Option.some.injEq] at h
    obtain ⟨⟨hpos,hle,_,hdrop⟩,rfl⟩ := h
    exact ⟨_,hpos,hle,(drop_eq_replicate_iff xs _ _).mp hdrop⟩
  · rintro ⟨k,hpos,hle,rfl⟩
    have hne : List.replicate k k.toUInt8 ≠ [] := by
      simp only [ne_eq,List.replicate_eq_nil_iff]
      omega
    have hlast : (d++List.replicate k k.toUInt8).getLastD 0 = k.toUInt8 := by
      rw [List.getLastD_eq_getLast?,List.getLast?_append_of_ne_nil _ hne]
      simp [List.getLast?_replicate,Nat.ne_of_gt hpos]
    have hk : ((d++List.replicate k k.toUInt8).getLastD 0).toNat = k := by
      rw [hlast]
      simp only [Nat.toUInt8_eq,UInt8.toNat_ofNat']
      exact Nat.mod_eq_of_lt (by omega)
    have hsub : (d++List.replicate k k.toUInt8).length-k = d.length := by simp
    simp only [unpad,hk,hsub]
    rw [if_pos ⟨hpos,hle,by simp,by simp⟩]
    simp

theorem unpad_pad (hn : 0 < n) (hbyte : n < 256) (xs : List UInt8) :
    unpad n (pad n xs) = some xs :=
  (unpad_eq_some_iff hbyte _ xs).mpr ⟨missing n xs,missing_pos hn xs,missing_le xs,rfl⟩

section modes

variable {B : Type*} (mix : B → B → B) (f : Equiv.Perm B)

/-- Each block is mixed with the cipher text of the one before it. -/
def cbcEncrypt : B → List B → List B
  | _, [] => []
  | c, b::bs => f (mix b c)::cbcEncrypt (f (mix b c)) bs

def cbcDecrypt : B → List B → List B
  | _, [] => []
  | c, d::ds => mix (f.symm d) c::cbcDecrypt d ds

@[simp] theorem cbcEncrypt_length (c : B) (bs : List B) :
    (cbcEncrypt mix f c bs).length = bs.length := by
  induction bs generalizing c with
  | nil => rfl
  | cons b bs ih => simp [cbcEncrypt,ih]

@[simp] theorem cbcDecrypt_length (c : B) (ds : List B) :
    (cbcDecrypt mix f c ds).length = ds.length := by
  induction ds generalizing c with
  | nil => rfl
  | cons d ds ih => simp [cbcDecrypt,ih]

variable {mix} in
theorem cbcDecrypt_cbcEncrypt (hmix : ∀ a b, mix (mix a b) b = a) (c : B) (bs : List B) :
    cbcDecrypt mix f c (cbcEncrypt mix f c bs) = bs := by
  induction bs generalizing c with
  | nil => rfl
  | cons b bs ih => simp [cbcEncrypt,cbcDecrypt,hmix,ih]

end modes

def xor (a b : Block n) : Block n := .zipWith (· ^^^ ·) a b

theorem xor_xor (a b : Block n) : xor (xor a b) b = a := by
  apply Vector.ext
  intro i hi
  simp only [xor,Vector.getElem_zipWith,UInt8.xor_assoc,UInt8.xor_self,UInt8.xor_zero]

end BlockMode
end AsioQuickjs
