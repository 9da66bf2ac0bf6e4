import AsioQuickjs.Crypto

/-! What `pkcs7_unpad` takes, and for which messages the AES functions of crypto.cpp undo each
other. -/
namespace AsioQuickjs
namespace Crypto

open BlockMode

/-- The message, then so many bytes of that value, as many as a block has at most. -/
def Padded (d x : Bytes) : Prop :=
  ∃ k, 1 ≤ k ∧ k ≤ 16 ∧ x = d++List.replicate k k.toUInt8

theorem getD_last (x : Bytes) : x.getD (x.length-1) 0 = x.getLastD 0 := by
  rw [List.getLastD_eq_getLast?,List.getLast?_eq_getElem?]
  rfl

theorem scan_eq_false_iff {x : Bytes} {k : ℕ} (hk : k ≤ x.length) (a : UInt8) :
    ((List.range k).any fun i => x.getD (x.length-1-i) 0 != a) = false ↔
      x.drop (x.length-k) = List.replicate k a := by
  rw [List.eq_replicate_iff]
  simp only [List.any_eq_false,List.mem_range,bne_iff_ne,ne_eq,not_not,List.length_drop]
  constructor
  · intro h
    refine ⟨by omega,fun b hb => ?_⟩
    obtain ⟨i,hi,rfl⟩ := List.mem_iff_getElem.mp hb
    rw [List.length_drop] at hi
    have hat := h (k-1-i) (by omega)
    have hplace : x.length-1-(k-1-i) = x.length-k+i := by omega
    rw [hplace,List.getD_eq_getElem?_getD,List.getElem?_eq_getElem (by omega)] at hat
    rwa [List.getElem_drop]
  · rintro ⟨-,h⟩ i hi
    have hlt : x.length-1-i < x.length := by omega
    rw [List.getD_eq_getElem?_getD,List.getElem?_eq_getElem hlt]
    apply h
    rw [List.mem_iff_getElem]
    refine ⟨k-1-i,by rw [List.length_drop]; omega,?_⟩
    rw [List.getElem_drop]
    congr 1
    omega

theorem pkcs7Unpad_eq {x : Bytes} (hne : x ≠ []) :
    pkcs7Unpad x = (unpad 16 x).elim (.error "invalid pkcs7 padding") .ok := by
  have hbyte : (x.getLastD 0).toNat.toUInt8 = x.getLastD 0 := by simp
  have hzero : x.getLastD 0 = 0 ↔ (x.getLastD 0).toNat = 0 :=
    ⟨fun h => by rw [h]; rfl,fun h => UInt8.toNat_inj.mp h⟩
  rw [pkcs7Unpad,if_neg hne]
  simp only [getD_last,unpad,hbyte]
  split
  · next hbad =>
    rw [hzero] at hbad
    rw [if_neg (by omega)]
    rfl
  · next hgood =>
    rw [hzero] at hgood
    have hle : (x.getLastD 0).toNat ≤ x.length := by omega
    split
    · next hscan =>
      have hdiffers : ¬ x.drop (x.length-(x.getLastD 0).toNat) =
          List.replicate (x.getLastD 0).toNat (x.getLastD 0) := by
        rw [← scan_eq_false_iff hle,hscan]
        decide
      rw [if_neg fun h => hdiffers h.2.2.2]
      rfl
    · next hscan =>
      rw [Bool.not_eq_true] at hscan
      rw [if_pos ⟨by omega,by omega,hle,(scan_eq_false_iff hle _).mp hscan⟩]
      rfl

theorem pkcs7Unpad_eq_ok_iff (x d : Bytes) :
    pkcs7Unpad x = .ok d ↔ x = [] ∧ d = [] ∨ Padded d x := by
  by_cases hne : x = []
  · subst hne
    have hnot : ¬ Padded d [] := by
      rintro ⟨k,hpos,-,h⟩
      have hlen := congrArg List.length h
      simp only [List.length_nil,List.length_append,List.length_replicate] at hlen
      omega
    have hok : pkcs7Unpad [] = .ok [] := rfl
    simp [hok,hnot,eq_comm]
  · rw [pkcs7Unpad_eq hne,Padded,← unpad_eq_some_iff (by decide)]
    cases unpad 16 x <;> simp [hne]

theorem pkcs7Unpad_pad (d : Bytes) : pkcs7Unpad (pkcs7Pad d 16) = .ok d :=
  (pkcs7Unpad_eq_ok_iff _ _).mpr
    (.inr ⟨missing 16 d,missing_pos (by decide) d,missing_le d,rfl⟩)

/-- The empty bytes are unpadded to themselves, and of all others exactly those that a padding
ends; the rest is refused. -/
theorem unpads_exactly (x : Bytes) :
    (∀ d, pkcs7Unpad x = .ok d ↔ x = [] ∧ d = [] ∨ Padded d x) ∧
    ((∃ e, pkcs7Unpad x = .error e) ↔ x ≠ [] ∧ ¬ ∃ d, Padded d x) ∧
    ∀ d, pkcs7Unpad (pkcs7Pad d 16) = .ok d := by
  refine ⟨pkcs7Unpad_eq_ok_iff x,?_,pkcs7Unpad_pad⟩
  have hok := pkcs7Unpad_eq_ok_iff x
  cases h : pkcs7Unpad x with
  | error e =>
    rw [h] at hok
    refine iff_of_true ⟨e,rfl⟩ ⟨fun hnil => ?_,fun ⟨d,hd⟩ => ?_⟩
    · exact nomatch (hok []).mpr (.inl ⟨hnil,rfl⟩)
    · exact nomatch (hok d).mpr (.inr hd)
  | ok d =>
    rw [h] at hok
    refine iff_of_false (by simp) fun hbad => ?_
    rcases (hok d).mp rfl with ⟨hnil,-⟩ | hd
    · exact hbad.1 hnil
    · exact hbad.2 ⟨d,hd⟩

/-- No padding ends the empty bytes, and they are not refused. -/
theorem empty_not_refused :
    ¬ ∀ x : Bytes, (∀ d, pkcs7Unpad x = .ok d ↔ Padded d x) ∧
      ((¬ ∃ d, Padded d x) → ∃ e, pkcs7Unpad x = .error e) ∧
      ∀ d, pkcs7Unpad (pkcs7Pad d 16) = .ok d := by
  intro h
  obtain ⟨k,hpos,-,hnil⟩ := ((h []).1 []).mp rfl
  have hlen := congrArg List.length hnil
  simp only [List.length_nil,List.nil_append,List.length_replicate] at hlen
  omega

section evp

variable (aes : Bytes → Equiv.Perm (Block 16))

theorem int32OfUInt64_blocks {m : ℕ} (h : 0 ≤ int32OfUInt64 (16*m)) :
    ∃ j, (int32OfUInt64 (16*m)).toNat = 16*j ∧ j < 2^27 ∧ ∃ i, m = j+2^28*i := by
  unfold int32OfUInt64 at h ⊢
  refine ⟨m % 2^28,?_,?_,m/2^28,by omega⟩ <;> split at h <;> omega

theorem int32OfUInt64_neg : int32OfUInt64 (2^31) < 0 := by decide

/-- Whole blocks are encrypted to one block more: only the bytes that their length as `int`
leaves. -/
theorem evpCipher_encrypt {x key iv : Bytes} {cipher : Cipher}
    (h : 0 ≤ int32OfUInt64 x.length) :
    evpCipher aes x key iv cipher true =
      .ok (standard aes cipher.cbc key iv (x.take (int32OfUInt64 x.length).toNat)) :=
  (evpCipher_eq_ok aes).mpr ⟨h,by rw [evpRun,if_pos rfl]⟩

theorem evpCipher_neg {x key iv : Bytes} {cipher : Cipher} {encrypt : Bool}
    (h : int32OfUInt64 x.length < 0) :
    evpCipher aes x key iv cipher encrypt = .error "cipher: update failed" := by
  simp only [evpCipher]
  rw [if_pos h]

theorem evpCipher_standard {p key iv : Bytes} {cipher : Cipher} (h : p.length < 2^31-16) :
    evpCipher aes (standard aes cipher.cbc key iv p) key iv cipher false = .ok p := by
  have hlen := standard_length aes cipher.cbc key iv p
  have hint := int32OfUInt64_of_lt (n := 16*(p.length/16+1)) (by omega)
  refine (evpCipher_eq_ok aes).mpr ⟨by rw [hlen,hint]; omega,?_⟩
  rw [hlen,hint,List.take_of_length_le (by rw [hlen]; omega)]
  exact evpRun_standard aes cipher key iv p

/-- What is padded, encrypted, decrypted and unpadded is the message as long as no length on
the way is `2^31`. -/
theorem evpCipher_round_trip_iff (p key iv : Bytes) (cipher : Cipher) :
    (evpCipher aes (pkcs7Pad p 16) key iv cipher true >>= fun c =>
      evpCipher aes c key iv cipher false >>= pkcs7Unpad) = .ok p ↔ p.length < 2^31-32 := by
  have hpad := pkcs7Pad_length p
  by_cases hneg : int32OfUInt64 (pkcs7Pad p 16).length < 0
  · have hlong : 2^31 ≤ (pkcs7Pad p 16).length := by
      rcases int32OfUInt64_cases (pkcs7Pad p 16).length with h | ⟨k,hk⟩
      · exact h.2
      · by_contra hlt
        rw [int32OfUInt64_of_lt (by omega)] at hneg
        omega
    rw [evpCipher_neg aes hneg]
    exact iff_of_false (fun h => nomatch h) (by omega)
  · rw [Int.not_lt] at hneg
    rw [evpCipher_encrypt aes hneg]
    have hcut : ((pkcs7Pad p 16).take (int32OfUInt64 (pkcs7Pad p 16).length).toNat).length =
        (int32OfUInt64 (pkcs7Pad p 16).length).toNat := by
      rcases int32OfUInt64_cases (pkcs7Pad p 16).length with h | ⟨k,hk⟩ <;>
        rw [List.length_take] <;> omega
    rw [hpad] at hneg hcut
    obtain ⟨j,hj,hlt,i,hi⟩ := int32OfUInt64_blocks hneg
    rw [hj] at hcut
    rw [hpad,hj]
    change evpCipher aes (standard aes cipher.cbc key iv ((pkcs7Pad p 16).take (16*j))) key iv
      cipher false >>= pkcs7Unpad = .ok p ↔ _
    by_cases hlast : j+1 = 2^27
    · have hlen := standard_length aes cipher.cbc key iv ((pkcs7Pad p 16).take (16*j))
      have hover :
          (standard aes cipher.cbc key iv ((pkcs7Pad p 16).take (16*j))).length = 2^31 := by
        rw [hlen,hcut]
        omega
      rw [evpCipher_neg aes (by rw [hover]; exact int32OfUInt64_neg)]
      exact iff_of_false (fun h => nomatch h) (by omega)
    · rw [evpCipher_standard aes (by omega)]
      change pkcs7Unpad ((pkcs7Pad p 16).take (16*j)) = .ok p ↔ _
      by_cases hi0 : i = 0
      · rw [List.take_of_length_le (by omega),pkcs7Unpad_pad]
        exact iff_of_true rfl (by omega)
      · refine iff_of_false (fun h => ?_) (by omega)
        rcases pkcs7Unpad_length h with ⟨-,rfl⟩ | hless
        · simp at hi
          omega
        · omega

/-- For every key and iv of the sizes that the cipher takes, exactly the messages that stay
below `2^31` bytes with both paddings on are got back. -/
theorem aes_round_trip_iff (key iv p : Bytes)
    (hkey : key.length = 16 ∨ key.length = 24 ∨ key.length = 32) (hiv : iv.length = 16) :
    ((aesCbcEncrypt aes p key iv >>= fun c => aesCbcDecrypt aes c key iv) = .ok p ↔
      p.length < 2^31-32) ∧
    ((aesEcbEncrypt aes p key >>= fun c => aesEcbDecrypt aes c key) = .ok p ↔
      p.length < 2^31-32) := by
  have hcipher : ∀ cbc, aesCipher cbc key.length = some ⟨cbc,key.length⟩ := fun cbc => if_pos hkey
  constructor
  · have hiff := evpCipher_round_trip_iff aes p key iv ⟨true,key.length⟩
    simpa [aesCbcEncrypt,aesCbcDecrypt,hcipher,hiv,Cipher.blockSize] using hiff
  · have hiff := evpCipher_round_trip_iff aes p key [] ⟨false,key.length⟩
    simpa [aesEcbEncrypt,aesEcbDecrypt,hcipher,Cipher.blockSize] using hiff

end evp

theorem aes_round_trip_iff_sample :
    (aesCbcEncrypt aesSample (ascii "a") sampleKey sampleIv >>= fun c =>
      aesCbcDecrypt aesSample c sampleKey sampleIv) = .ok (ascii "a") :=
  (aes_round_trip_iff aesSample sampleKey sampleIv (ascii "a") (by decide) (by decide)).1.mpr
    (by decide)

def twoGiB : Bytes := List.replicate (2^31) 0

theorem twoGiB_length : twoGiB.length = 2^31 := List.length_replicate

/-- Their padded length is negative as `int`, and the cipher refuses it. -/
theorem twoGiB_refused :
    ¬ ((aesCbcEncrypt aesSample twoGiB sampleKey sampleIv >>= fun c =>
        aesCbcDecrypt aesSample c sampleKey sampleIv) = .ok twoGiB ∧
      (aesEcbEncrypt aesSample twoGiB sampleKey >>= fun c =>
        aesEcbDecrypt aesSample c sampleKey) = .ok twoGiB) := by
  have hlength : ¬ twoGiB.length < 2^31-32 := by
    rw [twoGiB_length]
    decide
  have hecb : aesCipher false sampleKey.length = some ⟨false,16⟩ := rfl
  rintro ⟨-,h⟩
  simp only [aesEcbEncrypt,aesEcbDecrypt,hecb,Cipher.blockSize] at h
  exact hlength ((evpCipher_round_trip_iff aesSample twoGiB sampleKey [] ⟨false,16⟩).mp h)

end Crypto
end AsioQuickjs
