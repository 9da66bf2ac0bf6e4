import AsioQuickjs.BlockMode
import AsioQuickjs.Bytes
import Mathlib.Logic.Equiv.Basic

/-! The AES functions of crypto.cpp over a block cipher. They pad and unpad on their own, and
the EVP cipher they call pads and unpads once more. -/
namespace AsioQuickjs
namespace Crypto

open BlockMode

def pkcs7Pad (data : Bytes) (blockSize : ℕ) : Bytes :=
  let padLen := blockSize-data.length % blockSize
  data++List.replicate padLen padLen.toUInt8

def pkcs7Unpad (data : Bytes) : Except String Bytes :=
  if data = [] then .ok []
  else
    let padLen := data.getD (data.length-1) 0
    if padLen = 0 ∨ 16 < padLen.toNat ∨ data.length < padLen.toNat then
      .error "invalid pkcs7 padding"
    else if (List.range padLen.toNat).any fun i => data.getD (data.length-1-i) 0 != padLen then
      .error "invalid pkcs7 padding"
    else .ok (data.take (data.length-padLen.toNat))

/-- An `EVP_CIPHER`: the mode of AES and the length of its keys. -/
structure Cipher where
  cbc : Bool
  keyLen : ℕ

def aesCipher (cbc : Bool) (keyLen : ℕ) : Option Cipher :=
  if keyLen = 16 ∨ keyLen = 24 ∨ keyLen = 32 then some ⟨cbc,keyLen⟩ else none

def Cipher.blockSize (_ : Cipher) : ℕ := 16

section evp

-- AES on one block, under each key.
variable (aes : Bytes → Equiv.Perm (Block 16))

def encryptBlocks (cbc : Bool) (key iv : Bytes) (bs : List (Block 16)) : List (Block 16) :=
  if cbc then cbcEncrypt xor (aes key) (block 16 iv) bs else bs.map (aes key)

def decryptBlocks (cbc : Bool) (key iv : Bytes) (bs : List (Block 16)) : List (Block 16) :=
  if cbc then cbcDecrypt xor (aes key) (block 16 iv) bs else bs.map (aes key).symm

def standard (cbc : Bool) (key iv p : Bytes) : Bytes :=
  bytes (encryptBlocks aes cbc key iv (blocks 16 (p.length/16+1) (pad 16 p)))

/-- `EVP_CipherUpdate` and `EVP_CipherFinal_ex` of a context that pads, as it does by default.
`EVP_CipherFinal_ex` fails for what is not whole blocks, or none, and for a bad padding. -/
def evpRun (cipher : Cipher) (key iv data : Bytes) (encrypt : Bool) : Option Bytes :=
  if encrypt then some (standard aes cipher.cbc key iv data)
  else if data = [] ∨ data.length % 16 ≠ 0 then none
  else unpad 16 (bytes (decryptBlocks aes cipher.cbc key iv (blocks 16 (data.length/16) data)))

/-- The length goes to `EVP_CipherUpdate` as an `int`, which refuses a negative one. -/
def evpCipher (input key iv : Bytes) (cipher : Cipher) (encrypt : Bool) : Except String Bytes :=
  let inl := int32OfUInt64 input.length
  if inl < 0 then .error "cipher: update failed"
  else
    match evpRun aes cipher key iv (input.take inl.toNat) encrypt with
    | none => .error "cipher: final failed"
    | some out => .ok out

def aesEcbEncrypt (input key : Bytes) : Except String Bytes :=
  match aesCipher false key.length with
  | none => .error "aes ecb: invalid key length"
  | some cipher => evpCipher aes (pkcs7Pad input cipher.blockSize) key [] cipher true

def aesEcbDecrypt (input key : Bytes) : Except String Bytes :=
  match aesCipher false key.length with
  | none => .error "aes ecb: invalid key length"
  | some cipher => evpCipher aes input key [] cipher false >>= pkcs7Unpad

def aesCbcEncrypt (input key iv : Bytes) : Except String Bytes :=
  match aesCipher true key.length with
  | none => .error "aes cbc: invalid key length"
  | some cipher =>
    if iv.length ≠ 16 then .error "aes cbc: iv must be 16 bytes"
    else evpCipher aes (pkcs7Pad input cipher.blockSize) key iv cipher true

def aesCbcDecrypt (input key iv : Bytes) : Except String Bytes :=
  match aesCipher true key.length with
  | none => .error "aes cbc: invalid key length"
  | some cipher =>
    if iv.length ≠ 16 then .error "aes cbc: iv must be 16 bytes"
    else evpCipher aes input key iv cipher false >>= pkcs7Unpad

theorem int32OfUInt64_cases (n : ℕ) :
    int32OfUInt64 n < 0 ∧ 2^31 ≤ n ∨ ∃ k, n = (int32OfUInt64 n).toNat+2^32*k := by
  unfold int32OfUInt64
  split
  · right
    exact ⟨n/2^32,by omega⟩
  · left
    omega

theorem standard_length (cbc : Bool) (key iv p : Bytes) :
    (standard aes cbc key iv p).length = 16*(p.length/16+1) := by
  rw [standard,bytes_length]
  cases cbc <;> simp [encryptBlocks]

theorem pkcs7Pad_eq (p : Bytes) (n : ℕ) : pkcs7Pad p n = pad n p := rfl

theorem pkcs7Pad_length (p : Bytes) : (pkcs7Pad p 16).length = 16*(p.length/16+1) := by
  rw [pkcs7Pad_eq]
  exact pad_length (by decide) p

theorem pkcs7Unpad_length {data out : Bytes} (h : pkcs7Unpad data = .ok out) :
    data = [] ∧ out = [] ∨ out.length < data.length := by
  unfold pkcs7Unpad at h
  split at h
  · next hnil => exact .inl ⟨hnil,(Except.ok.inj h).symm⟩
  · next hnil =>
    have hpos : 0 < data.length := List.length_pos_iff.mpr hnil
    simp only at h
    split at h
    · cases h
    · next hpad =>
      split at h
      · cases h
      · obtain rfl := Except.ok.inj h
        have hzero : (data.getD (data.length-1) 0).toNat ≠ 0 := fun hz =>
          hpad (.inl (UInt8.toNat_inj.mp hz))
        right
        rw [List.length_take]
        omega

theorem decrypt_encrypt (cbc : Bool) (key iv : Bytes) (bs : List (Block 16)) :
    decryptBlocks aes cbc key iv (encryptBlocks aes cbc key iv bs) = bs := by
  cases cbc with
  | true => exact cbcDecrypt_cbcEncrypt (aes key) xor_xor _ bs
  | false => simp [decryptBlocks,encryptBlocks]

theorem evpRun_standard (cipher : Cipher) (key iv p : Bytes) :
    evpRun aes cipher key iv (standard aes cipher.cbc key iv p) false = some p := by
  have hlen := standard_length aes cipher.cbc key iv p
  have hdiv : (standard aes cipher.cbc key iv p).length/16 = p.length/16+1 := by omega
  have hblocks : ¬ (standard aes cipher.cbc key iv p = [] ∨
      (standard aes cipher.cbc key iv p).length % 16 ≠ 0) := by
    rw [← List.length_eq_zero_iff]
    omega
  have hcount : (encryptBlocks aes cipher.cbc key iv (blocks 16 (p.length/16+1) (pad 16 p))).length =
      p.length/16+1 := by
    cases hc : cipher.cbc <;> simp [encryptBlocks]
  have hcut := blocks_bytes (encryptBlocks aes cipher.cbc key iv (blocks 16 (p.length/16+1) (pad 16 p)))
  rw [hcount] at hcut
  rw [evpRun,if_neg (by decide),if_neg hblocks,hdiv,standard,hcut,decrypt_encrypt,
    bytes_blocks (pad_length (by decide) p),unpad_pad (by decide) (by decide)]

theorem evpRun_length {cipher : Cipher} {key iv data out : Bytes}
    (h : evpRun aes cipher key iv data false = some out) : out.length ≤ data.length := by
  simp only [evpRun,Bool.false_eq_true,if_false,Option.ite_none_left_eq_some,unpad,
    Option.ite_none_right_eq_some,Option.some.injEq] at h
  obtain ⟨-,-,rfl⟩ := h
  have hbytes : (bytes (decryptBlocks aes cipher.cbc key iv
      (blocks 16 (data.length/16) data))).length = 16*(data.length/16) := by
    rw [bytes_length]
    cases cipher.cbc <;> simp [decryptBlocks]
  rw [List.length_take,hbytes]
  omega

theorem evpCipher_eq_ok {input key iv out : Bytes} {cipher : Cipher} {encrypt : Bool} :
    evpCipher aes input key iv cipher encrypt = .ok out ↔ 0 ≤ int32OfUInt64 input.length ∧
      evpRun aes cipher key iv (input.take (int32OfUInt64 input.length).toNat) encrypt = some out := by
  simp only [evpCipher]
  split
  · next hneg => exact iff_of_false (by simp) fun h => absurd h.1 (Int.not_le.mpr hneg)
  · next hpos =>
    rw [Int.not_lt] at hpos
    cases evpRun aes cipher key iv (input.take (int32OfUInt64 input.length).toNat) encrypt <;>
      simp [hpos]

theorem evpCipher_padded_length {p key iv out : Bytes} {cipher : Cipher}
    (h : evpCipher aes (pkcs7Pad p 16) key iv cipher true = .ok out) :
    out.length ≠ 16*(p.length/16+1) := by
  obtain ⟨hpos,hrun⟩ := (evpCipher_eq_ok aes).mp h
  rw [evpRun,if_pos rfl,Option.some.injEq] at hrun
  have hlen := pkcs7Pad_length p
  have hout := standard_length aes cipher.cbc key iv
    ((pkcs7Pad p 16).take (int32OfUInt64 (pkcs7Pad p 16).length).toNat)
  rw [hrun,List.length_take,hlen] at hout
  have hcases := int32OfUInt64_cases (16*(p.length/16+1))
  rw [hlen] at hpos
  omega

/-- Of the standard encryption of a message, what has been unpadded twice is the message only
if that is empty. -/
theorem evpCipher_standard_iff {p key iv : Bytes} {cipher : Cipher} :
    evpCipher aes (standard aes cipher.cbc key iv p) key iv cipher false >>= pkcs7Unpad = .ok p ↔
      p = [] := by
  have hlen := standard_length aes cipher.cbc key iv p
  constructor
  · intro h
    cases hc : evpCipher aes (standard aes cipher.cbc key iv p) key iv cipher false with
    | error e =>
      rw [hc] at h
      cases h
    | ok q =>
      rw [hc] at h
      obtain ⟨hpos,hrun⟩ := (evpCipher_eq_ok aes).mp hc
      have hshort := evpRun_length aes hrun
      have hunpad := pkcs7Unpad_length (show pkcs7Unpad q = .ok p from h)
      rw [List.length_take] at hshort
      rcases hunpad with ⟨-,hnil⟩ | hless
      · exact hnil
      · rcases int32OfUInt64_cases (standard aes cipher.cbc key iv p).length with hneg | ⟨k,hk⟩
        · omega
        · by_cases hk0 : k = 0
          · have hsame : (int32OfUInt64 (standard aes cipher.cbc key iv p).length).toNat =
                (standard aes cipher.cbc key iv p).length := by omega
            rw [hsame,List.take_length,evpRun_standard,Option.some.injEq] at hrun
            rw [hrun] at hless
            omega
          · omega
  · rintro rfl
    have hone : (standard aes cipher.cbc key iv []).length = 16 := by simpa using hlen
    have hint : int32OfUInt64 16 = 16 := by decide
    have hok : evpCipher aes (standard aes cipher.cbc key iv []) key iv cipher false = .ok [] := by
      refine (evpCipher_eq_ok aes).mpr ⟨by rw [hone,hint]; decide,?_⟩
      rw [hone,hint,List.take_of_length_le (by rw [hone]; decide)]
      exact evpRun_standard aes cipher key iv []
    rw [hok]
    rfl

/-- For every key and iv of the sizes that the cipher takes, no message is encrypted as the
standard has it, nor to that length, and no message but the empty one is got back from its
standard encryption. -/
theorem pkcs7_interop_fails (key iv p : Bytes)
    (hkey : key.length = 16 ∨ key.length = 24 ∨ key.length = 32) (hiv : iv.length = 16) :
    (aesCbcEncrypt aes p key iv ≠ .ok (standard aes true key iv p) ∧
      (∀ c, aesCbcEncrypt aes p key iv = .ok c → c.length ≠ 16*(p.length/16+1)) ∧
      (aesCbcDecrypt aes (standard aes true key iv p) key iv = .ok p ↔ p = [])) ∧
    aesEcbEncrypt aes p key ≠ .ok (standard aes false key [] p) ∧
      (∀ c, aesEcbEncrypt aes p key = .ok c → c.length ≠ 16*(p.length/16+1)) ∧
      (aesEcbDecrypt aes (standard aes false key [] p) key = .ok p ↔ p = []) := by
  have hcipher : ∀ cbc, aesCipher cbc key.length = some ⟨cbc,key.length⟩ := fun cbc => if_pos hkey
  have hcbc : aesCbcEncrypt aes p key iv =
      evpCipher aes (pkcs7Pad p 16) key iv ⟨true,key.length⟩ true := by
    simp [aesCbcEncrypt,hcipher,hiv,Cipher.blockSize]
  have hecb : aesEcbEncrypt aes p key =
      evpCipher aes (pkcs7Pad p 16) key [] ⟨false,key.length⟩ true := by
    simp [aesEcbEncrypt,hcipher,Cipher.blockSize]
  refine ⟨⟨?_,?_,?_⟩,?_,?_,?_⟩
  · rw [hcbc]
    exact fun h => evpCipher_padded_length aes h (standard_length aes true key iv p)
  · rw [hcbc]
    exact fun c h => evpCipher_padded_length aes h
  · have hiff := @evpCipher_standard_iff aes p key iv ⟨true,key.length⟩
    simpa [aesCbcDecrypt,hcipher,hiv] using hiff
  · rw [hecb]
    exact fun h => evpCipher_padded_length aes h (standard_length aes false key [] p)
  · rw [hecb]
    exact fun c h => evpCipher_padded_length aes h
  · have hiff := @evpCipher_standard_iff aes p key [] ⟨false,key.length⟩
    simpa [aesEcbDecrypt,hcipher] using hiff

end evp

def sampleKey : Bytes := (List.range 16).map Nat.toUInt8

def sampleIv : Bytes := List.replicate 16 0

/-- AES-128 under the sample key, on the blocks that the message "a" meets. -/
def aesSample (_ : Bytes) : Equiv.Perm (Block 16) :=
  (Equiv.swap (block 16 [97,15,15,15,15,15,15,15,15,15,15,15,15,15,15,15])
      (block 16 [254,18,52,134,80,139,14,181,3,168,70,131,136,239,88,18])).trans
    ((Equiv.swap (block 16 [238,2,36,150,64,155,30,165,19,184,86,147,152,255,72,2])
        (block 16 [4,150,219,255,189,168,162,137,222,190,217,77,9,235,124,157])).trans
      (Equiv.swap (block 16 (List.replicate 16 16))
        (block 16 [149,79,100,242,228,232,110,158,238,130,210,2,22,104,72,153])))

theorem pkcs7_interop_fails_sample :
    ¬ aesCbcDecrypt aesSample (standard aesSample true sampleKey sampleIv (ascii "a")) sampleKey
      sampleIv = .ok (ascii "a") :=
  fun h => absurd ((pkcs7_interop_fails aesSample sampleKey sampleIv (ascii "a") (by decide)
    (by decide)).1.2.2.mp h) (by decide)

/-- "a" is encrypted to two blocks for one, and its standard encryption is refused. -/
theorem pads_twice :
    ¬ (aesCbcEncrypt aesSample (ascii "a") sampleKey sampleIv =
        .ok (standard aesSample true sampleKey sampleIv (ascii "a")) ∧
      aesCbcDecrypt aesSample (standard aesSample true sampleKey sampleIv (ascii "a")) sampleKey
        sampleIv = .ok (ascii "a")) := by
  have hlen : ((aesCbcEncrypt aesSample (ascii "a") sampleKey sampleIv).toOption.map
      List.length) = some 32 := by decide +kernel
  have hstandard : (standard aesSample true sampleKey sampleIv (ascii "a")).length = 16 := by
    decide +kernel
  rintro ⟨h,-⟩
  rw [h] at hlen
  simp [Except.toOption,hstandard] at hlen

end Crypto
end AsioQuickjs
