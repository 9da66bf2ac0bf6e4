import AsioQuickjs.Crypto

/-! AES-GCM as crypto.cpp frames it: the tag stands behind the ciphertext, and every length goes
to OpenSSL as an `int`. -/
namespace AsioQuickjs
namespace AesGcm

/-- GCM with AES under each key: the key stream and the tag of a nonce, and the lengths that a
nonce may have. -/
structure Gcm where
  keystream : Bytes → Bytes → ℕ → UInt8
  tag : Bytes → Bytes → Bytes → Bytes → Vector UInt8 16
  ivAccepted : ℤ → Bool

def mask (stream : ℕ → UInt8) (text : Bytes) : Bytes := text.mapIdx fun i b => b ^^^ stream i

@[simp] theorem mask_length (stream : ℕ → UInt8) (text : Bytes) :
    (mask stream text).length = text.length := List.length_mapIdx

theorem mask_mask (stream : ℕ → UInt8) (text : Bytes) : mask stream (mask stream text) = text := by
  rw [mask,mask,List.mapIdx_mapIdx]
  refine (List.mapIdx_eq_iff.mpr fun i => ?_).trans (List.map_id text)
  rw [List.getElem?_map]
  cases text[i]? with
  | none => rfl
  | some b =>
    have hback : (b ^^^ stream i) ^^^ stream i = b := by
      rw [UInt8.xor_assoc,UInt8.xor_self,UInt8.xor_zero]
    exact congrArg some hback.symm

variable (g : Gcm)

/-- The `int` that a length becomes, and how many bytes are then taken. -/
def int (data : Bytes) : ℤ := int32OfUInt64 data.length

def taken (data : Bytes) : Bytes := data.take (int data).toNat

/-- `aes_gcm_crypt`. -/
def aesGcmCrypt (input key nonce aad : Bytes) (encrypt : Bool) : Except String Bytes :=
  if ¬(key.length = 16 ∨ key.length = 24 ∨ key.length = 32) then
    .error "aes gcm: invalid key length"
  else if nonce.length < 1 then .error "aes gcm: nonce required"
  else if g.ivAccepted (int nonce) = false then .error "aes gcm: set iv len failed"
  else if aad ≠ [] ∧ int aad < 0 then .error "aes gcm: aad failed"
  else if encrypt then
    if int input < 0 then .error "aes gcm: update failed"
    else
      let out := mask (g.keystream key (taken nonce)) (taken input)
      .ok (out++(g.tag key (taken nonce) (taken aad) out).toList)
  else if input.length < 16 then .error "aes gcm: input too short for tag"
  else
    let tag := input.drop (input.length-16)
    let cipher := input.take (input.length-16)
    if int cipher < 0 then .error "aes gcm: update failed"
    else if (g.tag key (taken nonce) (taken aad) (taken cipher)).toList ≠ tag then
      .error "aes gcm: final failed"
    else .ok (mask (g.keystream key (taken nonce)) (taken cipher))

def aesGcmEncrypt (input key nonce aad : Bytes) : Except String Bytes :=
  aesGcmCrypt g input key nonce aad true

def aesGcmDecrypt (input key nonce aad : Bytes) : Except String Bytes :=
  aesGcmCrypt g input key nonce aad false

/-- The key, the nonce and the additional data are taken. -/
structure Ready (key nonce aad : Bytes) : Prop where
  key : key.length = 16 ∨ key.length = 24 ∨ key.length = 32
  nonce : 1 ≤ nonce.length ∧ g.ivAccepted (int nonce) = true
  aad : aad ≠ [] → 0 ≤ int aad

variable {g}

theorem int_of_lt {data : Bytes} (h : data.length < 2^31) : int data = data.length :=
  int32OfUInt64_of_lt h

theorem taken_of_lt {data : Bytes} (h : data.length < 2^31) : taken data = data := by
  rw [taken,int_of_lt h]
  exact List.take_of_length_le (le_refl _)

/-- What is taken is less than `2^31` bytes, and what is not is whole multiples of `2^32`. -/
theorem taken_spec {data : Bytes} (h : 0 ≤ int data) :
    (taken data).length < 2^31 ∧ ∃ k, data.length = (taken data).length+2^32*k := by
  have hlength : (taken data).length = data.length % 2^32 ∧ data.length % 2^32 < 2^31 := by
    rw [int,int32OfUInt64] at h
    rw [taken,int,int32OfUInt64,List.length_take]
    split at h
    · next hsmall =>
      rw [if_pos hsmall]
      omega
    · omega
  exact ⟨by omega,data.length/2^32,by omega⟩

theorem taken_eq_iff {data : Bytes} (h : 0 ≤ int data) :
    taken data = data ↔ data.length < 2^31 := by
  refine ⟨fun heq => ?_,taken_of_lt⟩
  have hlt := (taken_spec h).1
  rwa [heq] at hlt

theorem crypt_of_not_ready {key nonce aad : Bytes} (h : ¬Ready g key nonce aad) (input : Bytes)
    (encrypt : Bool) : ∃ e, aesGcmCrypt g input key nonce aad encrypt = .error e := by
  rw [aesGcmCrypt]
  split
  · exact ⟨_,rfl⟩
  · next hkey =>
    split
    · exact ⟨_,rfl⟩
    · next hnonce =>
      split
      · exact ⟨_,rfl⟩
      · next hiv =>
        split
        · exact ⟨_,rfl⟩
        · next haad =>
          refine absurd ⟨not_not.mp hkey,⟨by omega,by simpa using hiv⟩,fun hne => ?_⟩ h
          by_contra hneg
          exact haad ⟨hne,by omega⟩

theorem crypt_of_ready {key nonce aad : Bytes} (h : Ready g key nonce aad) (input : Bytes)
    (encrypt : Bool) : aesGcmCrypt g input key nonce aad encrypt =
      if encrypt then
        if int input < 0 then .error "aes gcm: update failed"
        else
          let out := mask (g.keystream key (taken nonce)) (taken input)
          .ok (out++(g.tag key (taken nonce) (taken aad) out).toList)
      else if input.length < 16 then .error "aes gcm: input too short for tag"
      else
        let tag := input.drop (input.length-16)
        let cipher := input.take (input.length-16)
        if int cipher < 0 then .error "aes gcm: update failed"
        else if (g.tag key (taken nonce) (taken aad) (taken cipher)).toList ≠ tag then
          .error "aes gcm: final failed"
        else .ok (mask (g.keystream key (taken nonce)) (taken cipher)) := by
  have hnonce : ¬nonce.length < 1 := by
    have := h.nonce.1
    omega
  have haad : ¬(aad ≠ [] ∧ int aad < 0) := fun hno => by
    have := h.aad hno.1
    omega
  rw [aesGcmCrypt,if_neg (not_not.mpr h.key),if_neg hnonce,
    if_neg (by rw [h.nonce.2]; decide),if_neg haad]

section

variable {key nonce aad : Bytes}

def sealed (g : Gcm) (key nonce aad text : Bytes) : Bytes :=
  mask (g.keystream key (taken nonce)) text++(g.tag key (taken nonce) (taken aad)
    (mask (g.keystream key (taken nonce)) text)).toList

theorem encrypt_eq_ok (h : Ready g key nonce aad) {p x : Bytes} :
    aesGcmEncrypt g p key nonce aad = .ok x ↔ 0 ≤ int p ∧ x = sealed g key nonce aad (taken p) := by
  rw [aesGcmEncrypt,crypt_of_ready h,if_pos rfl]
  split
  · next hneg => exact iff_of_false (fun heq => nomatch heq) fun hand => by omega
  · next hneg =>
    rw [Except.ok.injEq,eq_comm (a := x)]
    exact (and_iff_right (by omega)).symm

/-- Exactly what ends with the tag of a prefix is accepted, where the bytes between the two are a
multiple of `2^32`. -/
theorem decrypt_eq_ok (h : Ready g key nonce aad) {p x : Bytes} :
    aesGcmDecrypt g x key nonce aad = .ok p ↔ ∃ c mid k, mid.length = 2^32*k ∧ c.length < 2^31 ∧
      x = c++mid++(g.tag key (taken nonce) (taken aad) c).toList ∧
      p = mask (g.keystream key (taken nonce)) c := by
  rw [aesGcmDecrypt,crypt_of_ready h,if_neg (by decide)]
  constructor
  · intro heq
    split at heq
    · cases heq
    · next hlong =>
      simp only at heq
      split at heq
      · cases heq
      · next hneg =>
        split at heq
        · cases heq
        · next htag =>
          obtain ⟨hlt,k,hk⟩ := taken_spec (Int.not_lt.mp hneg)
          refine ⟨taken (x.take (x.length-16)),
            (x.take (x.length-16)).drop (int (x.take (x.length-16))).toNat,k,?_,hlt,?_,
            (Except.ok.inj heq).symm⟩
          · have hsplit := congrArg List.length
              (List.take_append_drop (int (x.take (x.length-16))).toNat (x.take (x.length-16)))
            rw [List.length_append,hk,taken] at hsplit
            exact Nat.add_left_cancel hsplit
          · rw [not_not.mp htag,taken,List.take_append_drop,List.take_append_drop]
  · rintro ⟨c,mid,k,hmid,hc,rfl,rfl⟩
    have htag : (g.tag key (taken nonce) (taken aad) c).toList.length = 16 := Vector.length_toList
    have hlength : (c++mid++(g.tag key (taken nonce) (taken aad) c).toList).length-16 =
        (c++mid).length := by
      rw [List.length_append,htag,Nat.add_sub_cancel]
    rw [hlength,List.take_left,List.drop_left]
    have hint : int (c++mid) = c.length := by
      have hmod : (c++mid).length % 2^32 = c.length := by
        rw [List.length_append,hmid]
        omega
      rw [int,int32OfUInt64,hmod,if_pos hc]
      omega
    have htaken : taken (c++mid) = c := by
      rw [taken,hint]
      exact List.take_left
    rw [if_neg (by rw [List.length_append,htag]; omega)]
    simp only [hint,htaken]
    rw [if_neg (by omega),if_neg (not_not.mpr rfl)]

end

theorem decrypt_sealed (h : Ready g key nonce aad) {text : Bytes} (ht : text.length < 2^31) :
    aesGcmDecrypt g (sealed g key nonce aad text) key nonce aad = .ok text :=
  (decrypt_eq_ok h).mpr ⟨mask (g.keystream key (taken nonce)) text,[],0,rfl,
    by rwa [mask_length],by rw [List.append_nil]; rfl,(mask_mask _ _).symm⟩

theorem encrypt_eq_append (h : Ready g key nonce aad) {p c t : Bytes} (hp : p.length < 2^31)
    (ht : t.length = 16) : aesGcmEncrypt g p key nonce aad = .ok (c++t) ↔
      p = mask (g.keystream key (taken nonce)) c ∧
        t = (g.tag key (taken nonce) (taken aad) c).toList := by
  have hint : 0 ≤ int p := by
    rw [int_of_lt hp]
    omega
  rw [encrypt_eq_ok h,taken_of_lt hp,and_iff_right hint,sealed]
  constructor
  · intro heq
    obtain ⟨rfl,rfl⟩ := List.append_inj' heq (by rw [ht]; exact Vector.length_toList.symm)
    exact ⟨(mask_mask _ _).symm,rfl⟩
  · rintro ⟨rfl,rfl⟩
    rw [mask_mask]

/-- With a key, a nonce and additional data that are taken, a text is got back exactly if it is
shorter than `2^31`; decryption gives a text exactly for what encryption makes of it, with any
multiple of `2^32` bytes between the ciphertext and the tag. Both refuse everything else. -/
theorem aes_gcm_iff (g : Gcm) (key nonce aad : Bytes) :
    (Ready g key nonce aad →
      (∀ p x, aesGcmEncrypt g p key nonce aad = .ok x →
        (aesGcmDecrypt g x key nonce aad = .ok p ↔ p.length < 2^31)) ∧
      (∀ p x, x.length < 2^32 →
        (aesGcmDecrypt g x key nonce aad = .ok p ↔
          p.length < 2^31 ∧ aesGcmEncrypt g p key nonce aad = .ok x)) ∧
      ∀ p x, aesGcmDecrypt g x key nonce aad = .ok p ↔ p.length < 2^31 ∧
        ∃ c mid t k, x = c++mid++t ∧ mid.length = 2^32*k ∧ t.length = 16 ∧
          aesGcmEncrypt g p key nonce aad = .ok (c++t)) ∧
    (¬Ready g key nonce aad → ∀ input, (∃ e, aesGcmEncrypt g input key nonce aad = .error e) ∧
      ∃ e, aesGcmDecrypt g input key nonce aad = .error e) := by
  refine ⟨fun h => ?_,fun h input => ⟨crypt_of_not_ready h input true,
    crypt_of_not_ready h input false⟩⟩
  have haccept (p x : Bytes) : aesGcmDecrypt g x key nonce aad = .ok p ↔ p.length < 2^31 ∧
      ∃ c mid t k, x = c++mid++t ∧ mid.length = 2^32*k ∧ t.length = 16 ∧
        aesGcmEncrypt g p key nonce aad = .ok (c++t) := by
    rw [decrypt_eq_ok h]
    constructor
    · rintro ⟨c,mid,k,hmid,hc,rfl,rfl⟩
      have hp : (mask (g.keystream key (taken nonce)) c).length < 2^31 := by rwa [mask_length]
      exact ⟨hp,c,mid,_,k,rfl,hmid,Vector.length_toList,
        (encrypt_eq_append h hp Vector.length_toList).mpr ⟨rfl,rfl⟩⟩
    · rintro ⟨hp,c,mid,t,k,rfl,hmid,ht,henc⟩
      obtain ⟨rfl,rfl⟩ := (encrypt_eq_append h hp ht).mp henc
      rw [mask_length] at hp
      exact ⟨c,mid,k,hmid,hp,rfl,rfl⟩
  refine ⟨fun p x hx => ?_,fun p x hx => ?_,haccept⟩
  · obtain ⟨hint,rfl⟩ := (encrypt_eq_ok h).mp hx
    rw [decrypt_sealed h (taken_spec hint).1,Except.ok.injEq]
    exact taken_eq_iff hint
  · rw [haccept]
    refine and_congr_right fun _ => ⟨?_,fun henc => ?_⟩
    · rintro ⟨c,mid,t,k,rfl,hmid,-,henc⟩
      rw [List.length_append,List.length_append,hmid] at hx
      have hnil : mid = [] := List.length_eq_zero_iff.mp (by omega)
      rwa [hnil,List.append_nil]
    · obtain ⟨-,rfl⟩ := (encrypt_eq_ok h).mp henc
      exact ⟨_,[],_,0,by rw [List.append_nil]; rfl,rfl,Vector.length_toList,henc⟩

def checksum (bs : Bytes) : UInt8 := bs.foldr (·+·) 0

def sampleGcm : Gcm where
  keystream key nonce i := (checksum key+checksum nonce)*(i+1).toUInt8
  tag key nonce aad c :=
    Vector.replicate 16 (checksum key+checksum nonce+3*checksum aad+5*checksum c)
  ivAccepted n := decide (0 < n ∧ n ≤ 128)

def sampleNonce : Bytes := List.replicate 12 7

theorem aes_gcm_iff_sample :
    aesGcmDecrypt sampleGcm (sealed sampleGcm Crypto.sampleKey sampleNonce [1] [104,105])
      Crypto.sampleKey sampleNonce [1] = .ok [104,105] := by
  have hready : Ready sampleGcm Crypto.sampleKey sampleNonce [1] :=
    ⟨by decide,by decide +kernel,fun _ => by decide⟩
  have h := (aes_gcm_iff sampleGcm Crypto.sampleKey sampleNonce [1]).1 hready
  have hsealed := (encrypt_eq_ok hready (p := [104,105])).mpr ⟨by decide,rfl⟩
  rw [taken_of_lt (by decide)] at hsealed
  exact (h.1 _ _ hsealed).mpr (by decide)

end AesGcm
end AsioQuickjs
