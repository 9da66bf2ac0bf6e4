import AsioQuickjs.AesGcm
import AsioQuickjs.AesRoundTrip
import AsioQuickjs.Buffers
import AsioQuickjs.IncrementalHash

/-! The functions of `src/js/crypto.js` that give text and take it: digests in an encoding, and
AES with base64 on both sides. -/
namespace AsioQuickjs
namespace CryptoTexts

open AesGcm (Gcm Ready aesGcmDecrypt aesGcmEncrypt)
open Base64 (base64)
open BlockMode (Block)
open Buffers (Encoding encodingOf nameOf textOf toStringWith)
open Crypto (aesCbcDecrypt aesCbcEncrypt)
open CryptoJs (base64ToBytes)
open IncrementalHash (Chunk Data Kind Memory Native State stringBytes toBytes)

/-- Conversions throw errors of scripts, native functions a `std::runtime_error`, and `Buffer` an
error of its own. -/
inductive Thrown
  | js (e : CryptoJs.Thrown)
  | native (message : String)
  | buffer (e : BufferBase64.Thrown)

def ofJs {α : Type} (y : Except CryptoJs.Thrown α) : Except Thrown α := y.mapError .js

def ofNative {α : Type} (y : Except String α) : Except Thrown α := y.mapError .native

def ofBuffer {α : Type} (y : Except BufferBase64.Thrown α) : Except Thrown α := y.mapError .buffer

/-- What `digest` gives: a `Buffer`, or text. -/
inductive Digest
  | buffer (b : Bytes)
  | text (s : JsString)

/-- `digest(encoding)` of both objects. -/
def digest (native : Native) (kind : Kind) (s : State) (encoding : Option JsString) :
    Except Thrown Digest := do
  let result ← ofJs (IncrementalHash.digest native kind s)
  match encoding with
  | none => return .buffer result
  | some e =>
    if e = js "buffer" then return .buffer result
    else return .text (← ofBuffer (toStringWith result (some e) none none))

section

variable (aes : Bytes → Equiv.Perm (Block 16)) (g : Gcm) (memory : Memory)

/-- `toBytes` of what is no text of the function's own. -/
def raw (input : Data) : Except Thrown Bytes :=
  ofJs ((toBytes memory input []).map (·.bytes memory))

/-- `aesCbcPkcs7Encrypt` and `aesCbcPkcs7Decrypt` of bytes. -/
def aesCbcPkcs7 (encrypt : Bool) (input : Bytes) (keyRaw ivRaw : Data) : Except Thrown Bytes := do
  let key ← raw memory keyRaw
  let iv ← raw memory ivRaw
  ofNative (if encrypt then aesCbcEncrypt aes input key iv else aesCbcDecrypt aes input key iv)

def aesCbcPkcs7B64 (encrypt : Bool) (payloadB64 : JsString) (keyRaw ivRaw : Data) :
    Except Thrown JsString := do
  let b ← aesCbcPkcs7 aes memory encrypt (base64ToBytes payloadB64) keyRaw ivRaw
  ofBuffer (toStringWith b (some (js "base64")) none none)

def aesCbcPkcs7EncryptB64 := aesCbcPkcs7B64 aes memory true

def aesCbcPkcs7DecryptB64 := aesCbcPkcs7B64 aes memory false

/-- `aesGcmEncrypt` and `aesGcmDecrypt` of bytes; there need not be additional data. -/
def aesGcm (encrypt : Bool) (input : Bytes) (keyRaw nonceRaw : Data) (aad : Option Bytes) :
    Except Thrown Bytes := do
  let key ← raw memory keyRaw
  let nonce ← raw memory nonceRaw
  ofNative (if encrypt then aesGcmEncrypt g input key nonce (aad.getD [])
    else aesGcmDecrypt g input key nonce (aad.getD []))

def aesGcmB64 (encrypt : Bool) (payloadB64 : JsString) (keyRaw nonceRaw : Data)
    (aadB64 : Option JsString) : Except Thrown JsString := do
  let b ← aesGcm g memory encrypt (base64ToBytes payloadB64) keyRaw nonceRaw
    (aadB64.map base64ToBytes)
  ofBuffer (toStringWith b (some (js "base64")) none none)

def aesGcmEncryptB64 := aesGcmB64 g memory true

def aesGcmDecryptB64 := aesGcmB64 g memory false

end

theorem hexDigits_hexText : ∀ n < 256,
    [BufferText.hexUnit (n/16),BufferText.hexUnit (n % 16)].filterMap JsLiteral.hexDigit =
      [n/16,n % 16] := by
  decide +kernel

def nibbles (b : Bytes) : List ℕ := b.flatMap fun x => [x.toNat/16,x.toNat % 16]

theorem filterMap_hexText (b : Bytes) :
    (BufferText.hexText b).filterMap JsLiteral.hexDigit = nibbles b := by
  induction b with
  | nil => rfl
  | cons x b ih =>
    rw [BufferText.hexText,List.flatMap_cons,List.filterMap_append,
      hexDigits_hexText _ x.toNat_lt,nibbles,List.flatMap_cons,← nibbles,← ih]
    rfl

theorem hexPairs_nibbles (b : Bytes) :
    (nibbles b).length % 2 = 0 ∧ CryptoJs.hexPairs (nibbles b) = b := by
  induction b with
  | nil => exact ⟨rfl,rfl⟩
  | cons x b ih =>
    have hcons : nibbles (x::b) = x.toNat/16::x.toNat % 16::nibbles b := rfl
    have hvalue : 16*(x.toNat/16)+x.toNat % 16 = x.toNat := Nat.div_add_mod x.toNat 16
    rw [hcons,CryptoJs.hexPairs,ih.2,hvalue,Nat.toUInt8_eq,UInt8.ofNat_toNat]
    refine ⟨?_,rfl⟩
    simp only [List.length_cons]
    omega

theorem hexToBytes_hexText (b : Bytes) : CryptoJs.hexToBytes (BufferText.hexText b) = .ok b := by
  obtain ⟨hlength,hpairs⟩ := hexPairs_nibbles b
  simp only [CryptoJs.hexToBytes,filterMap_hexText]
  rw [if_neg (by omega),hpairs]

theorem latin1ToBytes_latin1 (b : Bytes) : CryptoJs.latin1ToBytes (b.map UInt8.toNat) = b := by
  rw [CryptoJs.latin1ToBytes,List.map_map]
  refine (List.map_congr_left fun x _ => ?_).trans (List.map_id b)
  rw [Function.comp_apply,Nat.toUInt8_eq,UInt8.ofNat_toNat]
  rfl

/-- The encodings that hold all bytes and that both sides know. -/
def Exact (enc : Encoding) : Prop := enc = .hex ∨ enc = .latin1 ∨ enc = .base64

theorem stringBytes_textOf {e : JsString} {enc : Encoding}
    (h : encodingOf (nameOf (some e)) = some enc) (henc : Exact enc) (b : Bytes) :
    stringBytes (textOf b enc) e = .ok b := by
  rw [encodingOf,Option.map_eq_some_iff] at h
  obtain ⟨p,hp,rfl⟩ := h
  have hname := List.find?_some hp
  have hmem := List.mem_of_find?_eq_some hp
  rw [decide_eq_true_eq] at hname
  have hlower : Headers.toLowerCase (if e = [] then js "utf8" else e) = p.1 := hname.symm
  have hread : p = (js "hex",.hex) ∨ p = (js "latin1",.latin1) ∨ p = (js "binary",.latin1) ∨
      p = (js "base64",.base64) := by
    simp only [Buffers.encodings,List.mem_cons,List.not_mem_nil,or_false] at hmem
    rcases hmem with rfl | rfl | rfl | rfl | rfl | rfl | rfl | rfl | rfl | rfl | rfl
    all_goals simp [Exact] at henc ⊢
  simp only [stringBytes,hlower]
  rcases hread with rfl | rfl | rfl | rfl
  · exact hexToBytes_hexText b
  · exact congrArg Except.ok (latin1ToBytes_latin1 b)
  · exact congrArg Except.ok (latin1ToBytes_latin1 b)
  · exact congrArg Except.ok (CryptoJs.base64ToBytes_base64 b)

theorem toStringWith_whole {encoding : Option JsString} {enc : Encoding}
    (h : encodingOf (nameOf encoding) = some enc) (b : Bytes) :
    toStringWith b encoding none none = .ok (textOf b enc) := by
  rw [Buffers.toStringWith_eq h]
  simp

/-- `toString('base64')` of what a native function gives. -/
def asBase64 (y : Except String Bytes) : Except Thrown JsString := do
  let b ← ofNative y
  ofBuffer (toStringWith b (some (js "base64")) none none)

@[simp] theorem asBase64_ok (b : Bytes) : asBase64 (.ok b) = .ok (base64 b) :=
  congrArg ofBuffer (@toStringWith_whole _ .base64 (by decide) b)

@[simp] theorem asBase64_error (e : String) : asBase64 (.error e) = .error (.native e) := rfl

theorem base64_injective : Function.Injective base64 :=
  Function.LeftInverse.injective CryptoJs.base64ToBytes_base64

theorem asBase64_iff (encrypt decrypt : Bytes → Except String Bytes) (p : Bytes) :
    (asBase64 (encrypt p) >>= fun t => asBase64 (decrypt (base64ToBytes t))) = .ok (base64 p) ↔
      (encrypt p >>= decrypt) = .ok p := by
  cases hencrypt : encrypt p with
  | error e => exact iff_of_false (fun h => nomatch h) fun h => nomatch h
  | ok c =>
    rw [asBase64_ok]
    change asBase64 (decrypt (base64ToBytes (base64 c))) = _ ↔ decrypt c = _
    rw [CryptoJs.base64ToBytes_base64]
    cases hdecrypt : decrypt c with
    | error e => exact iff_of_false (fun h => nomatch h) fun h => nomatch h
    | ok q => simp [base64_injective.eq_iff]

section

variable {aes : Bytes → Equiv.Perm (Block 16)} {g : Gcm} {memory : Memory}

theorem aesCbcPkcs7B64_eq {keyRaw ivRaw : Data} {key iv : Bytes}
    (hkey : raw memory keyRaw = .ok key) (hiv : raw memory ivRaw = .ok iv) (s : JsString) :
    aesCbcPkcs7EncryptB64 aes memory s keyRaw ivRaw =
      asBase64 (aesCbcEncrypt aes (base64ToBytes s) key iv) ∧
    aesCbcPkcs7DecryptB64 aes memory s keyRaw ivRaw =
      asBase64 (aesCbcDecrypt aes (base64ToBytes s) key iv) := by
  simp only [aesCbcPkcs7EncryptB64,aesCbcPkcs7DecryptB64,aesCbcPkcs7B64,aesCbcPkcs7,hkey,hiv]
  exact ⟨rfl,rfl⟩

theorem aesGcmB64_eq {keyRaw nonceRaw : Data} {key nonce : Bytes}
    (hkey : raw memory keyRaw = .ok key) (hnonce : raw memory nonceRaw = .ok nonce)
    (s : JsString) (aadB64 : Option JsString) :
    aesGcmEncryptB64 g memory s keyRaw nonceRaw aadB64 = asBase64
      (aesGcmEncrypt g (base64ToBytes s) key nonce ((aadB64.map base64ToBytes).getD [])) ∧
    aesGcmDecryptB64 g memory s keyRaw nonceRaw aadB64 = asBase64
      (aesGcmDecrypt g (base64ToBytes s) key nonce ((aadB64.map base64ToBytes).getD [])) := by
  simp only [aesGcmEncryptB64,aesGcmDecryptB64,aesGcmB64,aesGcm,hkey,hnonce]
  exact ⟨rfl,rfl⟩

theorem cbc_round_trip {key iv : Bytes}
    (hkey : key.length = 16 ∨ key.length = 24 ∨ key.length = 32) (hiv : iv.length = 16)
    (p : Bytes) : (aesCbcEncrypt aes p key iv >>= fun c => aesCbcDecrypt aes c key iv) = .ok p ↔
      p.length < 2^31-32 := by
  have hcipher : Crypto.aesCipher true key.length = some ⟨true,key.length⟩ := if_pos hkey
  have hiff := Crypto.evpCipher_round_trip_iff aes p key iv ⟨true,key.length⟩
  simpa [aesCbcEncrypt,aesCbcDecrypt,hcipher,hiv,Crypto.Cipher.blockSize] using hiff

theorem gcm_round_trip {key nonce aad : Bytes} (h : Ready g key nonce aad) (p : Bytes) :
    (aesGcmEncrypt g p key nonce aad >>= fun c => aesGcmDecrypt g c key nonce aad) = .ok p ↔
      p.length < 2^31 := by
  cases henc : aesGcmEncrypt g p key nonce aad with
  | error e =>
    refine iff_of_false (fun heq => nomatch heq) fun hp => ?_
    have hint := AesGcm.int_of_lt hp
    cases henc.symm.trans ((AesGcm.encrypt_eq_ok h).mpr ⟨by omega,rfl⟩)
  | ok c =>
    obtain ⟨hint,rfl⟩ := (AesGcm.encrypt_eq_ok h).mp henc
    change aesGcmDecrypt g _ key nonce aad = _ ↔ _
    rw [AesGcm.decrypt_sealed h (AesGcm.taken_spec hint).1,Except.ok.injEq]
    exact AesGcm.taken_eq_iff hint

theorem digest_text {native : Native} {kind : Kind} {s : State} {e : JsString} {enc : Encoding}
    (h : encodingOf (nameOf (some e)) = some enc) (henc : Exact enc) {r : Bytes}
    (hr : IncrementalHash.digest native kind s = .ok r) :
    ∃ t, digest native kind s (some e) = .ok (.text t) ∧ stringBytes t e = .ok r := by
  refine ⟨textOf r enc,?_,stringBytes_textOf h henc r⟩
  have hne : e ≠ js "buffer" := by
    rintro rfl
    revert h
    simp only [show encodingOf (nameOf (some (js "buffer"))) = none by decide]
    simp
  simp only [digest,hr,toStringWith_whole h,if_neg hne]
  rfl

/-- The texts that crypto.js gives are read by crypto.js: a digest in hexadecimal, base64 or
latin1, and what AES makes of base64, which comes back just where it does without base64, as the
base64 of the bytes in the payload. -/
theorem crypto_texts (native : Native) :
    (∀ (kind : Kind) (s : State) (e : JsString) (enc : Encoding) (r : Bytes),
      encodingOf (nameOf (some e)) = some enc → Exact enc →
      IncrementalHash.digest native kind s = .ok r →
      ∃ t, digest native kind s (some e) = .ok (.text t) ∧ stringBytes t e = .ok r) ∧
    (∀ (s : JsString) (keyRaw ivRaw : Data) (key iv : Bytes), raw memory keyRaw = .ok key →
      raw memory ivRaw = .ok iv → (key.length = 16 ∨ key.length = 24 ∨ key.length = 32) →
      iv.length = 16 →
      ((aesCbcPkcs7EncryptB64 aes memory s keyRaw ivRaw >>= fun t =>
        aesCbcPkcs7DecryptB64 aes memory t keyRaw ivRaw) = .ok (base64 (base64ToBytes s)) ↔
        (base64ToBytes s).length < 2^31-32)) ∧
    (∀ (s : JsString) (keyRaw nonceRaw : Data) (key nonce : Bytes) (aadB64 : Option JsString),
      raw memory keyRaw = .ok key → raw memory nonceRaw = .ok nonce →
      Ready g key nonce ((aadB64.map base64ToBytes).getD []) →
      ((aesGcmEncryptB64 g memory s keyRaw nonceRaw aadB64 >>= fun t =>
        aesGcmDecryptB64 g memory t keyRaw nonceRaw aadB64) = .ok (base64 (base64ToBytes s)) ↔
        (base64ToBytes s).length < 2^31)) := by
  refine ⟨fun kind s e enc r h henc hr => digest_text h henc hr,?_,?_⟩
  · intro s keyRaw ivRaw key iv hkey hiv hlength hivlength
    simp only [aesCbcPkcs7B64_eq hkey hiv]
    rw [asBase64_iff (aesCbcEncrypt aes · key iv) (aesCbcDecrypt aes · key iv)]
    exact cbc_round_trip hlength hivlength _
  · intro s keyRaw nonceRaw key nonce aadB64 hkey hnonce hready
    simp only [aesGcmB64_eq hkey hnonce]
    rw [asBase64_iff (aesGcmEncrypt g · key nonce _) (aesGcmDecrypt g · key nonce _)]
    exact gcm_round_trip hready _

end

/-- A key, a nonce and an initialization vector, each an `Array`. -/
def sampleMemory : Memory :=
  ⟨[],[.ok Crypto.sampleKey,.ok AesGcm.sampleNonce,.ok (List.replicate 16 7)]⟩

theorem crypto_texts_sample :
    (∃ t, digest IncrementalHash.echo (.hash (js "SHA-256"))
        ⟨sampleMemory,[(.fresh [104],[104]),(.fresh [105],[105])]⟩ (some (js "hex")) =
      .ok (.text t) ∧ stringBytes t (js "hex") = .ok [104,105]) ∧
    (aesCbcPkcs7EncryptB64 Crypto.aesSample sampleMemory (js "aGk") (.array 0) (.array 2) >>=
      fun t => aesCbcPkcs7DecryptB64 Crypto.aesSample sampleMemory t (.array 0) (.array 2)) =
    .ok (js "aGk=") ∧
    (aesGcmEncryptB64 AesGcm.sampleGcm sampleMemory (js "aGk") (.array 0) (.array 1)
        (some (js "AQ==")) >>= fun t =>
      aesGcmDecryptB64 AesGcm.sampleGcm sampleMemory t (.array 0) (.array 1)
        (some (js "AQ=="))) =
    .ok (js "aGk=") := by
  obtain ⟨hdigest,hcbc,hgcm⟩ :=
    @crypto_texts Crypto.aesSample AesGcm.sampleGcm sampleMemory IncrementalHash.echo
  have hback : base64 (base64ToBytes (js "aGk")) = js "aGk=" := by decide +kernel
  refine ⟨?_,?_,?_⟩
  · exact hdigest _ _ _ .hex [104,105] (by decide) (.inl rfl) (by decide +kernel)
  · have h := (hcbc (js "aGk") (.array 0) (.array 2) Crypto.sampleKey (List.replicate 16 7)
      rfl rfl (.inl rfl) rfl).mpr (by decide +kernel)
    rwa [hback] at h
  · have hready : Ready AesGcm.sampleGcm Crypto.sampleKey AesGcm.sampleNonce
        (((some (js "AQ==")).map base64ToBytes).getD []) :=
      ⟨by decide,by decide +kernel,fun _ => by decide +kernel⟩
    have h := (hgcm (js "aGk") (.array 0) (.array 1) Crypto.sampleKey AesGcm.sampleNonce
      (some (js "AQ==")) rfl rfl hready).mpr (by decide +kernel)
    rwa [hback] at h

end CryptoTexts
end AsioQuickjs
