import AsioQuickjs.CryptoJs
import AsioQuickjs.ResponseJs
import AsioQuickjs.Trace

/-! `createHash` and `createHmac` of `src/js/crypto.js`. Chunks are put together when the digest
is asked for; of arrays and buffers until then only the reference is kept. -/
namespace AsioQuickjs
namespace IncrementalHash

open CryptoJs (Thrown)
open ResponseJs (Heap View bufferAt)

/-- The buffers of the script, and what the engine makes of the elements of each `Array`, as they
are. -/
structure Memory where
  buffers : Heap
  arrays : List (Except Thrown Bytes)

def arrayAt (m : Memory) (n : ℕ) : Except Thrown Bytes := m.arrays.getD n (.ok [])

/-- What is given for bytes: arrays and buffers by reference. -/
inductive Data
  | nullish
  | uint8Array (v : View)
  | arrayBuffer (n : ℕ)
  | view (v : View)
  | array (n : ℕ)
  | buffer (u8 : View)
  | string (s : JsString)
  | other

/-- A new array that nothing else refers to, or a view of a buffer that is the caller's. -/
inductive Chunk
  | fresh (b : Bytes)
  | kept (v : View)

def Chunk.bytes (m : Memory) : Chunk → Bytes
  | .fresh b => b
  | .kept v => v.bytes m.buffers

def stringBytes (s encoding : JsString) : Except Thrown Bytes :=
  let encoding := Headers.toLowerCase (if encoding = [] then js "utf8" else encoding)
  if encoding = js "hex" then CryptoJs.hexToBytes s
  else if encoding = js "base64" then .ok (CryptoJs.base64ToBytes s)
  else if encoding = js "latin1" ∨ encoding = js "binary" then .ok (CryptoJs.latin1ToBytes s)
  else CryptoJs.stringToUtf8 s

def toBytes (m : Memory) (input : Data) (encoding : JsString) : Except Thrown Chunk :=
  match input with
  | .nullish => .ok (.fresh [])
  | .uint8Array v => .ok (.kept v)
  | .arrayBuffer n => .ok (.kept ⟨n,0,(bufferAt m.buffers n).length⟩)
  | .view v => .ok (.kept v)
  | .array n => (arrayAt m n).map .fresh
  | .buffer u8 => .ok (.kept u8)
  | .string s => (stringBytes s encoding).map .fresh
  | .other => .error (.typeError (js "Unsupported input type for crypto"))

def concatBytes (m : Memory) (chunks : List Chunk) : Bytes := chunks.flatMap (Chunk.bytes m)

inductive Algorithm
  | md5 | sha1 | sha256 | sha512
  deriving DecidableEq

/-- The functions of `__nativeCrypto`. -/
structure Native where
  hash : Algorithm → Bytes → Bytes
  hmacSha1 : Bytes → Bytes → Bytes
  hmacSha256 : Bytes → Bytes → Bytes
  hmacSha512 : Bytes → Bytes → Bytes

def normalizeHash (name : JsString) : Except Thrown Algorithm :=
  let s := (Headers.toLowerCase name).filter (· ≠ 45)
  if s = js "md5" then .ok .md5
  else if s = js "sha1" ∨ s = js "sha160" then .ok .sha1
  else if s = js "sha256" ∨ s = js "sha2256" then .ok .sha256
  else if s = js "sha512" ∨ s = js "sha2512" then .ok .sha512
  else .error (.error (js "Unsupported algorithm: "++name))

variable (native : Native)

def hashOnce (algorithm : JsString) (bytes : Bytes) : Except Thrown Bytes :=
  (normalizeHash algorithm).map fun alg => native.hash alg bytes

def hmacOnce (m : Memory) (algorithm : JsString) (key : Data) (dataBytes : Bytes) :
    Except Thrown Bytes := do
  let key ← toBytes m key []
  match ← normalizeHash algorithm with
  | .sha1 => return native.hmacSha1 (key.bytes m) dataBytes
  | .sha256 => return native.hmacSha256 (key.bytes m) dataBytes
  | .sha512 => return native.hmacSha512 (key.bytes m) dataBytes
  | .md5 => throw (.error (js "Unsupported algorithm: "++algorithm))

inductive Kind
  | hash (algorithm : JsString)
  | hmac (algorithm : JsString) (key : Data)

/-- What the script has, and each chunk with the bytes that it had when it was given, which the
object does not keep. -/
structure State where
  memory : Memory
  updates : List (Chunk × Bytes)

def State.chunks (s : State) : List Chunk := s.updates.map Prod.fst

def State.given (s : State) : List Bytes := s.updates.map Prod.snd

def Kind.once (kind : Kind) (m : Memory) (all : Bytes) : Except Thrown Bytes :=
  match kind with
  | .hash algorithm => hashOnce native algorithm all
  | .hmac algorithm key => hmacOnce native m algorithm key all

/-- The bytes of the result, before they become a `Buffer` or a string. -/
def digest (kind : Kind) (s : State) : Except Thrown Bytes :=
  kind.once native s.memory (concatBytes s.memory s.chunks)

/-- The calls, and what the script does between them: it writes to a buffer, changes an `Array` in
whatever way, or makes a new one. -/
inductive Action
  | update (input : Data) (encoding : JsString)
  | write (n i : ℕ) (x : UInt8)
  | assign (n : ℕ) (elements : Except Thrown Bytes)
  | allocate (b : Bytes)
  | list (elements : Except Thrown Bytes)

def Data.Valid (m : Memory) : Data → Bool
  | .uint8Array v => v.buffer < m.buffers.length
  | .arrayBuffer n => n < m.buffers.length
  | .view v => v.buffer < m.buffers.length
  | .array n => n < m.arrays.length
  | .buffer u8 => u8.buffer < m.buffers.length
  | _ => true

def Memory.after (m : Memory) : Action → Memory
  | .update .. => m
  | .write n i x => {m with buffers := m.buffers.modify n fun b => b.set i x}
  | .assign n elements => {m with arrays := m.arrays.set n elements}
  | .allocate b => {m with buffers := m.buffers++[b]}
  | .list elements => {m with arrays := m.arrays++[elements]}

/-- An `update` that throws leaves the chunks as they are. -/
def step (s : State) : Action → Option State
  | .update input encoding =>
    if input.Valid s.memory then
      match toBytes s.memory input encoding with
      | .error _ => some s
      | .ok c => some {s with updates := s.updates++[(c,c.bytes s.memory)]}
    else none
  | a => some {s with memory := s.memory.after a}

/-- The error that is due whatever is hashed: of the key, or of the algorithm. -/
def Kind.refuses (m : Memory) : Kind → Option Thrown
  | .hash algorithm =>
    match normalizeHash algorithm with
    | .ok _ => none
    | .error e => some e
  | .hmac algorithm key =>
    match toBytes m key [],normalizeHash algorithm with
    | .error e,_ => some e
    | .ok _,.ok .md5 => some (.error (js "Unsupported algorithm: "++algorithm))
    | .ok _,.ok _ => none
    | .ok _,.error e => some e

def keyBytes (m : Memory) (key : Data) : Except Thrown Bytes :=
  (toBytes m key []).map (·.bytes m)

/-- All that is kept by reference reads as it did when it was given. -/
structure Unwritten (kind : Kind) (m : Memory) (s : State) : Prop where
  updates : ∀ x ∈ s.updates, ∀ v, x.1 = .kept v → v.bytes s.memory.buffers = x.2
  key : ∀ algorithm key, kind = .hmac algorithm key → keyBytes s.memory key = keyBytes m key

/-- There may be more buffers, and each has the length it had. -/
structure Later (heap heap' : Heap) : Prop where
  length : heap.length ≤ heap'.length
  lengths : ∀ n < heap.length, (bufferAt heap' n).length = (bufferAt heap n).length

theorem Later.refl (heap : Heap) : Later heap heap := ⟨Nat.le_refl _,fun _ _ => rfl⟩

theorem later_write (heap : Heap) (n i : ℕ) (x : UInt8) :
    Later heap (heap.modify n fun b => b.set i x) := by
  refine ⟨by simp,fun m hm => ?_⟩
  simp only [bufferAt,List.getD_eq_getElem?_getD,List.getElem?_modify]
  split
  · simp [List.getElem?_eq_getElem hm]
  · simp

theorem later_allocate (heap : Heap) (b : Bytes) : Later heap (heap++[b]) := by
  refine ⟨by simp,fun m hm => ?_⟩
  simp only [bufferAt,List.getD_eq_getElem?_getD,List.getElem?_append_left hm]

theorem bytes_length_of_later {heap heap' : Heap} (h : Later heap heap') {v : View}
    (hv : v.buffer < heap.length) : (v.bytes heap').length = (v.bytes heap).length := by
  simp only [View.bytes,List.length_take,List.length_drop,h.lengths v.buffer hv]

theorem kept_of_toBytes {m : Memory} {input : Data} {encoding : JsString} {v : View}
    (hv : input.Valid m = true) (h : toBytes m input encoding = .ok (.kept v)) :
    v.buffer < m.buffers.length := by
  cases input with
  | nullish => cases h
  | array n =>
    rw [toBytes] at h
    cases hn : arrayAt m n <;> rw [hn] at h <;> cases h
  | string s =>
    rw [toBytes] at h
    cases hs : stringBytes s encoding <;> rw [hs] at h <;> cases h
  | other => cases h
  | _ =>
    cases h
    exact of_decide_eq_true hv

/-- A fresh chunk stays what was given, and a kept one has the length of what was given. -/
structure Inv (s : State) : Prop where
  fresh : ∀ x ∈ s.updates, ∀ b, x.1 = .fresh b → x.2 = b
  kept : ∀ x ∈ s.updates, ∀ v, x.1 = .kept v →
    v.buffer < s.memory.buffers.length ∧ (v.bytes s.memory.buffers).length = x.2.length

theorem inv_of_later {m : Memory} {s : State} (h : Inv s)
    (hl : Later s.memory.buffers m.buffers) : Inv {s with memory := m} := by
  refine ⟨h.fresh,fun x hx v hv => ?_⟩
  obtain ⟨hbuffer,hlen⟩ := h.kept x hx v hv
  exact ⟨Nat.lt_of_lt_of_le hbuffer hl.length,(bytes_length_of_later hl hbuffer).trans hlen⟩

theorem step_inv {s t : State} {a : Action} (h : Inv s) (hstep : step s a = some t) : Inv t := by
  cases a with
  | write n i x =>
    cases hstep
    exact inv_of_later h (later_write s.memory.buffers n i x)
  | assign n elements =>
    cases hstep
    exact inv_of_later h (.refl _)
  | allocate b =>
    cases hstep
    exact inv_of_later h (later_allocate s.memory.buffers b)
  | list elements =>
    cases hstep
    exact inv_of_later h (.refl _)
  | update input encoding =>
    simp only [step,Option.ite_none_right_eq_some] at hstep
    obtain ⟨hvalid,hstep⟩ := hstep
    cases hc : toBytes s.memory input encoding with
    | error e =>
      rw [hc] at hstep
      cases hstep
      exact h
    | ok c =>
      rw [hc] at hstep
      cases hstep
      refine ⟨fun x hx b hb => ?_,fun x hx v hv => ?_⟩
      · rcases List.mem_append.mp hx with hx | hx
        · exact h.fresh x hx b hb
        · obtain rfl := List.mem_singleton.mp hx
          obtain rfl : c = .fresh b := hb
          rfl
      · rcases List.mem_append.mp hx with hx | hx
        · exact h.kept x hx v hv
        · obtain rfl := List.mem_singleton.mp hx
          obtain rfl : c = .kept v := hv
          exact ⟨kept_of_toBytes hvalid hc,rfl⟩

theorem run_inv {m : Memory} {s : State} {as : List Action}
    (h : Trace.run step ⟨m,[]⟩ as = some s) : Inv s :=
  Trace.run_keeps (fun _ _ _ hs ha => step_inv hs ha)
    ⟨fun _ hx => absurd hx List.not_mem_nil,fun _ hx => absurd hx List.not_mem_nil⟩ h

theorem eq_of_flatten_eq {ι α : Type*} {xs : List ι} {f g : ι → List α}
    (hlen : ∀ x ∈ xs, (f x).length = (g x).length)
    (h : (xs.map f).flatten = (xs.map g).flatten) : ∀ x ∈ xs, f x = g x := by
  induction xs with
  | nil => exact fun x hx => absurd hx List.not_mem_nil
  | cons x xs ih =>
    simp only [List.map_cons,List.flatten_cons] at h
    obtain ⟨hfirst,hrest⟩ := List.append_inj h (hlen x List.mem_cons_self)
    intro y hy
    rcases List.mem_cons.mp hy with rfl | hy
    · exact hfirst
    · exact ih (fun z hz => hlen z (List.mem_cons_of_mem x hz)) hrest y hy

theorem chunk_length {s : State} (h : Inv s) :
    ∀ x ∈ s.updates, (x.1.bytes s.memory).length = x.2.length := by
  intro x hx
  cases hc : x.1 with
  | fresh b => rw [h.fresh x hx b hc]; rfl
  | kept v => exact (h.kept x hx v hc).2

theorem concatBytes_eq (s : State) :
    concatBytes s.memory s.chunks = (s.updates.map fun x => x.1.bytes s.memory).flatten := by
  rw [concatBytes,State.chunks,List.flatMap_def,List.map_map]
  rfl

theorem concatBytes_length {s : State} (h : Inv s) :
    (concatBytes s.memory s.chunks).length = s.given.flatten.length := by
  rw [concatBytes_eq,State.given,List.length_flatten,List.length_flatten,List.map_map,
    List.map_map]
  exact congrArg List.sum (List.map_congr_left (chunk_length h))

/-- All that is put together is what was given, exactly if the kept chunks read as they did. -/
theorem concatBytes_eq_iff {s : State} (h : Inv s) :
    concatBytes s.memory s.chunks = s.given.flatten ↔
      ∀ x ∈ s.updates, ∀ v, x.1 = .kept v → v.bytes s.memory.buffers = x.2 := by
  rw [concatBytes_eq,State.given]
  constructor
  · intro heq x hx v hv
    have hat := eq_of_flatten_eq (chunk_length h) heq x hx
    rwa [hv] at hat
  · intro hkept
    congr 1
    refine List.map_congr_left fun x hx => ?_
    cases hc : x.1 with
    | fresh b => exact (h.fresh x hx b hc).symm
    | kept v => exact hkept x hx v hc

def echo : Native := ⟨fun _ m => m,fun k m => k++m,fun k m => k++m,fun k m => k++m⟩

/-- Where the algorithm is one of HMAC, a function of what the key comes to and of the message. -/
theorem hmacOnce_eq {algorithm : JsString} {alg : Algorithm}
    (halg : normalizeHash algorithm = .ok alg) (h : alg ≠ .md5) :
    ∃ f : Native → Bytes → Bytes → Bytes, f echo = (fun k all => k++all) ∧
      ∀ native m key all, hmacOnce native m algorithm key all =
        (keyBytes m key).map fun k => f native k all := by
  have hbind : ∀ (f : Bytes → Bytes → Bytes) (m : Memory) (key : Data) (all : Bytes),
      (toBytes m key [] >>= fun c => (.ok (f (c.bytes m) all) : Except Thrown Bytes)) =
        (keyBytes m key).map fun k => f k all := by
    intro f m key all
    rw [keyBytes]
    cases toBytes m key [] <;> rfl
  cases alg with
  | md5 => exact absurd rfl h
  | sha1 =>
    refine ⟨Native.hmacSha1,rfl,fun native m key all => ?_⟩
    rw [hmacOnce,halg]
    exact hbind native.hmacSha1 m key all
  | sha256 =>
    refine ⟨Native.hmacSha256,rfl,fun native m key all => ?_⟩
    rw [hmacOnce,halg]
    exact hbind native.hmacSha256 m key all
  | sha512 =>
    refine ⟨Native.hmacSha512,rfl,fun native m key all => ?_⟩
    rw [hmacOnce,halg]
    exact hbind native.hmacSha512 m key all

theorem hmacOnce_of_refuses {m : Memory} {algorithm : JsString} {key : Data} {e : Thrown}
    (h : (Kind.hmac algorithm key).refuses m = some e) (all : Bytes) :
    hmacOnce native m algorithm key all = .error e := by
  rw [Kind.refuses] at h
  rw [hmacOnce]
  cases hc : toBytes m key [] with
  | error e' =>
    simp only [hc,Option.some.injEq] at h
    rw [h]
    rfl
  | ok c =>
    cases halg : normalizeHash algorithm with
    | error e' =>
      simp only [hc,halg,Option.some.injEq] at h
      rw [h]
      rfl
    | ok alg =>
      cases alg with
      | md5 =>
        simp only [hc,halg,Option.some.injEq] at h
        rw [← h]
        rfl
      | _ => simp [hc,halg] at h

theorem of_not_refuses {m : Memory} {algorithm : JsString} {key : Data}
    (h : (Kind.hmac algorithm key).refuses m = none) :
    ∃ k alg, keyBytes m key = .ok k ∧ normalizeHash algorithm = .ok alg ∧ alg ≠ .md5 := by
  rw [Kind.refuses] at h
  cases hc : toBytes m key [] with
  | error e => simp [hc] at h
  | ok c =>
    cases halg : normalizeHash algorithm with
    | error e => simp [hc,halg] at h
    | ok alg =>
      refine ⟨c.bytes m,alg,by rw [keyBytes,hc]; rfl,rfl,?_⟩
      rintro rfl
      simp [hc,halg] at h

theorem hash_digest_iff {algorithm : JsString} {m : Memory} {s : State} (hi : Inv s) :
    (∀ native, digest native (.hash algorithm) s = hashOnce native algorithm s.given.flatten) ↔
      ((Kind.hash algorithm).refuses m = none → Unwritten (.hash algorithm) m s) := by
  simp only [digest,Kind.once,hashOnce,Kind.refuses]
  cases halg : normalizeHash algorithm with
  | error e => simp [Except.map]
  | ok alg =>
    simp only [Except.map,Except.ok.injEq]
    constructor
    · intro h _
      exact ⟨(concatBytes_eq_iff hi).mp (h echo),fun _ _ hk => by cases hk⟩
    · intro h native
      rw [(concatBytes_eq_iff hi).mpr (h trivial).updates]

theorem hmac_accepted_iff {algorithm : JsString} {key : Data} {m : Memory} {s : State}
    (hi : Inv s) (h : (Kind.hmac algorithm key).refuses m = none)
    (h' : (Kind.hmac algorithm key).refuses s.memory = none) :
    (∀ native, digest native (.hmac algorithm key) s =
        hmacOnce native m algorithm key s.given.flatten) ↔
      Unwritten (.hmac algorithm key) m s := by
  obtain ⟨k,alg,hk,halg,hmd5⟩ := of_not_refuses h
  obtain ⟨k',-,hk',-,-⟩ := of_not_refuses h'
  obtain ⟨f,hf,hmac⟩ := hmacOnce_eq halg hmd5
  simp only [digest,Kind.once,hmac,hk,hk',Except.map,Except.ok.injEq]
  constructor
  · intro hall
    -- the functions that give back what they are given tell the key from the message
    have hat := hall echo
    rw [hf] at hat
    obtain ⟨hsame,hconcat⟩ := List.append_inj' hat (concatBytes_length hi)
    refine ⟨(concatBytes_eq_iff hi).mp hconcat,fun algorithm' key' hkind => ?_⟩
    obtain ⟨rfl,rfl⟩ := Kind.hmac.inj hkind
    rw [hk,hk',hsame]
  · intro hun native
    have hsame := hun.key algorithm key rfl
    rw [hk,hk',Except.ok.injEq] at hsame
    rw [hsame,(concatBytes_eq_iff hi).mpr hun.updates]

theorem hmac_digest_iff {algorithm : JsString} {key : Data} {m : Memory} {s : State}
    (hi : Inv s) :
    (∀ native, digest native (.hmac algorithm key) s =
        hmacOnce native m algorithm key s.given.flatten) ↔
      (Kind.hmac algorithm key).refuses s.memory = (Kind.hmac algorithm key).refuses m ∧
        ((Kind.hmac algorithm key).refuses m = none → Unwritten (.hmac algorithm key) m s) := by
  have haccepted : ∀ m' all, (Kind.hmac algorithm key).refuses m' = none →
      ∃ r, hmacOnce echo m' algorithm key all = .ok r := by
    intro m' all hnone
    obtain ⟨k,alg,hk,halg,hmd5⟩ := of_not_refuses hnone
    obtain ⟨f,-,hmac⟩ := hmacOnce_eq halg hmd5
    exact ⟨f echo k all,by rw [hmac,hk]; rfl⟩
  cases h : (Kind.hmac algorithm key).refuses m with
  | some e =>
    cases h' : (Kind.hmac algorithm key).refuses s.memory with
    | some e' =>
      simp only [digest,Kind.once,hmacOnce_of_refuses _ h,hmacOnce_of_refuses _ h',
        Except.error.injEq,Option.some.injEq,reduceCtorEq,false_implies,and_true]
      exact ⟨fun hall => hall echo,fun hsame _ => hsame⟩
    | none =>
      refine iff_of_false (fun hall => ?_) (fun hsame => nomatch hsame.1)
      obtain ⟨r,hr⟩ := haccepted s.memory (concatBytes s.memory s.chunks) h'
      have hat := hall echo
      rw [digest,Kind.once,hr,hmacOnce_of_refuses _ h] at hat
      cases hat
  | none =>
    cases h' : (Kind.hmac algorithm key).refuses s.memory with
    | some e' =>
      refine iff_of_false (fun hall => ?_) (fun hsame => nomatch hsame.1)
      obtain ⟨r,hr⟩ := haccepted m s.given.flatten h
      have hat := hall echo
      rw [digest,Kind.once,hr,hmacOnce_of_refuses _ h'] at hat
      cases hat
    | none => simpa using hmac_accepted_iff hi h h'

/-- Whatever the native functions are, the digest is that of what was given, exactly if the same
error is due as at the beginning, or none is and nothing that is kept has been written to. -/
theorem digest_iff_unwritten {kind : Kind} {m : Memory} {as : List Action} {s : State}
    (h : Trace.run step ⟨m,[]⟩ as = some s) :
    (∀ native, digest native kind s = kind.once native m s.given.flatten) ↔
      kind.refuses s.memory = kind.refuses m ∧ (kind.refuses m = none → Unwritten kind m s) := by
  cases kind with
  | hash algorithm => exact (hash_digest_iff (run_inv h)).trans (and_iff_right rfl).symm
  | hmac algorithm key => exact hmac_digest_iff (run_inv h)

/-- A string under a key that is an `Array`, with an element of the key written to: another
key. -/
theorem digest_iff_unwritten_sample :
    Trace.run step ⟨⟨[[7]],[.ok [1,2,3]]⟩,[]⟩ [.update (.string (js "ab")) [],
        .update (.uint8Array ⟨0,0,1⟩) [],.assign 0 (.ok [9,2,3])] =
      some ⟨⟨[[7]],[.ok [9,2,3]]⟩,[(.fresh [97,98],[97,98]),(.kept ⟨0,0,1⟩,[7])]⟩ ∧
    ¬ ∀ native, digest native (.hmac (js "SHA-256") (.array 0))
          ⟨⟨[[7]],[.ok [9,2,3]]⟩,[(.fresh [97,98],[97,98]),(.kept ⟨0,0,1⟩,[7])]⟩ =
        hmacOnce native ⟨[[7]],[.ok [1,2,3]]⟩ (js "SHA-256") (.array 0) [97,98,7] := by
  have hrun : Trace.run step ⟨⟨[[7]],[.ok [1,2,3]]⟩,[]⟩ [.update (.string (js "ab")) [],
        .update (.uint8Array ⟨0,0,1⟩) [],.assign 0 (.ok [9,2,3])] =
      some ⟨⟨[[7]],[.ok [9,2,3]]⟩,[(.fresh [97,98],[97,98]),(.kept ⟨0,0,1⟩,[7])]⟩ := rfl
  refine ⟨hrun,fun hall => ?_⟩
  have hkey := (((digest_iff_unwritten hrun).mp hall).2 (by decide +kernel)).key
    (js "SHA-256") (.array 0) rfl
  exact absurd hkey (by decide +kernel)

def sha256 (m : Bytes) : Bytes :=
  if m = [97,98] then
    [251,142,32,252,46,76,63,36,140,96,195,155,214,82,243,193,52,114,152,187,151,123,139,77,89,3,
      184,80,85,98,6,3]
  else if m = [98,98] then
    [59,100,219,149,203,85,199,99,57,28,112,113,8,72,154,225,139,65,18,215,131,48,13,227,142,3,59,
      76,152,195,222,175]
  else []

def sample : Native := ⟨fun _ => sha256,fun _ _ => [],fun _ _ => [],fun _ _ => []⟩

/-- An array with the byte of `a` that is given, overwritten with that of `b` and given again:
the digest is that of `bb`. -/
theorem reused_array_hashed_late :
    ∃ s, Trace.run step ⟨⟨[[97]],[]⟩,[]⟩ [.update (.uint8Array ⟨0,0,1⟩) [],.write 0 0 98,
        .update (.uint8Array ⟨0,0,1⟩) []] = some s ∧
      s.given.flatten = [97,98] ∧
      digest sample (.hash (js "sha256")) s = .ok (sha256 [98,98]) ∧
      digest sample (.hash (js "sha256")) s ≠
        hashOnce sample (js "sha256") s.given.flatten :=
  ⟨_,rfl,by decide,by decide +kernel,by decide +kernel⟩

end IncrementalHash
end AsioQuickjs
