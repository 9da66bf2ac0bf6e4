import AsioQuickjs.Bits
import AsioQuickjs.CryptoJs

/-! `Buffer.toString('base64')` and `Buffer.from(s,'base64')` in buffer.js: bytes are encoded in
chunks, and what a string holds beside digits is dropped before it is decoded. -/
namespace AsioQuickjs
namespace BufferBase64

open Base64 (digit digits base64)

/-- What buffer.js throws. -/
inductive Thrown
  | error (message : JsString)
  | typeError (message : JsString)
  | rangeError (message : JsString)
  deriving DecidableEq

def byteAt (i : Bytes) (o : ℕ) : ℕ := (i.getD o 0).toNat

/-- `Ur` -/
def tripletToBase64 (n : ℕ) : JsString :=
  [digit (n >>> 18 &&& 63),digit (n >>> 12 &&& 63),digit (n >>> 6 &&& 63),digit (n &&& 63)]

/-- `Tr`, the triplets from `r` up to `t`. -/
def encodeChunk (i : Bytes) (r t : ℕ) : JsString :=
  (List.range ((t-r+2)/3)).flatMap fun k =>
    tripletToBase64 ((byteAt i (r+3*k) <<< 16 &&& 16711680)+
      (byteAt i (r+3*k+1) <<< 8 &&& 65280)+(byteAt i (r+3*k+2) &&& 255))

/-- What is behind the last triplet of `t` bytes. -/
def encodeTail (i : Bytes) (t : ℕ) : JsString :=
  if t % 3 = 1 then
    let r := byteAt i (t-1)
    [digit (r >>> 2),digit (r <<< 4 &&& 63),61,61]
  else if t % 3 = 2 then
    let r := (byteAt i (t-2) <<< 8)+byteAt i (t-1)
    [digit (r >>> 10),digit (r >>> 4 &&& 63),digit (r <<< 2 &&& 63),61]
  else []

/-- `fromByteArray` -/
def fromByteArray (i : Bytes) : JsString :=
  let f := i.length-i.length % 3
  ((List.range ((f+16382)/16383)).flatMap fun k =>
    encodeChunk i (16383*k) (if 16383*k+16383 > f then f else 16383*k+16383))++
  encodeTail i i.length

/-- `w`: the bits of a digit, also of the two that URLs have in place of plus and slash. -/
def lookup (c : ℕ) : Option ℕ :=
  if c = 45 then some 62 else if c = 95 then some 63 else CryptoJs.lookup c

/-- `undefined` counts as zero. -/
def sextet (s : JsString) (c : ℕ) : ℕ := (s[c]?.bind lookup).getD 0

/-- `getLens`, without its check. -/
def lens (s : JsString) : ℕ × ℕ :=
  let t := (s.takeWhile (· ≠ 61)).length
  (t,if t = s.length then 0 else 4-t % 4)

def group (s : JsString) (c : ℕ) : Bytes :=
  let r := sextet s c <<< 18 ||| sextet s (c+1) <<< 12 ||| sextet s (c+2) <<< 6 ||| sextet s (c+3)
  [(r >>> 16 &&& 255).toUInt8,(r >>> 8 &&& 255).toUInt8,(r &&& 255).toUInt8]

def decodeTail (s : JsString) (c e : ℕ) : Bytes :=
  if e = 2 then [((sextet s c <<< 2 ||| sextet s (c+1) >>> 4) &&& 255).toUInt8]
  else if e = 1 then
    let r := sextet s c <<< 10 ||| sextet s (c+1) <<< 4 ||| sextet s (c+2) >>> 2
    [(r >>> 8 &&& 255).toUInt8,(r &&& 255).toUInt8]
  else []

/-- `toByteArray`, into an array that was made before. -/
def toByteArray (s : JsString) : Except Thrown Bytes :=
  if s.length % 4 > 0 then .error (.error (js "Invalid string. Length must be a multiple of 4"))
  else
    let (n,e) := lens s
    let f := if e > 0 then n-4 else n
    let out := ((List.range ((f+3)/4)).flatMap fun k => group s (4*k))++
      decodeTail s (4*((f+3)/4)) e
    if (n+e)*3/4 < e then .error (.rangeError (js "invalid array length"))
    else
      let size := (n+e)*3/4-e
      .ok (out.take size++List.replicate (size-out.length) 0)

/-- `base64clean`: what is in front of the padding, less what are no digits, padded anew. -/
def base64clean (s : JsString) : JsString :=
  let s := (s.takeWhile (· ≠ 61)).filter fun c => (lookup c).isSome
  if s.length < 2 then [] else s++List.replicate ((4-s.length % 4) % 4) 61

/-- `pr`, what `Buffer.from(s,'base64')` holds. -/
def fromBase64 (s : JsString) : Except Thrown Bytes := toByteArray (base64clean s)

def sextets (s : JsString) : List ℕ := (s.takeWhile (· ≠ 61)).filterMap lookup

/-- The bytes of a string of six-bit values. What does not fill a byte is left out. -/
def bits : List ℕ → Bytes
  | [] => []
  | [_] => []
  | [a,b] => [(a*4+b/16).toUInt8]
  | [a,b,c] => [(a*4+b/16).toUInt8,(b % 16*16+c/4).toUInt8]
  | a::b::c::d::vs =>
    (a*4+b/16).toUInt8::(b % 16*16+c/4).toUInt8::(c % 4*64+d).toUInt8::bits vs

theorem digits_append {x : Bytes} (h : 3 ∣ x.length) (y : Bytes) :
    digits (x++y) = digits x++digits y := by
  induction x using Base64.digits.induct with
  | case1 => rfl
  | case2 a =>
    simp only [List.length_cons,List.length_nil] at h
    omega
  | case3 a b =>
    simp only [List.length_cons,List.length_nil] at h
    omega
  | case4 a b c rest ih =>
    simp only [List.length_cons] at h
    simp only [List.cons_append,digits,ih (by omega)]

theorem triplet_eq (a b c : UInt8) :
    tripletToBase64 ((a.toNat <<< 16 &&& 16711680)+(b.toNat <<< 8 &&& 65280)+(c.toNat &&& 255)) =
      digits [a,b,c] := by
  have ha := a.toNat_lt
  have hb := b.toNat_lt
  have hc := c.toNat_lt
  have hhigh : a.toNat <<< 16 &&& 16711680 = a.toNat*65536 := by
    have hmask : a.toNat*2^16 &&& 16711680 = a.toNat*2^16/2^16*2^16 :=
      @Bits.and_high _ 8 16 (by omega)
    rw [Nat.shiftLeft_eq,hmask]
    omega
  have hmid : b.toNat <<< 8 &&& 65280 = b.toNat*256 := by
    have hmask : b.toNat*2^8 &&& 65280 = b.toNat*2^8/2^8*2^8 := @Bits.and_high _ 8 8 (by omega)
    rw [Nat.shiftLeft_eq,hmask]
    omega
  have hlow : c.toNat &&& 255 = c.toNat := (Bits.and_low _ 8).trans (Nat.mod_eq_of_lt hc)
  have hmask (x : ℕ) : x &&& 63 = x % 64 := Bits.and_low x 6
  rw [hhigh,hmid,hlow,tripletToBase64]
  simp only [hmask,Nat.shiftRight_eq_div_pow,digits]
  congr 1
  · congr 1
    omega
  congr 1
  · congr 1
    omega
  congr 1
  · congr 1
    omega
  congr 1
  · congr 1
    omega

theorem drop_three {i : Bytes} {m : ℕ} (h : m+3 ≤ i.length) :
    ∃ a b c rest, i.drop m = a::b::c::rest ∧ byteAt i m = a.toNat ∧ byteAt i (m+1) = b.toNat ∧
      byteAt i (m+2) = c.toNat := by
  refine ⟨i[m],i[m+1],i[m+2],i.drop (m+3),?_,?_,?_,?_⟩
  · rw [List.drop_eq_getElem_cons (by omega),List.drop_eq_getElem_cons (by omega),
      List.drop_eq_getElem_cons (by omega)]
  all_goals
    rw [byteAt,List.getD_eq_getElem]

theorem encodeTriplets {i : Bytes} {r k : ℕ} (h : r+3*k ≤ i.length) :
    ((List.range k).flatMap fun k =>
      tripletToBase64 ((byteAt i (r+3*k) <<< 16 &&& 16711680)+
        (byteAt i (r+3*k+1) <<< 8 &&& 65280)+(byteAt i (r+3*k+2) &&& 255))) =
      digits ((i.drop r).take (3*k)) := by
  induction k with
  | zero => simp [digits]
  | succ k ih =>
    obtain ⟨a,b,c,rest,hdrop,ha,hb,hc⟩ := @drop_three i (r+3*k) (by omega)
    have htake : (i.drop r).take (3*(k+1)) = (i.drop r).take (3*k)++[a,b,c] := by
      rw [Nat.mul_succ,List.take_add,List.drop_drop,hdrop]
      rfl
    have hlength : ((i.drop r).take (3*k)).length = 3*k := by
      rw [List.length_take,List.length_drop]
      omega
    rw [List.range_succ,List.flatMap_append,ih (by omega),htake,
      digits_append (by rw [hlength]; exact Nat.dvd_mul_right 3 k),List.flatMap_singleton,ha,hb,hc,
      triplet_eq]

theorem encodeChunk_eq {i : Bytes} {r t : ℕ} (hr : r ≤ t) (ht : t ≤ i.length) (h : 3 ∣ t-r) :
    encodeChunk i r t = digits ((i.drop r).take (t-r)) := by
  have hcount : 3*((t-r+2)/3) = t-r := by omega
  rw [encodeChunk,encodeTriplets (by omega),hcount]

theorem encodeChunks_eq {i : Bytes} {f m : ℕ} (hf : f ≤ i.length) (h3 : 3 ∣ f)
    (hm : m ≤ (f+16382)/16383) :
    ((List.range m).flatMap fun k =>
      encodeChunk i (16383*k) (if 16383*k+16383 > f then f else 16383*k+16383)) =
      digits (i.take (min (16383*m) f)) := by
  induction m with
  | zero => simp [digits]
  | succ m ih =>
    have hstart : 16383*m < f := by omega
    have hend : (if 16383*m+16383 > f then f else 16383*m+16383) = min (16383*(m+1)) f := by
      split <;> omega
    have hmin : min (16383*m) f = 16383*m := by omega
    have hsplit : i.take (min (16383*(m+1)) f) =
        i.take (16383*m)++(i.drop (16383*m)).take (min (16383*(m+1)) f-16383*m) := by
      rw [← List.take_add]
      congr 1
      omega
    rw [List.range_succ,List.flatMap_append,ih (by omega),List.flatMap_singleton,hend,hmin,
      encodeChunk_eq (by omega) (by omega) (by omega),hsplit,digits_append]
    rw [List.length_take]
    omega

theorem byteAt_append (x y : Bytes) (k : ℕ) : byteAt (x++y) (x.length+k) = byteAt y k := by
  rw [byteAt,byteAt,List.getD_append_right _ _ _ _ (Nat.le_add_right _ _),Nat.add_sub_cancel_left]

theorem encodeTail_eq {x y : Bytes} (hx : 3 ∣ x.length) (hy : y.length < 3) :
    encodeTail (x++y) (x++y).length = digits y++List.replicate ((3-y.length % 3) % 3) 61 := by
  have hmask (n : ℕ) : n &&& 63 = n % 64 := Bits.and_low n 6
  rcases y with _ | ⟨a,_ | ⟨b,_ | ⟨c,y⟩⟩⟩
  · have hmod : (x++[]).length % 3 = 0 := by rw [List.append_nil]; omega
    rw [encodeTail,hmod]
    rfl
  · have ha := a.toNat_lt
    have hmod : (x++[a]).length % 3 = 1 := by rw [List.length_append,List.length_singleton]; omega
    have hat : byteAt (x++[a]) ((x++[a]).length-1) = a.toNat := by
      rw [List.length_append,List.length_singleton,Nat.add_sub_cancel]
      exact byteAt_append x [a] 0
    have hlow : a.toNat*2^4 % 64 = a.toNat % 4*16 := by omega
    rw [encodeTail,if_pos hmod,hat]
    simp only [hmask,Nat.shiftRight_eq_div_pow,Nat.shiftLeft_eq,hlow]
    rfl
  · have ha := a.toNat_lt
    have hb := b.toNat_lt
    have hlength : (x++[a,b]).length = x.length+2 := List.length_append
    have hfirst : byteAt (x++[a,b]) ((x++[a,b]).length-2) = a.toNat := by
      rw [hlength,Nat.add_sub_cancel]
      exact byteAt_append x [a,b] 0
    have hsecond : byteAt (x++[a,b]) ((x++[a,b]).length-1) = b.toNat := by
      rw [hlength]
      exact byteAt_append x [a,b] 1
    have hone : (a.toNat*2^8+b.toNat)/2^10 = a.toNat/4 := by omega
    have htwo : (a.toNat*2^8+b.toNat)/2^4 % 64 = a.toNat % 4*16+b.toNat/16 := by omega
    have hthree : (a.toNat*2^8+b.toNat)*2^2 % 64 = b.toNat % 16*4 := by omega
    rw [encodeTail,if_neg (by omega),if_pos (by omega),hfirst,hsecond]
    simp only [hmask,Nat.shiftRight_eq_div_pow,Nat.shiftLeft_eq,hone,htwo,hthree]
    rfl
  · simp only [List.length_cons] at hy
    omega

theorem fromByteArray_eq (i : Bytes) : fromByteArray i = base64 i := by
  have hmin : min (16383*((i.length-i.length % 3+16382)/16383)) (i.length-i.length % 3) =
      i.length-i.length % 3 := by omega
  have hwhole : 3 ∣ (i.take (i.length-i.length % 3)).length := by
    rw [List.length_take]
    omega
  have hrest : (i.drop (i.length-i.length % 3)).length = i.length % 3 := by
    rw [List.length_drop]
    omega
  have htail := encodeTail_eq hwhole (hrest.trans_lt (Nat.mod_lt _ (by decide)))
  rw [List.take_append_drop,hrest,Nat.mod_mod] at htail
  rw [fromByteArray,encodeChunks_eq (Nat.sub_le _ _) (by omega) (le_refl _),hmin,htail,
    ← List.append_assoc,← digits_append hwhole,List.take_append_drop,base64]

theorem bits_append {x : List ℕ} (h : 4 ∣ x.length) (y : List ℕ) :
    bits (x++y) = bits x++bits y := by
  induction x using bits.induct with
  | case1 => rfl
  | case2 a =>
    simp only [List.length_cons,List.length_nil] at h
    omega
  | case3 a b =>
    simp only [List.length_cons,List.length_nil] at h
    omega
  | case4 a b c =>
    simp only [List.length_cons,List.length_nil] at h
    omega
  | case5 a b c d vs ih =>
    simp only [List.length_cons] at h
    simp only [List.cons_append,bits,ih (by omega)]

theorem length_bits (x : List ℕ) : (bits x).length = x.length*3/4 := by
  induction x using bits.induct with
  | case1 => rfl
  | case2 a => simp [bits]
  | case3 a b => simp [bits]
  | case4 a b c => simp [bits]
  | case5 a b c d vs ih =>
    simp only [bits,List.length_cons,ih]
    omega

theorem lookup_lt {c n : ℕ} (h : lookup c = some n) : n < 64 := by
  rw [lookup] at h
  split at h
  · cases h
    decide
  split at h
  · cases h
    decide
  rw [CryptoJs.lookup] at h
  split at h
  · cases h
    exact List.idxOf_lt_length_of_mem ‹_›
  · exact absurd h (by simp)

theorem lookup_ne {c n : ℕ} (h : lookup c = some n) : c ≠ 61 := by
  rintro rfl
  have hnone : lookup 61 = none := by decide
  rw [hnone] at h
  exact absurd h (by simp)

def values (s : JsString) : List ℕ := s.map fun c => (lookup c).getD 0

theorem sextet_eq (s : JsString) (c : ℕ) : sextet s c = (values s).getD c 0 := by
  rw [sextet,values,List.getD_eq_getElem?_getD,List.getElem?_map]
  cases s[c]? <;> rfl

theorem sextet_lt (s : JsString) (c : ℕ) : sextet s c < 64 := by
  rw [sextet]
  cases h : s[c]?.bind lookup with
  | none => decide
  | some n =>
    obtain ⟨u,_,hu⟩ := Option.bind_eq_some_iff.mp h
    exact lookup_lt hu

theorem group_eq (s : JsString) (c : ℕ) :
    group s c = bits [sextet s c,sextet s (c+1),sextet s (c+2),sextet s (c+3)] := by
  have h0 := sextet_lt s c
  have h1 := sextet_lt s (c+1)
  have h2 := sextet_lt s (c+2)
  have h3 := sextet_lt s (c+3)
  have hmask (n : ℕ) : n &&& 255 = n % 256 := Bits.and_low n 8
  rw [group,Bits.pack_four _ _ _ _ h1 h2 h3]
  simp only [hmask,Nat.shiftRight_eq_div_pow,bits,List.cons.injEq,and_true]
  refine ⟨?_,?_,?_⟩ <;>
    · congr 1
      omega

theorem decodeTail_two (s : JsString) (c : ℕ) :
    decodeTail s c 2 = bits [sextet s c,sextet s (c+1)] := by
  have h0 := sextet_lt s c
  have h1 := sextet_lt s (c+1)
  have hor : sextet s c*2^2 ||| sextet s (c+1)/2^4 = sextet s c*2^2+sextet s (c+1)/2^4 :=
    @Bits.or_eq_add _ _ 2 (Nat.dvd_mul_left _ _) (by omega)
  have hmask (n : ℕ) : n &&& 255 = n % 256 := Bits.and_low n 8
  rw [decodeTail,if_pos rfl,Nat.shiftLeft_eq,Nat.shiftRight_eq_div_pow,hor,hmask,
    Nat.mod_eq_of_lt (by omega)]
  rfl

theorem decodeTail_one (s : JsString) (c : ℕ) :
    decodeTail s c 1 = bits [sextet s c,sextet s (c+1),sextet s (c+2)] := by
  have h0 := sextet_lt s c
  have h1 := sextet_lt s (c+1)
  have h2 := sextet_lt s (c+2)
  have hfirst : sextet s c*2^10 ||| sextet s (c+1)*2^4 = sextet s c*2^10+sextet s (c+1)*2^4 :=
    @Bits.or_eq_add _ _ 10 (Nat.dvd_mul_left _ _) (by omega)
  have hsecond : sextet s c*2^10+sextet s (c+1)*2^4 ||| sextet s (c+2)/2^2 =
      sextet s c*2^10+sextet s (c+1)*2^4+sextet s (c+2)/2^2 :=
    @Bits.or_eq_add _ _ 4 (by omega) (by omega)
  have hmask (n : ℕ) : n &&& 255 = n % 256 := Bits.and_low n 8
  rw [decodeTail,if_neg (by decide),if_pos rfl]
  simp only [Nat.shiftLeft_eq,Nat.shiftRight_eq_div_pow,hfirst,hsecond,hmask,bits,
    List.cons.injEq,and_true]
  refine ⟨?_,?_⟩ <;>
    · congr 1
      omega

theorem groups_eq {s : JsString} {k : ℕ} (h : 4*k ≤ s.length) :
    ((List.range k).flatMap fun k => group s (4*k)) = bits ((values s).take (4*k)) := by
  induction k with
  | zero => rfl
  | succ k ih =>
    have hlength : (values s).length = s.length := List.length_map _
    have hfour : (values s).take (4*(k+1)) = (values s).take (4*k)++
        [sextet s (4*k),sextet s (4*k+1),sextet s (4*k+2),sextet s (4*k+3)] := by
      simp only [sextet_eq]
      rw [Nat.mul_succ,List.take_add,List.drop_eq_getElem_cons (by omega),
        List.drop_eq_getElem_cons (by omega),List.drop_eq_getElem_cons (by omega),
        List.drop_eq_getElem_cons (by omega),List.getD_eq_getElem _ _ (by omega),
        List.getD_eq_getElem _ _ (by omega),List.getD_eq_getElem _ _ (by omega),
        List.getD_eq_getElem _ _ (by omega)]
      rfl
    rw [List.range_succ,List.flatMap_append,ih (by omega),List.flatMap_singleton,group_eq,hfour,
      bits_append]
    rw [List.length_take]
    omega

def padded (u : JsString) : JsString := u++List.replicate ((4-u.length % 4) % 4) 61

theorem takeWhile_digits {u : JsString} (h : ∀ c ∈ u, c ≠ 61) (n : ℕ) :
    (u++List.replicate n 61).takeWhile (· ≠ 61) = u := by
  rw [List.takeWhile_append_of_pos fun c hc => decide_eq_true (h c hc)]
  cases n with
  | zero => simp
  | succ n => simp [List.replicate_succ]

theorem lens_padded {u : JsString} (h : ∀ c ∈ u, c ≠ 61) :
    lens (padded u) = (u.length,(4-u.length % 4) % 4) := by
  have hlength : (padded u).length = u.length+(4-u.length % 4) % 4 := by simp [padded]
  rw [lens,hlength,padded,takeWhile_digits h]
  congr 1
  split <;> omega

theorem sextet_padded {u : JsString} {c : ℕ} (h : c < u.length) :
    sextet (padded u) c = (values u).getD c 0 := by
  rw [sextet_eq,values,padded,List.map_append,List.getD_append _ _ _ _ (by simpa using h)]
  rfl

theorem decodeTail_padded (u : JsString) :
    decodeTail (padded u) (4*(u.length/4)) ((4-u.length % 4) % 4) =
      bits ((values u).drop (4*(u.length/4))) := by
  have hv : (values u).length = u.length := List.length_map _
  have hmod : u.length % 4 < 4 := Nat.mod_lt _ (by decide)
  obtain h0 | h1 | h2 | h3 : u.length % 4 = 0 ∨ u.length % 4 = 1 ∨ u.length % 4 = 2 ∨
      u.length % 4 = 3 := by omega
  · rw [List.drop_eq_nil_of_le (by omega),h0]
    rfl
  · rw [List.drop_eq_getElem_cons (by omega),List.drop_eq_nil_of_le (by omega),h1]
    rfl
  · rw [List.drop_eq_getElem_cons (by omega),List.drop_eq_getElem_cons (by omega),
      List.drop_eq_nil_of_le (by omega),h2,decodeTail_two,sextet_padded (by omega),
      sextet_padded (by omega),List.getD_eq_getElem _ _ (by omega),
      List.getD_eq_getElem _ _ (by omega)]
  · rw [List.drop_eq_getElem_cons (by omega),List.drop_eq_getElem_cons (by omega),
      List.drop_eq_getElem_cons (by omega),List.drop_eq_nil_of_le (by omega),h3,decodeTail_one,
      sextet_padded (by omega),sextet_padded (by omega),sextet_padded (by omega),
      List.getD_eq_getElem _ _ (by omega),List.getD_eq_getElem _ _ (by omega),
      List.getD_eq_getElem _ _ (by omega)]

/-- A string of digits that is padded right is read without error, and the array it is read into
is as long as what was read. -/
theorem toByteArray_padded {u : JsString} (h : ∀ c ∈ u, c ≠ 61) :
    toByteArray (padded u) = .ok (bits (values u)) := by
  have hv : (values u).length = u.length := List.length_map _
  have hlength : (padded u).length = u.length+(4-u.length % 4) % 4 := by simp [padded]
  have hgroups : ((if (4-u.length % 4) % 4 > 0 then u.length-4 else u.length)+3)/4 =
      u.length/4 := by
    split <;> omega
  have htake : (values (padded u)).take (4*(u.length/4)) =
      (values u).take (4*(u.length/4)) := by
    rw [values,padded,List.map_append,
      List.take_append_of_le_length (by rw [List.length_map]; omega)]
    rfl
  have hout : ((List.range (u.length/4)).flatMap fun k => group (padded u) (4*k))++
      decodeTail (padded u) (4*(u.length/4)) ((4-u.length % 4) % 4) = bits (values u) := by
    rw [groups_eq (by omega),htake,decodeTail_padded,← bits_append,List.take_append_drop]
    rw [List.length_take]
    omega
  have hsize : (u.length+(4-u.length % 4) % 4)*3/4-(4-u.length % 4) % 4 =
      (bits (values u)).length := by
    rw [length_bits,hv]
    omega
  rw [toByteArray,if_neg (by omega),lens_padded h]
  simp only [hgroups,hout,hsize]
  rw [if_neg (by omega),List.take_length,Nat.sub_self,List.replicate_zero,List.append_nil]

theorem filterMap_lookup (t : JsString) :
    t.filterMap lookup = values (t.filter fun c => (lookup c).isSome) := by
  induction t with
  | nil => rfl
  | cons c t ih =>
    cases hc : lookup c with
    | none =>
      rw [List.filterMap_cons_none hc,List.filter_cons_of_neg (by simp [hc]),ih]
    | some n =>
      rw [List.filterMap_cons_some hc,List.filter_cons_of_pos (by simp [hc]),ih,values,values,
        List.map_cons,hc,Option.getD_some]

theorem fromBase64_eq (s : JsString) : fromBase64 s = .ok (bits (sextets s)) := by
  have hvalues : sextets s =
      values ((s.takeWhile (· ≠ 61)).filter fun c => (lookup c).isSome) := filterMap_lookup _
  have hdigits : ∀ c ∈ (s.takeWhile (· ≠ 61)).filter fun c => (lookup c).isSome, c ≠ 61 := by
    intro c hc
    obtain ⟨n,hn⟩ := Option.isSome_iff_exists.mp (List.mem_filter.mp hc).2
    exact lookup_ne hn
  rw [fromBase64,base64clean,hvalues]
  revert hdigits
  generalize (s.takeWhile (· ≠ 61)).filter (fun c => (lookup c).isSome) = u
  intro hdigits
  split
  next hshort =>
    have hv : (values u).length = u.length := List.length_map _
    have hnil : bits (values u) = [] := by
      rw [← List.length_eq_zero_iff,length_bits]
      omega
    rw [hnil]
    rfl
  next => exact toByteArray_padded hdigits

theorem lookup_digit : ∀ n < 64, lookup (digit n) = some n := by
  decide +kernel

theorem sextets_base64 (b : Bytes) : sextets (base64 b) = (digits b).filterMap lookup := by
  rw [sextets,base64,takeWhile_digits fun u hu => (Base64.digits_plain b u hu).1]

theorem filterMap_digit {n : ℕ} (h : n < 64) (s : JsString) :
    (digit n::s).filterMap lookup = n::s.filterMap lookup :=
  List.filterMap_cons_some (lookup_digit n h)

theorem toUInt8_eq {n : ℕ} {b : UInt8} (h : n = b.toNat) : n.toUInt8 = b := by
  rw [h]
  exact UInt8.ofNat_toNat

theorem bits_sextets (b : Bytes) : bits (sextets (base64 b)) = b := by
  rw [sextets_base64]
  induction b using Base64.digits.induct with
  | case1 => rfl
  | case2 a =>
    have ha := a.toNat_lt
    rw [digits,filterMap_digit (by omega),filterMap_digit (by omega),List.filterMap_nil,bits,
      @toUInt8_eq _ a (by omega)]
  | case3 a b =>
    have ha := a.toNat_lt
    have hb := b.toNat_lt
    rw [digits,filterMap_digit (by omega),filterMap_digit (by omega),filterMap_digit (by omega),
      List.filterMap_nil,bits,@toUInt8_eq _ a (by omega),@toUInt8_eq _ b (by omega)]
  | case4 a b c rest ih =>
    have ha := a.toNat_lt
    have hb := b.toNat_lt
    have hc := c.toNat_lt
    rw [digits,filterMap_digit (by omega),filterMap_digit (by omega),filterMap_digit (by omega),
      filterMap_digit (by omega),bits,@toUInt8_eq _ a (by omega),@toUInt8_eq _ b (by omega),
      @toUInt8_eq _ c (by omega),ih]

theorem lookup_eq {c : ℕ} (hminus : c ≠ 45) (hunder : c ≠ 95) :
    lookup c = CryptoJs.lookup c := by
  rw [lookup,if_neg hminus,if_neg hunder]

theorem base64Loop_digits {s : JsString} (hs : ∀ c ∈ s, c ≠ 45 ∧ c ≠ 95) (val valb : ℤ) :
    CryptoJs.base64Loop val valb s = CryptoJs.base64Loop val valb ((sextets s).map digit) := by
  induction s generalizing val valb with
  | nil => rfl
  | cons c s ih =>
    obtain ⟨⟨hminus,hunder⟩,hs⟩ := List.forall_mem_cons.mp hs
    by_cases hc : c = 61
    · rw [sextets,List.takeWhile_cons_of_neg (by simp [hc]),CryptoJs.base64Loop,if_pos hc]
      rfl
    have htake : (c::s).takeWhile (· ≠ 61) = c::s.takeWhile (· ≠ 61) :=
      List.takeWhile_cons_of_pos (by simp [hc])
    rw [sextets,htake,CryptoJs.base64Loop,if_neg hc]
    cases hlookup : lookup c with
    | none =>
      rw [List.filterMap_cons_none hlookup,← lookup_eq hminus hunder,hlookup]
      exact ih hs val valb
    | some n =>
      obtain ⟨hdigit,hpad⟩ := CryptoJs.lookup_digit n (lookup_lt hlookup)
      rw [List.filterMap_cons_some hlookup,← lookup_eq hminus hunder,hlookup,List.map_cons,
        CryptoJs.base64Loop,if_neg hpad,hdigit]
      simp only [ih hs]
      rfl

theorem toNat_toUInt8 {n : ℕ} (h : n < 256) : n.toUInt8.toNat = n := by
  rw [Nat.toUInt8_eq,UInt8.toNat_ofNat']
  exact Nat.mod_eq_of_lt h

theorem base64Loop_bits {v : List ℕ} (hv : ∀ x ∈ v, x < 64) (val : ℤ) :
    CryptoJs.base64Loop val (-8) (v.map digit) = bits v := by
  induction v using bits.induct generalizing val with
  | case1 => rfl
  | case2 a =>
    obtain ⟨k,hk⟩ := CryptoJs.base64Loop_wait val (-8) (hv a (by simp)) (by decide) []
    exact hk
  | case3 a b =>
    have ha := hv a (by simp)
    have hb := hv b (by simp)
    obtain ⟨k,hk⟩ := CryptoJs.base64Loop_two a b ha hb val [] (toNat_toUInt8 (by omega))
    exact hk
  | case4 a b c =>
    have ha := hv a (by simp)
    have hb := hv b (by simp)
    have hc := hv c (by simp)
    obtain ⟨k,hk⟩ := CryptoJs.base64Loop_two a b ha hb val [digit c] (toNat_toUInt8 (by omega))
    obtain ⟨l,hl⟩ := CryptoJs.base64Loop_three c hc (64*val+a) k b []
      (toNat_toUInt8 (by omega))
    rw [List.map_cons,List.map_cons,List.map_singleton,hk,hl]
    rfl
  | case5 a b c d vs ih =>
    have ha := hv a (by simp)
    have hb := hv b (by simp)
    have hc := hv c (by simp)
    have hd := hv d (by simp)
    obtain ⟨k,hk⟩ := CryptoJs.base64Loop_two a b ha hb val (digit c::digit d::vs.map digit)
      (toNat_toUInt8 (by omega))
    obtain ⟨l,hl⟩ := CryptoJs.base64Loop_three c hc (64*val+a) k b (digit d::vs.map digit)
      (toNat_toUInt8 (by omega))
    obtain ⟨val',hval'⟩ := CryptoJs.base64Loop_four d hd b c l (vs.map digit)
      (toNat_toUInt8 (by omega))
    rw [List.map_cons,List.map_cons,List.map_cons,List.map_cons,hk,hl,hval',
      ih fun x hx => hv x (by simp [hx])]
    rfl

theorem base64ToBytes_eq {s : JsString} (hs : ∀ c ∈ s, c ≠ 45 ∧ c ≠ 95) :
    CryptoJs.base64ToBytes s = bits (sextets s) := by
  have hlt : ∀ x ∈ sextets s, x < 64 := by
    intro x hx
    obtain ⟨c,_,hc⟩ := List.mem_filterMap.mp hx
    exact lookup_lt hc
  rw [CryptoJs.base64ToBytes,base64Loop_digits hs,base64Loop_bits hlt]

/-- `Buffer` and base64: every buffer is encoded the standard way, whatever its length. Every
string is decoded without error, to the whole bytes of the digits in front of its padding, so that
what stands between them, the alphabet and missing padding do not matter; and where the URL
alphabet is not used crypto.js reads the same. -/
theorem buffer_base64_spec :
    (∀ b : Bytes, fromByteArray b = base64 b) ∧
      (∀ s : JsString, fromBase64 s = .ok (bits (sextets s))) ∧
      (∀ (b : Bytes) (s : JsString), sextets s = sextets (base64 b) → fromBase64 s = .ok b) ∧
      ∀ s : JsString, (∀ c ∈ s, c ≠ 45 ∧ c ≠ 95) →
        fromBase64 s = .ok (CryptoJs.base64ToBytes s) :=
  ⟨fromByteArray_eq,fromBase64_eq,fun b s h => by rw [fromBase64_eq,h,bits_sextets],
    fun s hs => by rw [fromBase64_eq,base64ToBytes_eq hs]⟩

/-- Four bits are missing, and the alphabet is that of URLs. -/
theorem buffer_base64_spec_sample : fromBase64 (js "-_8") = .ok [251,255] :=
  buffer_base64_spec.2.2.1 [251,255] (js "-_8") (by decide +kernel)

end BufferBase64
end AsioQuickjs
