import AsioQuickjs.BufferText

/-! `Buffer.from`, `write` and `toString` of buffer.js: strings and bytes in each of its
encodings. -/
namespace AsioQuickjs
namespace Buffers

open BodyBytes (units)
open BufferBase64 (Thrown fromByteArray fromBase64)
open BufferText
open CryptoJs (toInt32)

inductive Encoding
  | hex
  | utf8
  | ascii
  | latin1
  | base64
  | utf16le
  deriving DecidableEq

def encodings : List (JsString × Encoding) :=
  [(js "hex",.hex),(js "utf8",.utf8),(js "utf-8",.utf8),(js "ascii",.ascii),
    (js "latin1",.latin1),(js "binary",.latin1),(js "base64",.base64),(js "ucs2",.utf16le),
    (js "ucs-2",.utf16le),(js "utf16le",.utf16le),(js "utf-16le",.utf16le)]

/-- The case of a `switch` over the lower case name. -/
def encodingOf (name : JsString) : Option Encoding :=
  (encodings.find? fun p => p.1 = Headers.toLowerCase name).map Prod.snd

def nameOf : Option JsString → JsString
  | none => js "utf8"
  | some name => if name = [] then js "utf8" else name

def unknown {α : Type} (name : JsString) : Except Thrown α :=
  .error (.typeError (js "Unknown encoding: "++name))

/-- The loop of `N`: the bytes of `i` into `r` from `t` on, `n` at most. -/
def blit (i r : Bytes) (t : ℕ) : ℕ → ℕ → Bytes × ℕ
  | 0, e => (r,e)
  | n+1, e =>
    if e+t ≥ r.length ∨ e ≥ i.length then (r,e) else blit i (r.set (e+t) (i.getD e 0)) t n (e+1)

/-- The loop of `Dr`. -/
def hexWrite (r : JsString) (i : Bytes) (t : ℕ) : ℕ → ℕ → Bytes × ℕ
  | 0, u => (i,u)
  | n+1, u =>
    match parseInt ((r.drop (2*u)).take 2) with
    | none => (i,u)
    | some f => hexWrite r (i.set (t+u) (f % 256).toNat.toUInt8) t n (u+1)

/-- `Dr`, `br`, `$r`, `Pr` and `Or`: into `n` bytes from `t` on. -/
def writeAt (b : Bytes) (s : JsString) (t n : ℕ) : Encoding → Except Thrown (Bytes × ℕ)
  | .hex =>
    let e := b.length-t
    -- a length of zero counts as none
    let n := if n = 0 then e else min n e
    .ok (hexWrite s b t (if 2*n > s.length then (s.length+1)/2 else n) 0)
  | .utf8 => (utf8ToBytes s (some (b.length-t))).map fun i => blit i b t n 0
  | .ascii | .latin1 => .ok (blit (asciiToBytes s) b t n 0)
  | .base64 => (fromBase64 s).map fun i => blit i b t n 0
  | .utf16le => .ok (blit (utf16leToBytes s (b.length-t : ℕ)) b t n 0)

/-- What a script gives behind the string. Numbers are cut to integers. -/
inductive Arg
  | undefined
  | number (z : ℤ)
  | notANumber
  | infinity (negative : Bool)
  | string (s : JsString)

/-- What `isFinite` and `>>>` take an argument for. -/
def Arg.finite (toNumber : JsString → Option ℤ) : Arg → Option ℤ
  | .number z => some z
  | .string s => toNumber s
  | _ => none

/-- An argument that is no finite number, as the name of an encoding. -/
def Arg.name : Arg → Option JsString
  | .string s => some s
  | .infinity negative => some (js (if negative then "-Infinity" else "Infinity"))
  | _ => none

/-- What they come to: an encoding alone, or an offset with a length and an encoding. -/
inductive WriteArgs
  | none
  | encoding (e : JsString)
  | offset (t : ℤ) (n : Option ℤ) (e : Option JsString)

/-- What `write` makes of its arguments. Where a length is not finite it is the encoding, and the
last argument is not looked at. -/
def writeArgs (toNumber : JsString → Option ℤ) (t n : Arg) (e : Option JsString) :
    Except Thrown WriteArgs :=
  match t,n with
  | .undefined,_ => .ok .none
  | .string s,.undefined => .ok (.encoding s)
  | t,n =>
    match t.finite toNumber,n.finite toNumber with
    | some t,some n => .ok (.offset t (some n) e)
    | some t,none => .ok (.offset t none n.name)
    | none,_ => .error (.error
      (js "Buffer.write(string, encoding, offset[, length]) is no longer supported"))

/-- `>>>0` -/
def toUint32 (z : ℤ) : ℕ := (z % 2^32).toNat

def WriteArgs.start : WriteArgs → ℕ
  | .offset t _ _ => toUint32 t
  | _ => 0

def WriteArgs.length : WriteArgs → Option ℕ
  | .offset _ n _ => n.map toUint32
  | _ => Option.none

def WriteArgs.name : WriteArgs → JsString
  | .none => js "utf8"
  | .encoding e => nameOf (some e)
  | .offset _ _ e => nameOf e

def WriteArgs.room (b : Bytes) (args : WriteArgs) : ℕ :=
  match args.length with
  | some n => min n (b.length-args.start)
  | Option.none => b.length-args.start

/-- The rest of `Buffer.write`: the bytes then, and how many are new. -/
def write (b : Bytes) (s : JsString) (args : WriteArgs) : Except Thrown (Bytes × ℕ) :=
  if args.start > b.length then
    .error (.rangeError (js "Attempt to write outside buffer bounds"))
  else
    match encodingOf args.name with
    | none => unknown (Headers.toLowerCase args.name)
    | some enc => writeAt b s args.start (args.room b) enc

/-- `Buffer.write`, with the numbers that the engine reads in strings. -/
def bufferWrite (toNumber : JsString → Option ℤ) (b : Bytes) (s : JsString) (t n : Arg)
    (e : Option JsString) : Except Thrown (Bytes × ℕ) :=
  (writeArgs toNumber t n e).bind (write b s)

def kMaxLength : ℤ := 2147483647

/-- `d`. The second error is that of the engine. -/
def createBuffer (i : ℤ) : Except Thrown Bytes :=
  if i > kMaxLength then
    .error (.rangeError
      (js "The value \""++js (toString i)++js "\" is invalid for option \"size\""))
  else if i < 0 then .error (.rangeError (js "invalid array length"))
  else .ok (List.replicate i.toNat 0)

/-- `tr` -/
def byteLength (s : JsString) (enc : Encoding) : Except Thrown ℕ :=
  if s.length = 0 then .ok 0
  else
    match enc with
    | .ascii | .latin1 => .ok s.length
    | .utf8 => (utf8ToBytes s none).map List.length
    | .utf16le => .ok (s.length*2)
    | .hex => .ok (s.length >>> 1)
    | .base64 => (fromBase64 s).map List.length

/-- `Buffer.from` of a string. -/
def fromString (s : JsString) (encoding : Option JsString) : Except Thrown Bytes :=
  match encodingOf (nameOf encoding) with
  | none => unknown (nameOf encoding)
  | some enc =>
    (byteLength s enc).bind fun t =>
      (createBuffer (toInt32 t)).bind fun n =>
        (write n s (.encoding (nameOf encoding))).map fun w =>
          if (w.2 : ℤ) ≠ toInt32 t then w.1.take w.2 else w.1

/-- `Gr` -/
def base64Slice (i : Bytes) (r t : ℕ) : JsString :=
  if r = 0 ∧ t = i.length then fromByteArray i else fromByteArray ((i.take t).drop r)

def sliceText (b : Bytes) (r t : ℕ) : Encoding → JsString
  | .hex => hexSlice b r t
  | .utf8 => utf8Slice b r t
  | .ascii => asciiSlice b r t
  | .latin1 => latin1Slice b r t
  | .base64 => base64Slice b r t
  | .utf16le => utf16leSlice b r t

/-- `kr`: the bytes from `start` up to `stop`. -/
def toText (b : Bytes) (encoding : Option JsString) (start stop : Option ℤ) :
    Except Thrown JsString :=
  let r := max (start.getD 0) 0
  let t := min (stop.getD b.length) b.length
  if r > b.length ∨ t ≤ 0 ∨ t ≤ r then .ok []
  else
    match encodingOf (nameOf encoding) with
    | none => unknown (Headers.toLowerCase (nameOf encoding))
    | some enc => .ok (sliceText b r.toNat t.toNat enc)

/-- `Buffer.toString` with an encoding. -/
def toStringWith (b : Bytes) (encoding : Option JsString) (start stop : Option ℤ) :
    Except Thrown JsString :=
  if b.length = 0 then .ok [] else toText b encoding start stop

def bytesOf (s : JsString) : Encoding → Bytes
  | .hex => (hexBytes s).take (s.length/2)
  | .utf8 => Utf8.encode (text (heard s))
  | .ascii | .latin1 => asciiToBytes s
  | .base64 => BufferBase64.bits (BufferBase64.sextets s)
  | .utf16le => s.flatMap fun t => [(t % 256).toUInt8,(t >>> 8).toUInt8]

def textOf (b : Bytes) : Encoding → JsString
  | .hex => hexText b
  | .utf8 => utf8Slice b 0 b.length
  | .ascii => b.map fun x => x.toNat &&& 127
  | .latin1 => b.map UInt8.toNat
  | .base64 => Base64.base64 b
  | .utf16le => pairs b

/-- What an encoding can hold of all bytes. -/
def Exact (b : Bytes) : Encoding → Prop
  | .hex | .latin1 | .base64 => True
  | .utf8 => ∃ cs, b = Utf8.encode cs
  | .ascii => ∀ x ∈ b, x.toNat < 128
  | .utf16le => b.length % 2 = 0

/-- What an encoding can hold of all strings. -/
def Plain (s : JsString) : Encoding → Prop
  | .hex => ∃ b, s = hexText b
  | .utf8 => ∃ cs, s = units cs
  | .ascii => ∀ u ∈ s, u < 128
  | .latin1 => ∀ u ∈ s, u < 256
  | .base64 => ∃ b, s = Base64.base64 b
  | .utf16le => True

theorem sliceText_eq {b : Bytes} {r t : ℕ} (hr : r < t) (ht : t ≤ b.length) (enc : Encoding) :
    sliceText b r t enc = textOf ((b.take t).drop r) enc := by
  have hlength : ((b.take t).drop r).length = t-r := by
    rw [List.length_drop,List.length_take,Nat.min_eq_left ht]
  have hmin : min b.length t = t := Nat.min_eq_right ht
  cases enc with
  | hex =>
    rw [sliceText,hexSlice,if_neg (by omega)]
    rfl
  | utf8 => rw [sliceText,textOf,hlength,utf8Slice_slice ht]
  | ascii => rw [sliceText,asciiSlice,hmin,textOf]
  | latin1 => rw [sliceText,latin1Slice,hmin,textOf]
  | base64 =>
    rw [sliceText,base64Slice,textOf,← BufferBase64.fromByteArray_eq]
    split
    · next h => rw [h.1,h.2,List.take_length,List.drop_zero]
    · rfl
  | utf16le => rw [sliceText,utf16leSlice,hmin,textOf]

theorem textOf_nil (enc : Encoding) : textOf [] enc = [] := by
  cases enc with
  | utf8 => exact utf8Slice_encode []
  | _ => rfl

theorem toStringWith_eq {encoding : Option JsString} {enc : Encoding}
    (h : encodingOf (nameOf encoding) = some enc) (b : Bytes) (start stop : Option ℤ) :
    toStringWith b encoding start stop =
      .ok (textOf ((b.take (stop.getD b.length).toNat).drop (start.getD 0).toNat) enc) := by
  have hstart : (max (start.getD 0) 0).toNat = (start.getD 0).toNat := by omega
  have hstop : b.take (min (stop.getD b.length) b.length).toNat =
      b.take (stop.getD b.length).toNat := by
    rcases Int.le_total (stop.getD b.length) b.length with hle | hle
    · rw [Int.min_eq_left hle]
    · rw [Int.min_eq_right hle,Int.toNat_natCast,List.take_length,List.take_of_length_le (by omega)]
  rw [← hstart,← hstop,toStringWith]
  split
  next hempty =>
    rw [List.length_eq_zero_iff.mp hempty,List.take_nil,List.drop_nil,textOf_nil]
  next =>
    rw [toText]
    simp only [h]
    split
    next hnone =>
      rw [List.drop_eq_nil_of_le (by rw [List.length_take]; omega),textOf_nil]
    next hsome => rw [sliceText_eq (by omega) (by omega)]

/-- The bytes with some others in their place from `t` on. -/
def placed (b : Bytes) (t : ℕ) (bs : Bytes) : Bytes := b.take t++bs++b.drop (t+bs.length)

theorem placed_nil (b : Bytes) (t : ℕ) : placed b t [] = b := by
  rw [placed,List.append_nil]
  exact List.take_append_drop t b

theorem placed_set {b : Bytes} {t : ℕ} (h : t < b.length) (x : UInt8) (bs : Bytes) :
    placed (b.set t x) (t+1) bs = placed b t (x::bs) := by
  have htake : (b.set t x).take (t+1) = b.take t++[x] := by
    rw [List.take_succ_eq_append_getElem (by rw [List.length_set]; exact h),
      List.take_set_of_le (le_refl _),List.getElem_set_self]
  have hdrop : (b.set t x).drop (t+1+bs.length) = b.drop (t+(x::bs).length) := by
    rw [List.drop_set_of_lt (by omega),List.length_cons]
    congr 1
    omega
  rw [placed,placed,htake,hdrop,List.append_assoc (b.take t)]
  rfl

theorem blit_eq (i b : Bytes) (t n e : ℕ) :
    blit i b t n e =
      (placed b (e+t) (((i.drop e).take n).take (b.length-(e+t))),
        e+(((i.drop e).take n).take (b.length-(e+t))).length) := by
  induction n generalizing b e with
  | zero => simp [blit,placed_nil]
  | succ n ih =>
    rw [blit]
    by_cases hroom : e+t ≥ b.length
    · have hnone : b.length-(e+t) = 0 := by omega
      rw [if_pos (.inl hroom),hnone,List.take_zero,placed_nil]
      rfl
    by_cases hmore : e ≥ i.length
    · rw [if_pos (.inr hmore),List.drop_eq_nil_of_le hmore,List.take_nil,List.take_nil,placed_nil]
      rfl
    have hfirst : i.getD e 0 = i[e] := List.getD_eq_getElem _ _ (by omega)
    have hleft : b.length-(e+t) = b.length-(e+1+t)+1 := by omega
    have hnext : e+t+1 = e+1+t := by omega
    have hplaced := @placed_set b (e+t) (by omega) i[e]
      (((i.drop (e+1)).take n).take (b.length-(e+1+t)))
    have hdrop : i.drop e = i[e]::i.drop (e+1) := List.drop_eq_getElem_cons (by omega)
    rw [hnext] at hplaced
    rw [if_neg (by omega),ih,List.length_set,hfirst,hdrop,hleft,List.take_succ_cons,
      List.take_succ_cons,← hplaced,List.length_cons]
    congr 1
    omega

theorem length_hexBytes (s : JsString) : (hexBytes s).length ≤ (s.length+1)/2 := by
  induction s using hexBytes.induct with
  | case1 => simp [hexBytes]
  | case2 a h => simp [hexBytes,h]
  | case3 a f h => simp [hexBytes,h]
  | case4 a b us h => simp [hexBytes,h]
  | case5 a b us f h ih =>
    rw [hexBytes,h]
    simp only [List.length_cons] at *
    omega

theorem hexWrite_eq {b : Bytes} {t n u : ℕ} (h : t+u+n ≤ b.length) (s : JsString) :
    hexWrite s b t n u =
      (placed b (t+u) ((hexBytes (s.drop (2*u))).take n),
        u+((hexBytes (s.drop (2*u))).take n).length) := by
  induction n generalizing b u with
  | zero => simp [hexWrite,placed_nil]
  | succ n ih =>
    have hnone : parseInt [] = none := by decide
    have hdouble : s.drop (2*(u+1)) = (s.drop (2*u)).drop 2 := by
      rw [List.drop_drop]
      rfl
    have hnext : t+u+1 = t+(u+1) := rfl
    rw [hexWrite]
    rcases hs : s.drop (2*u) with _ | ⟨x,_ | ⟨y,us⟩⟩
    · simp [hexBytes,hnone,placed_nil]
    · have hrest : s.drop (2*(u+1)) = [] := by rw [hdouble,hs]; rfl
      have htake : ([x] : JsString).take 2 = [x] := rfl
      rw [htake,hexBytes]
      cases hf : parseInt [x] with
      | none => simp [placed_nil]
      | some f =>
        simp only
        rw [ih (by rw [List.length_set]; omega),hrest,hexBytes,List.take_nil,← hnext,
          placed_set (by omega),List.take_succ_cons,List.take_nil]
        rfl
    · have hrest : s.drop (2*(u+1)) = us := by rw [hdouble,hs]; rfl
      have htake : (x::y::us).take 2 = [x,y] := rfl
      rw [htake,hexBytes]
      cases hf : parseInt [x,y] with
      | none => simp [placed_nil]
      | some f =>
        simp only
        rw [ih (by rw [List.length_set]; omega),hrest,← hnext,placed_set (by omega),
          List.take_succ_cons,List.length_cons]
        congr 1
        omega

def encoded (s : JsString) (room : ℕ) : Encoding → Bytes
  | .hex => hexBytes s
  | .utf8 =>
    (fitting (if room = 0 then none else some (room : ℤ)) (charBytes (text (heard s)))).flatten
  | .ascii | .latin1 => asciiToBytes s
  | .base64 => BufferBase64.bits (BufferBase64.sextets s)
  | .utf16le => utf16leToBytes s room

theorem utf8ToBytes_some {s : JsString} (hs : ∀ u ∈ s, u < 2^16) (room : ℕ) :
    utf8ToBytes s (some room) = .ok (encoded s room .utf8) := by
  rw [utf8ToBytes_eq hs,encoded]
  by_cases h : room = 0 <;> simp [h]

theorem blit_zero {b : Bytes} {t n : ℕ} (hn : n ≤ b.length-t) (i : Bytes) :
    blit i b t n 0 = (placed b t (i.take n),(i.take n).length) := by
  have htake : (i.take n).take (b.length-t) = i.take n :=
    List.take_of_length_le (by rw [List.length_take]; omega)
  rw [blit_eq,Nat.zero_add,Nat.zero_add,List.drop_zero,htake]

/-- A window of `n` bytes from `t` on. For hexadecimal no bytes are all there are. -/
def windowOf (enc : Encoding) (n left : ℕ) : ℕ := if enc = .hex ∧ n = 0 then left else n

theorem writeAt_eq {b : Bytes} {s : JsString} {t n : ℕ} (hs : ∀ u ∈ s, u < 2^16)
    (ht : t ≤ b.length) (hn : n ≤ b.length-t) (enc : Encoding) :
    writeAt b s t n enc =
      .ok (placed b t ((encoded s (b.length-t) enc).take (windowOf enc n (b.length-t))),
        ((encoded s (b.length-t) enc).take (windowOf enc n (b.length-t))).length) := by
  cases enc with
  | hex =>
    have hwindow : (if n = 0 then b.length-t else min n (b.length-t)) =
        windowOf .hex n (b.length-t) := by
      rw [windowOf]
      by_cases h : n = 0
      · rw [if_pos h,if_pos ⟨rfl,h⟩]
      · rw [if_neg h,if_neg (fun hc => h hc.2),Nat.min_eq_left hn]
    have hle : windowOf .hex n (b.length-t) ≤ b.length-t := by
      rw [windowOf]
      split <;> omega
    simp only [writeAt,hwindow]
    generalize windowOf .hex n (b.length-t) = m at hle ⊢
    have hlength := length_hexBytes s
    have htake : (hexBytes s).take (if 2*m > s.length then (s.length+1)/2 else m) =
        (hexBytes s).take m := by
      split
      · rw [List.take_of_length_le hlength,List.take_of_length_le (by omega)]
      · rfl
    rw [hexWrite_eq (by split <;> omega),Nat.mul_zero,List.drop_zero,htake,Nat.add_zero,
      Nat.zero_add]
    rfl
  | utf8 =>
    rw [writeAt,utf8ToBytes_some hs,Except.map,blit_zero hn]
    rfl
  | ascii =>
    rw [writeAt,blit_zero hn]
    rfl
  | latin1 =>
    rw [writeAt,blit_zero hn]
    rfl
  | base64 =>
    rw [writeAt,BufferBase64.fromBase64_eq,Except.map,blit_zero hn]
    rfl
  | utf16le =>
    rw [writeAt,blit_zero hn]
    rfl

/-- The bytes that `write` puts in. -/
def written (b : Bytes) (s : JsString) (args : WriteArgs) (enc : Encoding) : Bytes :=
  (encoded s (b.length-args.start) enc).take
    (windowOf enc (args.room b) (b.length-args.start))

theorem room_le (b : Bytes) (args : WriteArgs) : args.room b ≤ b.length-args.start := by
  rw [WriteArgs.room]
  split
  · exact Nat.min_le_right _ _
  · exact Nat.le_refl _

theorem write_eq {b : Bytes} {s : JsString} (hs : ∀ u ∈ s, u < 2^16) {args : WriteArgs}
    (ht : args.start ≤ b.length) {enc : Encoding} (henc : encodingOf args.name = some enc) :
    write b s args =
      .ok (placed b args.start (written b s args enc),(written b s args enc).length) := by
  rw [write,if_neg (by omega),henc]
  exact writeAt_eq hs ht (room_le b args) enc

theorem length_written (b : Bytes) (s : JsString) (args : WriteArgs) (enc : Encoding) :
    (written b s args enc).length ≤ b.length-args.start := by
  have hroom := room_le b args
  rw [written,List.length_take,windowOf]
  split <;> omega

/-- All bytes of a string. An odd digit at the end counts as a byte. -/
def whole (s : JsString) : Encoding → Bytes
  | .hex => hexBytes s
  | enc => bytesOf s enc

theorem fitting_take (r : Option ℤ) (l : List Bytes) : ∃ n, fitting r l = l.take n := by
  induction l generalizing r with
  | nil => exact ⟨0,rfl⟩
  | cons b l ih =>
    rw [fitting]
    split
    · obtain ⟨n,hn⟩ := ih (spend r b.length)
      exact ⟨n+1,by rw [hn,List.take_succ_cons]⟩
    · exact ⟨0,rfl⟩

theorem length_fitting {r : ℤ} (hr : 0 ≤ r) (l : List Bytes) :
    ((fitting (some r) l).flatten.length : ℤ) ≤ r := by
  induction l generalizing r with
  | nil => simpa [fitting] using hr
  | cons b l ih =>
    rw [fitting]
    split
    · next hroom =>
      simp only [hasRoom,spend,Option.map_some,decide_eq_true_eq] at hroom
      have hrest : ((fitting (some (r-b.length)) l).flatten.length : ℤ) ≤ r-b.length := ih hroom
      have hspend : spend (some r) b.length = some (r-b.length) := rfl
      rw [hspend,List.flatten_cons,List.length_append]
      omega
    · simpa using hr

theorem utf16leToBytes_part (s : JsString) (r : ℤ) :
    utf16leToBytes s r <+: s.flatMap fun t => [(t % 256).toUInt8,(t >>> 8).toUInt8] := by
  induction s generalizing r with
  | nil => exact List.prefix_refl _
  | cons t s ih =>
    rw [utf16leToBytes]
    split
    · exact List.nil_prefix
    · obtain ⟨l,hl⟩ := ih (r-2)
      exact ⟨l,by rw [List.flatMap_cons,← hl]; rfl⟩

theorem encoded_part (s : JsString) (room : ℕ) (enc : Encoding) :
    encoded s room enc <+: whole s enc := by
  cases enc with
  | utf8 =>
    obtain ⟨n,hn⟩ := fitting_take (if room = 0 then none else some (room : ℤ))
      (charBytes (text (heard s)))
    refine ⟨((charBytes (text (heard s))).drop n).flatten,?_⟩
    rw [encoded,hn,← List.flatten_append,List.take_append_drop]
    rfl
  | utf16le => exact utf16leToBytes_part s room
  | _ => exact List.prefix_refl _

theorem written_chars {b : Bytes} {args : WriteArgs} (h : args.length = none) (s : JsString) :
    ∃ n, written b s args .utf8 = Utf8.encode ((text (heard s)).take n) := by
  have hroom : args.room b = b.length-args.start := by rw [WriteArgs.room,h]
  have hwindow : windowOf .utf8 (args.room b) (b.length-args.start) = b.length-args.start := by
    rw [windowOf,if_neg (by simp),hroom]
  rw [written,hwindow]
  generalize b.length-args.start = left
  by_cases hleft : left = 0
  · exact ⟨0,by rw [hleft]; rfl⟩
  · obtain ⟨n,hn⟩ := fitting_take (some (left : ℤ)) (charBytes (text (heard s)))
    have hfits := length_fitting (r := left) (by omega) (charBytes (text (heard s)))
    refine ⟨n,?_⟩
    rw [encoded,if_neg hleft,List.take_of_length_le (by omega),hn,charBytes,← List.map_take]
    rfl

/-- `write` is refused just where the place is behind the end or the encoding is none. -/
theorem write_accepts_iff {b : Bytes} {s : JsString} (hs : ∀ u ∈ s, u < 2^16) (args : WriteArgs) :
    (∃ w, write b s args = .ok w) ↔
      args.start ≤ b.length ∧ ∃ enc, encodingOf args.name = some enc := by
  constructor
  · rintro ⟨w,hw⟩
    rw [write] at hw
    split at hw
    · exact absurd hw (by simp)
    · next ht =>
      cases henc : encodingOf args.name with
      | none => exact absurd hw (by simp [henc,unknown])
      | some enc => exact ⟨by omega,enc,rfl⟩
  · rintro ⟨ht,enc,henc⟩
    exact ⟨_,write_eq hs ht henc⟩

theorem length_written_le {b : Bytes} {args : WriteArgs} {n : ℕ} (hn : args.length = some n)
    {enc : Encoding} (h : enc ≠ .hex ∨ 0 < args.room b) (s : JsString) :
    (written b s args enc).length ≤ n := by
  have hroom : args.room b ≤ n := by
    rw [WriteArgs.room,hn]
    exact Nat.min_le_left _ _
  have hwindow : windowOf enc (args.room b) (b.length-args.start) = args.room b := by
    rw [windowOf,if_neg]
    rintro ⟨hh,hz⟩
    obtain hne | hpos := h
    · exact hne hh
    · omega
  rw [written,hwindow,List.length_take]
  omega

/-- `Buffer.write` of any string with any arguments: it is refused just where they come to nothing
or to a place behind the end or to no encoding, and otherwise it puts a part of the bytes of the
string, from their first on, into the buffer where it was told to, and leaves everything else. A
length is kept to, but in hexadecimal one of zero counts as none. With no length given no
character of UTF-8 is cut. -/
theorem buffer_write_spec (toNumber : JsString → Option ℤ) {b : Bytes} {s : JsString}
    (hs : ∀ u ∈ s, u < 2^16) (t n : Arg) (e : Option JsString) :
    ((∃ w, bufferWrite toNumber b s t n e = .ok w) ↔
      ∃ args, writeArgs toNumber t n e = .ok args ∧ args.start ≤ b.length ∧
        ∃ enc, encodingOf args.name = some enc) ∧
    ∀ args b' k enc, writeArgs toNumber t n e = .ok args → encodingOf args.name = some enc →
      bufferWrite toNumber b s t n e = .ok (b',k) →
      ∃ bs, bs <+: whole s enc ∧ bs.length = k ∧ args.start+k ≤ b.length ∧
        b' = b.take args.start++bs++b.drop (args.start+k) ∧
        (∀ n, args.length = some n → enc ≠ .hex ∨ 0 < n → k ≤ n) ∧
        (args.length = none → enc = .utf8 → ∃ n, bs = Utf8.encode ((text (heard s)).take n)) := by
  refine ⟨?_,fun args b' k enc hargs henc h => ?_⟩
  · rw [bufferWrite]
    cases hargs : writeArgs toNumber t n e with
    | error e => simp [Except.bind]
    | ok args =>
      refine (write_accepts_iff hs args).trans ⟨fun h => ⟨args,rfl,h⟩,?_⟩
      rintro ⟨args',hsame,h⟩
      rwa [Except.ok.inj hsame]
  · rw [bufferWrite,hargs] at h
    have ht := ((write_accepts_iff hs args).mp ⟨_,h⟩).1
    have hleft := length_written b s args enc
    have hall := (write_eq hs ht henc).symm.trans h
    rw [Except.ok.injEq,Prod.mk.injEq] at hall
    obtain ⟨rfl,rfl⟩ := hall
    refine ⟨_,(List.take_prefix _ _).trans (encoded_part s _ enc),rfl,by omega,rfl,?_,?_⟩
    · intro n hn hhex
      rcases Nat.eq_zero_or_pos (b.length-args.start) with hzero | hpos
      · omega
      · refine length_written_le hn (hhex.imp_right fun hn0 => ?_) s
        rw [WriteArgs.room,hn]
        exact Nat.lt_min.mpr ⟨hn0,hpos⟩
    · rintro hnone rfl
      exact written_chars hnone s

/-- A character of four bytes does not fit behind one of two. -/
theorem buffer_write_spec_sample :
    bufferWrite (fun _ => none) [1,2,3,4] (units "é😀".toList) (.number 1) (.string (js "UTF8"))
        none = .ok ([1,0xC3,0xA9,4],2) ∧
      ∃ n, [0xC3,0xA9] = Utf8.encode ((text (heard (units "é😀".toList))).take n) := by
  have hwrite : bufferWrite (fun _ => none) [1,2,3,4] (units "é😀".toList) (.number 1)
      (.string (js "UTF8")) none = .ok ([1,0xC3,0xA9,4],2) := by decide +kernel
  obtain ⟨bs,-,hk,-,hb,-,hchars⟩ := (buffer_write_spec (fun _ => none) (b := [1,2,3,4])
    (s := units "é😀".toList) (by decide +kernel) (.number 1) (.string (js "UTF8")) none).2
    (.offset 1 none (some (js "UTF8"))) _ _ .utf8 rfl (by decide) hwrite
  obtain ⟨n,hn⟩ := hchars rfl rfl
  have hbs : [0xC3,0xA9] = bs := by
    have hwhole : ([1,0xC3,0xA9,4] : Bytes) = [1]++bs++[4] := hb
    have htail : ([0xC3,0xA9] : Bytes)++[4] = bs++[4] := by simpa using hwhole
    exact List.append_cancel_right htail
  exact ⟨hwrite,n,hbs.trans hn⟩

theorem heard_part (s : JsString) : heard s <+: s := by
  induction s using heard.induct with
  | case1 t v h => exact ⟨[v],by rw [heard,if_pos h]; rfl⟩
  | case2 t v h => rw [heard,if_neg h]
  | case3 t v w us ih =>
    obtain ⟨l,hl⟩ := ih
    exact ⟨l,by rw [heard,List.cons_append,hl]⟩
  | case4 us hthree htwo =>
    rw [heard]
    · exact hthree
    · exact htwo

theorem length_utf8EncodeChar (c : Char) : (String.utf8EncodeChar c).length ≤ 4 ∧
    (c.toNat < 0x10000 → (String.utf8EncodeChar c).length ≤ 3) := by
  rw [← TextEncoder.utf8_char,List.length_map]
  exact TextEncoder.utf8_length c.toNat

theorem charOf_lt {t : ℕ} (ht : t < 2^16) : (charOf t).toNat < 0x10000 := by
  cases hhigh : JsText.isHigh t with
  | true =>
    rw [charOf,hhigh,Bool.true_or,if_pos rfl]
    decide
  | false =>
    cases hlow : JsText.isLow t with
    | true =>
      rw [charOf,hlow,Bool.or_true,if_pos rfl]
      decide
    | false =>
      rw [charOf_toNat ht hhigh hlow]
      exact ht

theorem length_encode_text {s : JsString} (hs : ∀ u ∈ s, u < 2^16) :
    (Utf8.encode (text s)).length ≤ 3*s.length := by
  induction s using text.induct with
  | case1 => exact Nat.le_refl _
  | case2 t =>
    have ht := (length_utf8EncodeChar (charOf t)).2 (charOf_lt (hs t (by simp)))
    have hnil : (Utf8.encode []).length = 0 := rfl
    rw [text,Utf8.encode_cons,List.length_append,List.length_singleton]
    omega
  | case3 t v us h ih =>
    have hc := (length_utf8EncodeChar (Char.ofNat (0x10000+(t-0xD800)*0x400+(v-0xDC00)))).1
    have hrest := ih fun u hu => hs u (by simp [hu])
    rw [text,if_pos h,Utf8.encode_cons,List.length_append]
    simp only [List.length_cons]
    omega
  | case4 t v us h ih =>
    have ht := (length_utf8EncodeChar (charOf t)).2 (charOf_lt (hs t (by simp)))
    have hrest := ih fun u hu => hs u (by simp only [List.mem_cons] at hu ⊢; exact .inr hu)
    rw [text,if_neg h,Utf8.encode_cons,List.length_append]
    simp only [List.length_cons] at hrest ⊢
    omega

def size (s : JsString) : Encoding → ℕ
  | .hex => s.length/2
  | enc => (bytesOf s enc).length

theorem length_bytesOf_hex (s : JsString) : (bytesOf s .hex).length ≤ s.length/2 := by
  rw [bytesOf,List.length_take]
  exact Nat.min_le_left _ _

theorem length_flatMap_two (s : JsString) :
    (s.flatMap fun t => [(t % 256).toUInt8,(t >>> 8).toUInt8]).length = s.length*2 := by
  induction s with
  | nil => rfl
  | cons t s ih =>
    rw [List.flatMap_cons,List.length_append,ih,List.length_cons]
    simp only [List.length_cons,List.length_nil]
    omega

theorem size_nil (enc : Encoding) : size [] enc = 0 := by
  cases enc <;> rfl

theorem byteLength_eq {s : JsString} (hs : ∀ u ∈ s, u < 2^16) (enc : Encoding) :
    byteLength s enc = .ok (size s enc) := by
  unfold byteLength
  split
  next h => rw [List.length_eq_zero_iff.mp h,size_nil]
  next =>
    cases enc with
    | hex =>
      have hshift : s.length >>> 1 = s.length/2 := Nat.shiftRight_eq_div_pow _ 1
      simp only [hshift]
      rfl
    | utf8 =>
      simp only [utf8ToBytes_none hs]
      rfl
    | ascii => simp only [size,bytesOf,asciiToBytes,List.length_map]
    | latin1 => simp only [size,bytesOf,asciiToBytes,List.length_map]
    | base64 =>
      simp only [BufferBase64.fromBase64_eq]
      rfl
    | utf16le => simp only [size,bytesOf,length_flatMap_two]

example : byteLength [0x20AC] .utf8 = .ok 3 := by decide +kernel

theorem size_lt {s : JsString} (hs : ∀ u ∈ s, u < 2^16) (hlength : s.length < 2^30)
    (enc : Encoding) : size s enc < 2^32 := by
  cases enc with
  | hex =>
    rw [size]
    omega
  | utf8 =>
    have hpart := (heard_part s).length_le
    have htext := @length_encode_text (heard s) fun u hu => hs u ((heard_part s).subset hu)
    rw [size,bytesOf]
    · omega
    · simp
  | ascii =>
    simp only [size,bytesOf,asciiToBytes,List.length_map]
    omega
  | latin1 =>
    simp only [size,bytesOf,asciiToBytes,List.length_map]
    omega
  | base64 =>
    have hdigits : (BufferBase64.sextets s).length ≤ s.length :=
      (List.length_filterMap_le _ _).trans (List.takeWhile_prefix _).length_le
    simp only [size,bytesOf,BufferBase64.length_bits]
    omega
  | utf16le =>
    simp only [size,bytesOf,length_flatMap_two]
    omega

theorem createBuffer_ok {n : ℕ} (hn : n < 2^32) {b : Bytes} :
    createBuffer (toInt32 n) = .ok b ↔ n ≤ 2147483647 ∧ b = List.replicate n 0 := by
  have hint : toInt32 n = if n < 2^31 then (n : ℤ) else n-2^32 := by
    rw [toInt32]
    split <;> split <;> omega
  rw [createBuffer,hint,kMaxLength]
  split
  next hsmall =>
    rw [if_neg (by omega),if_neg (by omega),Int.toNat_natCast,Except.ok.injEq]
    exact ⟨fun h => ⟨by omega,h.symm⟩,fun h => h.2.symm⟩
  next hlarge =>
    rw [if_neg (by omega),if_pos (by omega)]
    exact iff_of_false (by simp) fun h => absurd h.1 (by omega)

theorem nameOf_nameOf (encoding : Option JsString) :
    nameOf (some (nameOf encoding)) = nameOf encoding := by
  have hne : nameOf encoding ≠ [] := by
    cases encoding with
    | none => decide
    | some name =>
      rw [nameOf]
      split
      · decide
      · assumption
  conv_lhs => rw [nameOf]
  exact if_neg hne

theorem encoded_all (s : JsString) (enc : Encoding) :
    (encoded s (size s enc) enc).take (size s enc) = bytesOf s enc := by
  have hfull {b : Bytes} {n : ℕ} (h : n = b.length) : b.take n = b := by
    rw [h,List.take_length]
  cases enc with
  | hex => rfl
  | utf8 =>
    have hall : encoded s (size s .utf8) .utf8 = bytesOf s .utf8 := by
      rw [encoded]
      split
      · rw [fitting_none]
        rfl
      · have hall : fitting (some (size s .utf8 : ℤ)) (charBytes (text (heard s))) =
            charBytes (text (heard s)) := fitting_all (Int.le_refl _)
        rw [hall]
        rfl
    rw [hall]
    exact hfull rfl
  | ascii => exact hfull rfl
  | latin1 => exact hfull rfl
  | base64 => exact hfull rfl
  | utf16le =>
    have hall : encoded s (size s .utf16le) .utf16le = bytesOf s .utf16le := by
      refine utf16leToBytes_eq ?_
      rw [size,bytesOf]
      · rw [length_flatMap_two]
        omega
      · simp
    rw [hall]
    exact hfull rfl

theorem fromString_iff {s : JsString} (hs : ∀ u ∈ s, u < 2^16) (hlength : s.length < 2^30)
    {encoding : Option JsString} {enc : Encoding}
    (henc : encodingOf (nameOf encoding) = some enc) {b : Bytes} :
    fromString s encoding = .ok b ↔ size s enc ≤ 2147483647 ∧ b = bytesOf s enc := by
  have hlt := size_lt hs hlength enc
  have hfrom : fromString s encoding = (byteLength s enc).bind fun t =>
      (createBuffer (toInt32 t)).bind fun n =>
        (write n s (.encoding (nameOf encoding))).map fun w =>
          if (w.2 : ℤ) ≠ toInt32 t then w.1.take w.2 else w.1 := by
    rw [fromString,henc]
  rw [hfrom,byteLength_eq hs,Except.bind]
  cases hn : createBuffer (toInt32 (size s enc)) with
  | error e =>
    have hlarge : ¬size s enc ≤ 2147483647 := fun hsmall => by
      rw [(createBuffer_ok hlt).mpr ⟨hsmall,rfl⟩] at hn
      exact absurd hn (by simp)
    exact iff_of_false (by simp [Except.bind]) fun h => hlarge h.1
  | ok n =>
    obtain ⟨hsmall,rfl⟩ := (createBuffer_ok hlt).mp hn
    have hname : (WriteArgs.encoding (nameOf encoding)).name = nameOf encoding :=
      nameOf_nameOf encoding
    have hwindow : windowOf enc (size s enc) (size s enc) = size s enc := by
      rw [windowOf]
      split <;> rfl
    have hwritten : written (List.replicate (size s enc) 0) s (.encoding (nameOf encoding)) enc =
        bytesOf s enc := by
      have hroom : (WriteArgs.encoding (nameOf encoding)).room
          (List.replicate (size s enc) 0) = size s enc := List.length_replicate
      have hleft : (List.replicate (size s enc) (0 : UInt8)).length-
          (WriteArgs.encoding (nameOf encoding)).start = size s enc := List.length_replicate
      rw [written,hroom,hleft,hwindow,encoded_all]
    have hint : toInt32 (size s enc) = size s enc := by
      rw [toInt32,if_pos (by omega),Int.emod_eq_of_lt (by omega) (by omega)]
    rw [Except.bind,write_eq hs (Nat.zero_le _) (by rw [hname]; exact henc),hwritten,hint]
    have hbytes : (bytesOf s enc).length ≤ size s enc := by
      cases enc with
      | hex => exact length_bytesOf_hex s
      | _ => exact Nat.le_refl _
    have htake : (placed (List.replicate (size s enc) 0) 0 (bytesOf s enc)).take
        (bytesOf s enc).length = bytesOf s enc := by
      rw [placed,List.take_zero,List.nil_append,List.take_left]
    have hresult : (if ((bytesOf s enc).length : ℤ) ≠ size s enc then
        (placed (List.replicate (size s enc) 0) 0 (bytesOf s enc)).take (bytesOf s enc).length
        else placed (List.replicate (size s enc) 0) 0 (bytesOf s enc)) = bytesOf s enc := by
      split
      next => exact htake
      next heq =>
        rw [placed,List.take_zero,List.nil_append,
          List.drop_eq_nil_of_le (by rw [List.length_replicate]; omega),List.append_nil]
    have hstart : (WriteArgs.encoding (nameOf encoding)).start = 0 := rfl
    simp only [Except.map,hstart,hresult,Except.ok.injEq]
    exact ⟨fun h => ⟨hsmall,h.symm⟩,fun h => h.2.symm⟩

theorem units_cons (c : Char) (cs : List Char) : units (c::cs) = Utf8.units c.toNat++units cs := rfl

theorem units_char (c : Char) :
    (Utf8.units c.toNat = [c.toNat] ∧ JsText.isHigh c.toNat = false ∧ charOf c.toNat = c) ∨
      ∃ t v, Utf8.units c.toNat = [t,v] ∧ JsText.isHigh t = true ∧ JsText.isLow v = true ∧
        Char.ofNat (0x10000+(t-0xD800)*0x400+(v-0xDC00)) = c := by
  have hvalid : c.toNat < 0xd800 ∨ (0xdfff < c.toNat ∧ c.toNat < 0x110000) := c.valid
  rw [Utf8.units]
  split
  · next hsmall =>
    have hnone := JsText.isSurrogate_char c
    refine .inl ⟨rfl,(Bool.or_eq_false_iff.mp hnone).1,?_⟩
    rw [charOf,hnone,if_neg (by decide),Char.ofNat_toNat]
  · next hlarge =>
    have hhigh : JsText.isHigh (0xD800+(c.toNat-0x10000)/0x400) = true := by
      simp only [JsText.isHigh,Bool.and_eq_true,decide_eq_true_eq]
      omega
    have hlow : JsText.isLow (0xDC00+(c.toNat-0x10000)%0x400) = true := by
      simp only [JsText.isLow,Bool.and_eq_true,decide_eq_true_eq]
      omega
    have hvalue : 0x10000+(0xD800+(c.toNat-0x10000)/0x400-0xD800)*0x400+
        (0xDC00+(c.toNat-0x10000)%0x400-0xDC00) = c.toNat := by omega
    exact .inr ⟨_,_,rfl,hhigh,hlow,by rw [hvalue,Char.ofNat_toNat]⟩

theorem scalars_units (cs : List Char) : text (heard (units cs)) = cs := by
  rw [← scalars_none]
  induction cs with
  | nil => rfl
  | cons c cs ih =>
    rw [units_cons]
    obtain ⟨hunits,hhigh,hchar⟩ | ⟨t,v,hunits,ht,hv,hchar⟩ := units_char c
    · rw [hunits,List.singleton_append,scalars_unit hhigh,hchar,ih]
    · have hpair := scalars_pair ht hv (units cs)
      rw [scalars_some,hchar,ih] at hpair
      rw [hunits,List.cons_append,List.cons_append,List.nil_append,scalars_none,hpair]

theorem bytesOf_textOf (b : Bytes) (enc : Encoding) :
    bytesOf (textOf b enc) enc = b ↔ Exact b enc := by
  cases enc with
  | hex =>
    have hlength : (hexText b).length/2 = b.length := by
      induction b with
      | nil => rfl
      | cons x b ih =>
        have htext : hexText (x::b) =
            hexUnit (x.toNat/16)::hexUnit (x.toNat % 16)::hexText b := rfl
        rw [htext]
        simp only [List.length_cons] at ih ⊢
        omega
    simp only [bytesOf,textOf,Exact,hexBytes_hexText,hlength,List.take_length]
  | utf8 =>
    rw [textOf,Exact]
    constructor
    · intro h
      obtain ⟨cs,hcs⟩ := utf8Slice_text b 0 b.length
      rw [hcs,bytesOf,scalars_units] at h
      exact ⟨cs,h.symm⟩
    · rintro ⟨cs,rfl⟩
      rw [utf8Slice_encode,bytesOf,scalars_units]
  | ascii =>
    have hbyte (x : UInt8) : ((x.toNat &&& 127) &&& 255).toUInt8 = x ↔ x.toNat < 128 := by
      have hlow : x.toNat &&& 127 = x.toNat % 128 := Bits.and_low _ 7
      have hmask : x.toNat % 128 &&& 255 = x.toNat % 128 % 256 := Bits.and_low _ 8
      have hmod : x.toNat % 128 % 256 = x.toNat % 128 := Nat.mod_eq_of_lt (by omega)
      rw [hlow,hmask,hmod,← UInt8.toNat_inj,toNat_toUInt8 (by omega)]
      omega
    have hmap : bytesOf (textOf b .ascii) .ascii =
        b.map fun x => ((x.toNat &&& 127) &&& 255).toUInt8 := List.map_map
    rw [hmap,map_eq_self_iff,Exact]
    exact forall_congr' fun x => imp_congr_right fun _ => hbyte x
  | latin1 => simp only [bytesOf,textOf,Exact,asciiToBytes_toNat]
  | base64 => simp only [bytesOf,textOf,Exact,BufferBase64.bits_sextets]
  | utf16le =>
    simp only [bytesOf,textOf,Exact,utf16le_pairs,List.take_eq_self_iff]
    omega

example : bytesOf (textOf [0xFF,0x00] .hex) .hex = [0xFF,0x00] := by decide +kernel

theorem hexUnit_lt (n : ℕ) : hexUnit n < 2^16 := by
  rcases Nat.lt_or_ge n 16 with hn | hn
  · revert n
    decide
  · rw [hexUnit,List.getD_eq_default _ _ hn]
    decide

theorem digit_lt (n : ℕ) : Base64.digit n < 2^16 := by
  rcases Nat.lt_or_ge n 64 with hn | hn
  · revert n
    decide +kernel
  · rw [Base64.digit,List.getD_eq_default _ _ hn]
    decide

theorem pairs_lt (b : Bytes) : ∀ u ∈ pairs b, u < 2^16 := by
  induction b using pairs.induct with
  | case1 => simp [pairs]
  | case2 x => simp [pairs]
  | case3 x y b ih =>
    have hx := x.toNat_lt
    have hy := y.toNat_lt
    rw [pairs,List.forall_mem_cons]
    exact ⟨by omega,ih⟩

theorem digits_lt (b : Bytes) : ∀ u ∈ Base64.digits b, u < 2^16 := by
  induction b using Base64.digits.induct with
  | case1 => simp [Base64.digits]
  | case2 a =>
    simp only [Base64.digits,List.forall_mem_cons]
    exact ⟨digit_lt _,digit_lt _,by simp⟩
  | case3 a b =>
    simp only [Base64.digits,List.forall_mem_cons]
    exact ⟨digit_lt _,digit_lt _,digit_lt _,by simp⟩
  | case4 a b c rest ih =>
    simp only [Base64.digits,List.forall_mem_cons]
    exact ⟨digit_lt _,digit_lt _,digit_lt _,digit_lt _,ih⟩

theorem textOf_lt (b : Bytes) (enc : Encoding) : ∀ u ∈ textOf b enc, u < 2^16 := by
  cases enc with
  | hex =>
    intro u hu
    obtain ⟨x,-,hx⟩ := List.mem_flatMap.mp hu
    simp only [List.mem_cons,List.not_mem_nil,or_false] at hx
    obtain rfl | rfl := hx <;> exact hexUnit_lt _
  | utf8 =>
    obtain ⟨cs,hcs⟩ := utf8Slice_text b 0 b.length
    rw [textOf,hcs]
    exact TextEncoder.units_lt cs
  | ascii =>
    intro u hu
    obtain ⟨x,-,rfl⟩ := List.mem_map.mp hu
    exact Nat.and_lt_two_pow _ (by decide)
  | latin1 =>
    intro u hu
    obtain ⟨x,-,rfl⟩ := List.mem_map.mp hu
    exact x.toNat_lt.trans (by decide)
  | base64 =>
    rw [textOf,Base64.base64]
    intro u hu
    obtain hu | hu := List.mem_append.mp hu
    · exact digits_lt b u hu
    · rw [List.eq_of_mem_replicate hu]
      decide
  | utf16le => exact pairs_lt b

example : textOf [0xFF,0x00] .utf16le = [0xFF] := by decide +kernel

theorem textOf_bytesOf {s : JsString} (hs : ∀ u ∈ s, u < 2^16) (enc : Encoding) :
    textOf (bytesOf s enc) enc = s ↔ Plain s enc := by
  cases enc with
  | hex =>
    rw [Plain]
    refine ⟨fun h => ⟨bytesOf s .hex,h.symm⟩,?_⟩
    rintro ⟨b,rfl⟩
    have h := (bytesOf_textOf b .hex).mpr trivial
    rw [textOf] at h ⊢
    rw [h]
  | utf8 =>
    rw [Plain,textOf,bytesOf,utf8Slice_encode]
    refine ⟨fun h => ⟨_,h.symm⟩,?_⟩
    rintro ⟨cs,rfl⟩
    rw [scalars_units]
  | ascii =>
    have hunit (u : ℕ) : u % 256 &&& 127 = u ↔ u < 128 := by
      have hlow : u % 256 &&& 127 = u % 256 % 128 := Bits.and_low _ 7
      rw [hlow]
      omega
    have hmap : textOf (bytesOf s .ascii) .ascii = s.map fun u => u % 256 &&& 127 := by
      have hbytes := congrArg (List.map (· &&& 127)) (toNat_asciiToBytes s)
      rw [List.map_map,List.map_map] at hbytes
      exact hbytes
    rw [hmap,map_eq_self_iff,Plain]
    exact forall_congr' fun u => imp_congr_right fun _ => hunit u
  | latin1 =>
    rw [textOf,bytesOf,toNat_asciiToBytes,map_eq_self_iff,Plain]
    exact forall_congr' fun u => imp_congr_right fun _ =>
      ⟨fun h => h ▸ Nat.mod_lt u (by decide),Nat.mod_eq_of_lt⟩
  | base64 =>
    rw [Plain]
    refine ⟨fun h => ⟨bytesOf s .base64,h.symm⟩,?_⟩
    rintro ⟨b,rfl⟩
    rw [textOf,bytesOf,BufferBase64.bits_sextets]
  | utf16le =>
    rw [textOf,bytesOf,pairs_utf16le hs,Plain]
    exact iff_of_true rfl trivial

/-- `Buffer` in each of its encodings, for all buffers and all strings that the engine can hold:
bytes survive `toString` and `from` just where the encoding can hold them, strings survive `from`
and `toString` just where it can hold them, a range is read as the bytes in it are, and UTF-8 makes
every string well-formed. -/
theorem buffer_round_trips {encoding : Option JsString} {enc : Encoding}
    (henc : encodingOf (nameOf encoding) = some enc) :
    (∀ b : Bytes, b.length ≤ 2147483647 → (textOf b enc).length < 2^30 →
      ((toStringWith b encoding none none).bind (fromString · encoding) = .ok b ↔ Exact b enc)) ∧
    (∀ s : JsString, (∀ u ∈ s, u < 2^16) → s.length < 2^30 → size s enc ≤ 2147483647 →
      ((fromString s encoding).bind (toStringWith · encoding none none) = .ok s ↔ Plain s enc) ∧
      (enc = .utf8 → (fromString s encoding).bind (toStringWith · encoding none none) =
        .ok (units (text (heard s))))) ∧
    ∀ (b : Bytes) (start stop : Option ℤ), toStringWith b encoding start stop =
      toStringWith ((b.take (stop.getD b.length).toNat).drop (start.getD 0).toNat) encoding
        none none := by
  have hwhole (b : Bytes) : toStringWith b encoding none none = .ok (textOf b enc) := by
    rw [toStringWith_eq henc]
    simp
  refine ⟨fun b hb htext => ?_,fun s hs hlength hsize => ?_,fun b start stop => ?_⟩
  · rw [hwhole,Except.bind,fromString_iff (textOf_lt b enc) htext henc,
      eq_comm (a := b),bytesOf_textOf]
    refine ⟨fun h => h.2,fun h => ⟨?_,h⟩⟩
    have hbytes := (bytesOf_textOf b enc).mpr h
    cases enc with
    | hex =>
      rw [size]
      omega
    | _ =>
      simp only [size]
      rw [hbytes]
      exact hb
  · have hfrom := (fromString_iff hs hlength henc).mpr ⟨hsize,rfl⟩
    rw [hfrom,Except.bind,hwhole,Except.ok.injEq,textOf_bytesOf hs]
    refine ⟨Iff.rfl,?_⟩
    rintro rfl
    rw [textOf,bytesOf,utf8Slice_encode]
  · rw [toStringWith_eq henc,hwhole]

/-- A surrogate alone, and a name in capitals. -/
theorem buffer_round_trips_sample :
    (fromString [0x61,0xD83D,0xDE00,0xD800] (some (js "UTF-8"))).bind
        (toStringWith · (some (js "UTF-8")) none none) = .ok [0x61,0xD83D,0xDE00,0xFFFD] ∧
      (toStringWith [0xFF,0x00] (some (js "hex")) none none).bind
        (fromString · (some (js "hex"))) = .ok [0xFF,0x00] := by
  have hutf8 := @buffer_round_trips (some (js "UTF-8")) .utf8 (by decide)
  have hhex := @buffer_round_trips (some (js "hex")) .hex (by decide)
  have htext := (hutf8.2.1 [0x61,0xD83D,0xDE00,0xD800] (by decide) (by decide) (by decide)).2 rfl
  exact ⟨htext.trans (by decide +kernel),(hhex.1 [0xFF,0x00] (by decide) (by decide)).mpr trivial⟩

end Buffers
end AsioQuickjs
