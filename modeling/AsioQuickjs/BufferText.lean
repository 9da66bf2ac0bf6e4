import AsioQuickjs.BufferBase64
import AsioQuickjs.TextEncoder

/-! The text codecs of buffer.js: UTF-8 with a limit on what is written, hexadecimal, UTF-16 and
the ones that keep a byte of each unit. -/
namespace AsioQuickjs
namespace BufferText

open BodyBytes (units)
open JsText (isHigh isLow)
open BufferBase64 (byteAt Thrown)

/-- The room that is left, where it is limited, the high surrogate that waits for its low one,
and the bytes so far. -/
structure Writer where
  r : Option ℤ
  e : Option ℕ
  o : Bytes

/-- `r-=n` -/
def spend (r : Option ℤ) (n : ℕ) : Option ℤ := r.map (·-n)

def hasRoom : Option ℤ → Bool
  | none => true
  | some r => 0 ≤ r

/-- `(r-=3)>-1&&o.push(239,191,189)` -/
def Writer.replace (s : Writer) : Writer :=
  { s with r := spend s.r 3, o := if hasRoom (spend s.r 3) then s.o++[239,191,189] else s.o }

def pointBytes (t : ℕ) : Except Thrown (List ℕ) :=
  if t < 128 then .ok [t]
  else if t < 2048 then .ok [t >>> 6 ||| 192,t &&& 63 ||| 128]
  else if t < 65536 then .ok [t >>> 12 ||| 224,t >>> 6 &&& 63 ||| 128,t &&& 63 ||| 128]
  else if t < 1114112 then
    .ok [t >>> 18 ||| 240,t >>> 12 &&& 63 ||| 128,t >>> 6 &&& 63 ||| 128,t &&& 63 ||| 128]
  else .error (.error (js "Invalid code point"))

/-- The loop of `O`. Where a code point does not fit it ends. -/
def utf8From : JsString → Writer → Except Thrown Bytes
  | [], s => .ok s.o
  | t::us, s =>
    let put (t : ℕ) (s : Writer) (rest : Writer → Except Thrown Bytes) :=
      (pointBytes t).bind fun bs =>
        if hasRoom (spend s.r bs.length) then
          rest ⟨spend s.r bs.length,none,s.o++bs.map Nat.toUInt8⟩
        else .ok s.o
    if t > 55295 ∧ t < 57344 then
      match s.e with
      | none =>
        if t > 56319 then utf8From us s.replace
        else if us = [] then utf8From us s.replace
        else utf8From us { s with e := some t }
      | some e =>
        if t < 56320 then utf8From us { s.replace with e := some t }
        else put (((e-55296) <<< 10 ||| (t-56320))+65536) s (utf8From us)
    else put t (if s.e.isSome then s.replace else s) (utf8From us)

/-- `O`: without a limit where it is nothing. -/
def utf8ToBytes (s : JsString) (r : Option ℕ) : Except Thrown Bytes :=
  utf8From s ⟨if r = some 0 then none else r.map Nat.cast,none,[]⟩

/-- The code point of the sequence at `e`, if it is one that ends at `t` at the latest, and how
long its first byte says it is. -/
def sequenceAt (i : Bytes) (t e : ℕ) : Option ℕ × ℕ :=
  let o := byteAt i e
  let f := if o > 239 then 4 else if o > 223 then 3 else if o > 191 then 2 else 1
  let c := byteAt i (e+1)
  let l := byteAt i (e+2)
  let s := byteAt i (e+3)
  let u :=
    if e+f ≤ t then
      if f = 1 then if o < 128 then some o else none
      else if f = 2 then
        let p := (o &&& 31) <<< 6 ||| c &&& 63
        if c &&& 192 = 128 ∧ p > 127 then some p else none
      else if f = 3 then
        let p := (o &&& 15) <<< 12 ||| (c &&& 63) <<< 6 ||| l &&& 63
        if c &&& 192 = 128 ∧ l &&& 192 = 128 ∧ p > 2047 ∧ (p < 55296 ∨ p > 57343) then some p
        else none
      else
        let p := (o &&& 15) <<< 18 ||| (c &&& 63) <<< 12 ||| (l &&& 63) <<< 6 ||| s &&& 63
        if c &&& 192 = 128 ∧ l &&& 192 = 128 ∧ s &&& 192 = 128 ∧ p > 65535 ∧ p < 1114112 then
          some p
        else none
    else none
  (u,f)

def unitsAt (i : Bytes) (t e : ℕ) : List ℕ × ℕ :=
  match sequenceAt i t e with
  | (none,_) => ([65533],e+1)
  | (some u,f) =>
    if u > 65535 then ([(u-65536) >>> 10 &&& 1023 ||| 55296,56320 ||| (u-65536) &&& 1023],e+f)
    else ([u],e+f)

theorem unitsAt_lt (i : Bytes) (t e : ℕ) : e < (unitsAt i t e).2 := by
  have hlength : 0 < (sequenceAt i t e).2 := by
    simp only [sequenceAt]
    split_ifs <;> decide
  rw [unitsAt]
  split
  · exact Nat.lt_succ_self e
  · rename_i h
    rw [h] at hlength
    split <;> exact Nat.lt_add_of_pos_right hlength

/-- The loop of `nr`. -/
def codePoints (i : Bytes) (t e : ℕ) : List ℕ :=
  if e < t then (unitsAt i t e).1++codePoints i t (unitsAt i t e).2 else []
termination_by t-e
decreasing_by
  have hnext := unitsAt_lt i t e
  omega

/-- `String.fromCharCode.apply(String,us)` -/
def fromCharCode (us : List ℕ) : JsString := us.map (· % 2^16)

/-- `Yr`: a call for `Z` units each. -/
def decodeCodePoints (us : List ℕ) : JsString :=
  if us.length ≤ 4096 then fromCharCode us
  else
    (List.range ((us.length+4095)/4096)).flatMap fun k =>
      fromCharCode ((us.drop (4096*k)).take 4096)

/-- `nr` -/
def utf8Slice (i : Bytes) (r t : ℕ) : JsString :=
  decodeCodePoints (codePoints i (min i.length t) r)

/-- `qr` -/
def asciiSlice (i : Bytes) (r t : ℕ) : JsString :=
  ((i.take (min i.length t)).drop r).map fun b => b.toNat &&& 127

/-- `Wr` -/
def latin1Slice (i : Bytes) (r t : ℕ) : JsString :=
  ((i.take (min i.length t)).drop r).map UInt8.toNat

/-- `Jr` -/
def asciiToBytes (s : JsString) : Bytes := s.map fun u => (u &&& 255).toUInt8

/-- A digit of the table `Zr`. -/
def hexUnit (n : ℕ) : ℕ := (js "0123456789abcdef").getD n 0

/-- `jr` -/
def hexSlice (i : Bytes) (r t : ℕ) : JsString :=
  ((i.take (if t = 0 ∨ t > i.length then i.length else t)).drop r).flatMap fun b =>
    [hexUnit (b.toNat/16),hexUnit (b.toNat % 16)]

def isWhitespace (u : ℕ) : Bool :=
  (9 ≤ u && u ≤ 13) || (8192 ≤ u && u ≤ 8202) ||
    [32,160,5760,8232,8233,8239,8287,12288,65279].contains u

/-- `parseInt(s,16)`, `none` for `NaN`. -/
def parseInt (s : JsString) : Option ℤ :=
  let s := s.dropWhile isWhitespace
  let negative := s.head? = some 45
  let s := if s.head? = some 45 ∨ s.head? = some 43 then s.tail else s
  let s := if s.take 2 = js "0x" ∨ s.take 2 = js "0X" then s.drop 2 else s
  let digits := (s.takeWhile fun u => (JsLiteral.hexDigit u).isSome).filterMap JsLiteral.hexDigit
  if digits = [] then none
  else
    let n : ℕ := digits.foldl (fun n d => 16*n+d) 0
    some (if negative then -n else n)

/-- The bytes of pairs of characters, up to the first that `parseInt` does not read. -/
def hexBytes : JsString → Bytes
  | [] => []
  | [a] =>
    match parseInt [a] with
    | none => []
    | some f => [(f % 256).toNat.toUInt8]
  | a::b::us =>
    match parseInt [a,b] with
    | none => []
    | some f => (f % 256).toNat.toUInt8::hexBytes us

/-- `Kr` -/
def utf16leToBytes : JsString → ℤ → Bytes
  | [], _ => []
  | t::us, r =>
    if r-2 < 0 then [] else (t % 256).toUInt8::(t >>> 8).toUInt8::utf16leToBytes us (r-2)

def pairs : Bytes → JsString
  | [] => []
  | [_] => []
  | a::b::bs => (a.toNat+b.toNat*256)::pairs bs

/-- `Hr` -/
def utf16leSlice (i : Bytes) (r t : ℕ) : JsString := pairs ((i.take (min i.length t)).drop r)

def charOf (t : ℕ) : Char := if isHigh t || isLow t then '\uFFFD' else Char.ofNat t

/-- The characters of a string. A surrogate alone is one that cannot be read. -/
def text : JsString → List Char
  | [] => []
  | [t] => [charOf t]
  | t::v::us =>
    if isHigh t && isLow v then Char.ofNat (0x10000+(t-0xD800)*0x400+(v-0xDC00))::text us
    else charOf t::text (v::us)

/-- What the loop sees: a high surrogate at the end is lost behind another. -/
def heard : JsString → JsString
  | [t,v] => if isHigh t && isHigh v then [t] else [t,v]
  | t::v::w::us => t::heard (v::w::us)
  | us => us

def fitting : Option ℤ → List Bytes → List Bytes
  | _, [] => []
  | r, b::bs => if hasRoom (spend r b.length) then b::fitting (spend r b.length) bs else []

/-- The characters that are written for a string behind a high surrogate that waits. -/
def scalars : Option ℕ → JsString → List Char
  | none, us => text (heard us)
  | some _, [] => []
  | some e, t::us => text (heard (e::t::us))

theorem pointBytes_eq {t : ℕ} (ht : t < 0x110000) : pointBytes t = .ok (TextEncoder.utf8 t) := by
  have hmid (x : ℕ) : x &&& 63 ||| 128 = x % 0x40+0x80 := @Bits.and_or 128 6 (by decide) x
  have hsix : t >>> 6 = t/0x40 := Nat.shiftRight_eq_div_pow t 6
  have htwelve : t >>> 12 = t/0x1000 := Nat.shiftRight_eq_div_pow t 12
  have heighteen : t >>> 18 = t/0x40000 := Nat.shiftRight_eq_div_pow t 18
  rw [pointBytes,TextEncoder.utf8]
  simp only [hmid,hsix,htwelve,heighteen]
  split_ifs with h1 h2 h3
  · rfl
  · rw [Nat.or_comm,@Bits.or_eq_add 192 (t/0x40) 5 (by decide) (by omega),Nat.add_comm]
  · rw [Nat.or_comm (t/0x1000),@Bits.or_eq_add 224 (t/0x1000) 4 (by decide) (by omega),
      Nat.add_comm 224]
  · rw [Nat.or_comm (t/0x40000),@Bits.or_eq_add 240 (t/0x40000) 3 (by decide) (by omega),
      Nat.add_comm 240]

theorem charOf_toNat {t : ℕ} (ht : t < 2^16) (hhigh : isHigh t = false) (hlow : isLow t = false) :
    (charOf t).toNat = t := by
  have hvalid : t.isValidChar := by
    simp only [isHigh,isLow,Bool.and_eq_false_iff,decide_eq_false_iff_not] at hhigh hlow
    simp only [Nat.isValidChar]
    omega
  rw [charOf,hhigh,hlow,Bool.or_false,if_neg (by decide),Char.ofNat,dif_pos hvalid]
  rfl

theorem pair_toNat {t v : ℕ} (ht : isHigh t = true) (hv : isLow v = true) :
    (Char.ofNat (0x10000+(t-0xD800)*0x400+(v-0xDC00))).toNat =
      0x10000+(t-0xD800)*0x400+(v-0xDC00) := by
  have hlt := TextEncoder.pair_lt ht hv
  have hvalid : (0x10000+(t-0xD800)*0x400+(v-0xDC00)).isValidChar := by
    simp only [Nat.isValidChar]
    omega
  rw [Char.ofNat,dif_pos hvalid]
  rfl

/-- The value of a pair, where the bits of the second unit are put below those of the first. -/
theorem pair_eq {e t : ℕ} (ht : isLow t = true) :
    ((e-55296) <<< 10 ||| (t-56320))+65536 = 0x10000+(e-0xD800)*0x400+(t-0xDC00) := by
  simp only [isLow,Bool.and_eq_true,decide_eq_true_eq] at ht
  rw [Nat.shiftLeft_eq,@Bits.or_eq_add _ (t-56320) 10 (Nat.dvd_mul_left _ _) (by omega)]
  omega

theorem text_unit {t : ℕ} (ht : isHigh t = false) (us : JsString) :
    text (t::us) = charOf t::text us := by
  cases us <;> simp [text,ht]

theorem text_pair {t v : ℕ} (ht : isHigh t = true) (hv : isLow v = true) (us : JsString) :
    text (t::v::us) = Char.ofNat (0x10000+(t-0xD800)*0x400+(v-0xDC00))::text us := by
  simp [text,ht,hv]

theorem text_lone {t v : ℕ} (ht : isHigh t = true) (hv : isLow v = false) (us : JsString) :
    text (t::v::us) = '\uFFFD'::text (v::us) := by
  simp [text,ht,hv,charOf]

theorem heard_head (v : ℕ) (us : JsString) : ∃ ws, heard (v::us) = v::ws := by
  rcases us with _ | ⟨t,_ | ⟨w,us⟩⟩
  · exact ⟨[],rfl⟩
  · rw [heard]
    split
    · exact ⟨[],rfl⟩
    · exact ⟨[t],rfl⟩
  · exact ⟨heard (t::w::us),rfl⟩

theorem heard_cons {t v : ℕ} {us : JsString}
    (h : us ≠ [] ∨ isHigh t = false ∨ isHigh v = false) :
    heard (t::v::us) = t::heard (v::us) := by
  cases us with
  | nil =>
    obtain h | h | h := h
    · exact absurd rfl h
    · simp [heard,h]
    · simp [heard,h]
  | cons w us => rfl

theorem not_isHigh_of_isLow {t : ℕ} (ht : isLow t = true) : isHigh t = false := by
  simp only [isLow,Bool.and_eq_true,decide_eq_true_eq] at ht
  simp only [isHigh,Bool.and_eq_false_iff,decide_eq_false_iff_not]
  omega

theorem scalars_none (us : JsString) : scalars none us = text (heard us) := rfl

theorem scalars_some (e t : ℕ) (us : JsString) :
    scalars (some e) (t::us) = text (heard (e::t::us)) := rfl

theorem scalars_unit {t : ℕ} (ht : isHigh t = false) (us : JsString) :
    scalars none (t::us) = charOf t::scalars none us := by
  cases us with
  | nil => rfl
  | cons v us => rw [scalars_none,heard_cons (.inr (.inl ht)),text_unit ht,scalars_none]

theorem scalars_pair {e t : ℕ} (he : isHigh e = true) (ht : isLow t = true) (us : JsString) :
    scalars (some e) (t::us) =
      Char.ofNat (0x10000+(e-0xD800)*0x400+(t-0xDC00))::scalars none us := by
  have hhigh := not_isHigh_of_isLow ht
  cases us with
  | nil => simp [scalars,heard,hhigh,text_pair he ht]
  | cons v us =>
    rw [scalars_some,heard_cons (.inr (.inr hhigh)),heard_cons (.inr (.inl hhigh)),
      text_pair he ht,scalars_none]

theorem scalars_high {e t : ℕ} (he : isHigh e = true) (ht : isHigh t = true)
    (us : JsString) : scalars (some e) (t::us) = '\uFFFD'::scalars (some t) us := by
  have hlow : isLow t = false := by
    cases hlow : isLow t with
    | false => rfl
    | true => exact absurd ht (by rw [not_isHigh_of_isLow hlow]; decide)
  cases us with
  | nil => simp [scalars,heard,he,ht,text,charOf]
  | cons v us =>
    obtain ⟨ws,hws⟩ := heard_head t (v::us)
    rw [scalars_some,heard_cons (.inl (by simp)),hws,text_lone he hlow,scalars_some,hws]

theorem scalars_other {e t : ℕ} (he : isHigh e = true) (hhigh : isHigh t = false)
    (hlow : isLow t = false) (us : JsString) :
    scalars (some e) (t::us) = '\uFFFD'::charOf t::scalars none us := by
  obtain ⟨ws,hws⟩ := heard_head t us
  have hrest := scalars_unit hhigh us
  rw [scalars_none,hws] at hrest
  rw [scalars_some,heard_cons (.inr (.inr hhigh)),hws,text_lone he hlow,hrest]

theorem not_hasRoom_spend {r : Option ℤ} (h : hasRoom r = false) (n : ℕ) :
    hasRoom (spend r n) = false := by
  cases r with
  | none => exact absurd h (by decide)
  | some r =>
    simp only [hasRoom,spend,Option.map_some,decide_eq_false_iff_not] at h ⊢
    omega

theorem fitting_full {r : Option ℤ} (h : hasRoom r = false) (l : List Bytes) :
    fitting r l = [] := by
  cases l with
  | nil => rfl
  | cons b l => rw [fitting,if_neg (by simp [not_hasRoom_spend h])]

theorem fitting_none (l : List Bytes) : fitting none l = l := by
  induction l with
  | nil => rfl
  | cons b l ih => simpa [fitting,spend,hasRoom] using ih

theorem fitting_all {r : ℤ} {l : List Bytes} (h : l.flatten.length ≤ r) :
    fitting (some r) l = l := by
  induction l generalizing r with
  | nil => rfl
  | cons b l ih =>
    rw [List.flatten_cons,List.length_append] at h
    have hroom : hasRoom (spend (some r) b.length) = true := by
      simp only [hasRoom,spend,Option.map_some,decide_eq_true_eq]
      omega
    have hrest : fitting (spend (some r) b.length) l = l := @ih (r-b.length) (by omega)
    rw [fitting,if_pos hroom,hrest]

theorem replace_spec (s : Writer) (l : List Bytes) :
    s.replace.o++(fitting s.replace.r l).flatten =
      s.o++(fitting s.r ([239,191,189]::l)).flatten := by
  have hlength : ([239,191,189] : Bytes).length = 3 := rfl
  rw [fitting,hlength,Writer.replace]
  cases h : hasRoom (spend s.r 3) with
  | true => simp
  | false => simp [fitting_full h]

def charBytes (cs : List Char) : List Bytes := cs.map String.utf8EncodeChar

theorem utf8_replacement : String.utf8EncodeChar '\uFFFD' = [239,191,189] := by decide +kernel

theorem put_spec {t : ℕ} {c : Char} (hc : c.toNat = t) {s : Writer}
    {next : Writer → Except Thrown Bytes} {cs : List Char}
    (hnext : ∀ r o, next ⟨r,none,o⟩ = .ok (o++(fitting r (charBytes cs)).flatten)) :
    ((pointBytes t).bind fun bs =>
        if hasRoom (spend s.r bs.length) then
          next ⟨spend s.r bs.length,none,s.o++bs.map Nat.toUInt8⟩
        else .ok s.o) =
      .ok (s.o++(fitting s.r (charBytes (c::cs))).flatten) := by
  have hvalid : c.toNat < 0x110000 := by
    have hvalid : c.toNat < 0xd800 ∨ (0xdfff < c.toNat ∧ c.toNat < 0x110000) := c.valid
    omega
  have hbytes := TextEncoder.utf8_char c
  have hlength : (String.utf8EncodeChar c).length = (TextEncoder.utf8 t).length := by
    rw [← hbytes,List.length_map,hc]
  rw [pointBytes_eq (hc ▸ hvalid),charBytes,List.map_cons,fitting,hlength,← hbytes,hc]
  simp only [Except.bind]
  split
  · rw [hnext,List.flatten_cons,List.append_assoc]
    rfl
  · rw [List.flatten_nil,List.append_nil]

theorem utf8From_eq {us : JsString} (hus : ∀ u ∈ us, u < 2^16) {e : Option ℕ}
    (he : ∀ h, e = some h → isHigh h = true) (r : Option ℤ) (o : Bytes) :
    utf8From us ⟨r,e,o⟩ = .ok (o++(fitting r (charBytes (scalars e us))).flatten) := by
  induction us generalizing e r o with
  | nil =>
    cases e <;> simp [utf8From,scalars,heard,text,charBytes,fitting]
  | cons t us ih =>
    obtain ⟨ht,hus⟩ := List.forall_mem_cons.mp hus
    have hnone (r : Option ℤ) (o : Bytes) :
        utf8From us ⟨r,none,o⟩ = .ok (o++(fitting r (charBytes (scalars none us))).flatten) :=
      ih hus (by simp) r o
    have hwait (hhigh : isHigh t = true) (r : Option ℤ) (o : Bytes) : utf8From us ⟨r,some t,o⟩ =
        .ok (o++(fitting r (charBytes (scalars (some t) us))).flatten) :=
      ih hus (fun h hh => by cases hh; exact hhigh) r o
    rw [utf8From]
    cases hhigh : isHigh t with
    | true =>
      have hrange : t > 55295 ∧ t < 56320 := by
        simp only [isHigh,Bool.and_eq_true,decide_eq_true_eq] at hhigh
        omega
      rw [if_pos ⟨hrange.1,by omega⟩]
      cases e with
      | none =>
        simp only
        rw [if_neg (by omega)]
        by_cases hlast : us = []
        · subst hlast
          simp only [if_true,utf8From,scalars,heard,text,charBytes,List.map_cons,List.map_nil,
            charOf,hhigh,Bool.true_or,utf8_replacement]
          rw [← replace_spec ⟨r,none,o⟩ [],fitting,List.flatten_nil,List.append_nil]
        · obtain ⟨v,vs,rfl⟩ := List.exists_cons_of_ne_nil hlast
          rw [if_neg hlast]
          exact hwait hhigh r o
      | some e =>
        simp only
        rw [if_pos hrange.2,scalars_high (he e rfl) hhigh]
        have hstep := hwait hhigh (Writer.replace ⟨r,some e,o⟩).r (Writer.replace ⟨r,some e,o⟩).o
        rw [replace_spec ⟨r,some e,o⟩] at hstep
        rw [charBytes,List.map_cons,utf8_replacement]
        exact hstep
    | false =>
      cases hlow : isLow t with
      | true =>
        have hrange : t > 56319 ∧ t < 57344 := by
          simp only [isLow,Bool.and_eq_true,decide_eq_true_eq] at hlow
          omega
        rw [if_pos ⟨by omega,hrange.2⟩]
        cases e with
        | none =>
          simp only
          have hstep := hnone (Writer.replace ⟨r,none,o⟩).r (Writer.replace ⟨r,none,o⟩).o
          rw [replace_spec ⟨r,none,o⟩] at hstep
          rw [if_pos hrange.1,scalars_unit hhigh,charOf,hlow,Bool.or_true,if_pos rfl,charBytes,
            List.map_cons,utf8_replacement]
          exact hstep
        | some e =>
          simp only
          rw [if_neg (by omega),pair_eq hlow,scalars_pair (he e rfl) hlow]
          exact put_spec (pair_toNat (he e rfl) hlow) (s := ⟨r,some e,o⟩) hnone
      | false =>
        have hrange : ¬(t > 55295 ∧ t < 57344) := by
          simp only [isHigh,isLow,Bool.and_eq_false_iff,decide_eq_false_iff_not] at hhigh hlow
          omega
        have hchar := charOf_toNat ht hhigh hlow
        rw [if_neg hrange]
        cases e with
        | none =>
          rw [scalars_unit hhigh]
          exact put_spec hchar (s := ⟨r,none,o⟩) hnone
        | some e =>
          have hstep := put_spec hchar (s := Writer.replace ⟨r,some e,o⟩) hnone
          rw [replace_spec ⟨r,some e,o⟩] at hstep
          rw [scalars_other (he e rfl) hhigh hlow,charBytes,List.map_cons,utf8_replacement]
          exact hstep

theorem utf8ToBytes_eq {s : JsString} (hs : ∀ u ∈ s, u < 2^16) (r : Option ℕ) :
    utf8ToBytes s r = .ok (fitting (if r = some 0 then none else r.map Nat.cast)
      (charBytes (text (heard s)))).flatten :=
  utf8From_eq hs (by simp) _ []

theorem utf8ToBytes_none {s : JsString} (hs : ∀ u ∈ s, u < 2^16) :
    utf8ToBytes s none = .ok (Utf8.encode (text (heard s))) := by
  rw [utf8ToBytes_eq hs,Option.map_none,ite_self,fitting_none]
  rfl

theorem byteAt_lt (i : Bytes) (e : ℕ) : byteAt i e < 256 := UInt8.toNat_lt _

theorem byteAt_slice {i bs : Bytes} {t e k : ℕ} (h : (i.take t).drop e = bs) (hk : k < bs.length) :
    byteAt i (e+k) = byteAt bs k := by
  subst h
  rw [List.length_drop,List.length_take] at hk
  rw [byteAt,byteAt,List.getD_eq_getElem?_getD,List.getD_eq_getElem?_getD,List.getElem?_drop,
    List.getElem?_take_of_lt (by omega)]

theorem mid_iff : ∀ c < 256, c &&& 192 = 128 ↔ 128 ≤ c ∧ c < 192 := by
  decide +kernel

theorem sequenceAt_eq (i : Bytes) (t e : ℕ) :
    let o := byteAt i e
    let c := byteAt i (e+1)
    let l := byteAt i (e+2)
    let s := byteAt i (e+3)
    sequenceAt i t e =
      if o > 239 then
        let p := o % 16*262144+c % 64*4096+l % 64*64+s % 64
        (if e+4 ≤ t ∧ (128 ≤ c ∧ c < 192) ∧ (128 ≤ l ∧ l < 192) ∧ (128 ≤ s ∧ s < 192) ∧
          p > 65535 ∧ p < 1114112 then some p else none,4)
      else if o > 223 then
        let p := o % 16*4096+c % 64*64+l % 64
        (if e+3 ≤ t ∧ (128 ≤ c ∧ c < 192) ∧ (128 ≤ l ∧ l < 192) ∧ p > 2047 ∧
          (p < 55296 ∨ p > 57343) then some p else none,3)
      else if o > 191 then
        let p := o % 32*64+c % 64
        (if e+2 ≤ t ∧ (128 ≤ c ∧ c < 192) ∧ p > 127 then some p else none,2)
      else (if e+1 ≤ t ∧ o < 128 then some o else none,1) := by
  have hmask4 (x : ℕ) : x &&& 15 = x % 16 := Bits.and_low x 4
  have hmask5 (x : ℕ) : x &&& 31 = x % 32 := Bits.and_low x 5
  have hmask6 (x : ℕ) : x &&& 63 = x % 64 := Bits.and_low x 6
  have hmod (x : ℕ) : x % 64 < 64 := Nat.mod_lt _ (by decide)
  simp only [sequenceAt,hmask4,hmask5,hmask6,mid_iff _ (byteAt_lt i _),
    Bits.pack_two _ _ (hmod _),Bits.pack_three _ _ _ (hmod _) (hmod _),
    Bits.pack_four _ _ _ _ (hmod _) (hmod _) (hmod _)]
  split_ifs <;> simp_all

theorem sequenceAt_char {i : Bytes} {t e u f : ℕ} (h : sequenceAt i t e = (some u,f)) :
    ∃ c : Char, c.toNat = u := by
  have hvalid : u.isValidChar := by
    have ho := byteAt_lt i e
    rw [sequenceAt_eq] at h
    simp only [Nat.isValidChar]
    split_ifs at h <;>
      · simp only [Prod.mk.injEq,Option.ite_none_right_eq_some,Option.some.injEq,reduceCtorEq,
          false_and] at h
        try omega
  refine ⟨Char.ofNat u,?_⟩
  rw [Char.ofNat,dif_pos hvalid]
  rfl

theorem unitsAt_of_some {i : Bytes} {t e f : ℕ} {c : Char}
    (h : sequenceAt i t e = (some c.toNat,f)) : unitsAt i t e = (Utf8.units c.toNat,e+f) := by
  have hvalid : c.toNat < 0xd800 ∨ (0xdfff < c.toNat ∧ c.toNat < 0x110000) := c.valid
  have hunits := TextDecoder.wideUnits_eq (c := c.toNat) (by omega)
  rw [unitsAt,h]
  simp only
  rw [TextDecoder.surrogates,TextDecoder.ite_wide,hunits]

theorem unitsAt_char (i : Bytes) (t e : ℕ) :
    ∃ c : Char, (unitsAt i t e).1 = Utf8.units c.toNat := by
  cases h : sequenceAt i t e with
  | mk u f =>
    cases u with
    | none => exact ⟨'\uFFFD',by rw [unitsAt,h]; rfl⟩
    | some u =>
      obtain ⟨c,rfl⟩ := sequenceAt_char h
      exact ⟨c,by rw [unitsAt_of_some h]⟩

theorem codePoints_eq (i : Bytes) (t e : ℕ) : codePoints i t e =
    if e < t then (unitsAt i t e).1++codePoints i t (unitsAt i t e).2 else [] := by
  conv_lhs => rw [codePoints]

theorem codePoints_text (i : Bytes) (t e : ℕ) : ∃ cs, codePoints i t e = units cs := by
  induction hm : t-e using Nat.strongRecOn generalizing e with
  | ind m ih =>
    have hnext := unitsAt_lt i t e
    rw [codePoints_eq]
    split
    · next he =>
      obtain ⟨c,hc⟩ := unitsAt_char i t e
      obtain ⟨cs,hcs⟩ := ih _ (by omega) (unitsAt i t e).2 rfl
      exact ⟨c::cs,by rw [hc,hcs]; rfl⟩
    · exact ⟨[],rfl⟩

theorem toNat_toUInt8 {n : ℕ} (h : n < 256) : n.toUInt8.toNat = n := BufferBase64.toNat_toUInt8 h

theorem sequenceAt_encode {i rest : Bytes} {t e : ℕ} {c : Char} (ht : t ≤ i.length)
    (h : (i.take t).drop e = String.utf8EncodeChar c++rest) :
    sequenceAt i t e = (some c.toNat,(String.utf8EncodeChar c).length) := by
  have hvalid : c.toNat < 0xd800 ∨ (0xdfff < c.toNat ∧ c.toNat < 0x110000) := c.valid
  rw [← TextEncoder.utf8_char c] at h ⊢
  have hlength := congrArg List.length h
  rw [List.length_append,List.length_drop,List.length_take,Nat.min_eq_left ht,
    List.length_map] at hlength
  rw [List.length_map,sequenceAt_eq]
  rcases Nat.lt_or_ge c.toNat 0x80 with h1 | h1
  · have hutf8 : TextEncoder.utf8 c.toNat = [c.toNat] := by rw [TextEncoder.utf8,if_pos h1]
    rw [hutf8] at h hlength ⊢
    rw [List.length_singleton] at hlength ⊢
    have hfirst : byteAt i e = c.toNat :=
      (byteAt_slice h (k := 0) (by simp)).trans (toNat_toUInt8 (by omega))
    rw [if_neg (by omega),if_neg (by omega),if_neg (by omega),hfirst,if_pos ⟨by omega,h1⟩]
  rcases Nat.lt_or_ge c.toNat 0x800 with h2 | h2
  · have hutf8 : TextEncoder.utf8 c.toNat = [c.toNat/0x40+0xC0,c.toNat % 0x40+0x80] := by
      rw [TextEncoder.utf8,if_neg (by omega),if_pos h2]
    rw [hutf8] at h hlength ⊢
    simp only [List.length_cons,List.length_nil] at hlength ⊢
    have hfirst : byteAt i e = c.toNat/0x40+0xC0 :=
      (byteAt_slice h (k := 0) (by simp)).trans (toNat_toUInt8 (by omega))
    have hsecond : byteAt i (e+1) = c.toNat % 0x40+0x80 :=
      (byteAt_slice h (by simp)).trans (toNat_toUInt8 (by omega))
    rw [if_neg (by omega),if_neg (by omega),if_pos (by omega),hfirst,hsecond]
    rw [if_pos (by omega)]
    congr 2
    omega
  rcases Nat.lt_or_ge c.toNat 0x10000 with h3 | h3
  · have hutf8 : TextEncoder.utf8 c.toNat =
        [c.toNat/0x1000+0xE0,c.toNat/0x40 % 0x40+0x80,c.toNat % 0x40+0x80] := by
      rw [TextEncoder.utf8,if_neg (by omega),if_neg (by omega),if_pos h3]
    rw [hutf8] at h hlength ⊢
    simp only [List.length_cons,List.length_nil] at hlength ⊢
    have hfirst : byteAt i e = c.toNat/0x1000+0xE0 :=
      (byteAt_slice h (k := 0) (by simp)).trans (toNat_toUInt8 (by omega))
    have hsecond : byteAt i (e+1) = c.toNat/0x40 % 0x40+0x80 :=
      (byteAt_slice h (by simp)).trans (toNat_toUInt8 (by omega))
    have hthird : byteAt i (e+2) = c.toNat % 0x40+0x80 :=
      (byteAt_slice h (by simp)).trans (toNat_toUInt8 (by omega))
    rw [if_neg (by omega),if_pos (by omega),hfirst,hsecond,hthird]
    rw [if_pos (by omega)]
    congr 2
    omega
  · have hutf8 : TextEncoder.utf8 c.toNat = [c.toNat/0x40000+0xF0,c.toNat/0x1000 % 0x40+0x80,
        c.toNat/0x40 % 0x40+0x80,c.toNat % 0x40+0x80] := by
      rw [TextEncoder.utf8,if_neg (by omega),if_neg (by omega),if_neg (by omega)]
    rw [hutf8] at h hlength ⊢
    simp only [List.length_cons,List.length_nil] at hlength ⊢
    have hfirst : byteAt i e = c.toNat/0x40000+0xF0 :=
      (byteAt_slice h (k := 0) (by simp)).trans (toNat_toUInt8 (by omega))
    have hsecond : byteAt i (e+1) = c.toNat/0x1000 % 0x40+0x80 :=
      (byteAt_slice h (by simp)).trans (toNat_toUInt8 (by omega))
    have hthird : byteAt i (e+2) = c.toNat/0x40 % 0x40+0x80 :=
      (byteAt_slice h (by simp)).trans (toNat_toUInt8 (by omega))
    have hfourth : byteAt i (e+3) = c.toNat % 0x40+0x80 :=
      (byteAt_slice h (by simp)).trans (toNat_toUInt8 (by omega))
    rw [if_pos (by omega),hfirst,hsecond,hthird,hfourth]
    rw [if_pos (by omega)]
    congr 2
    omega

theorem codePoints_encode {i : Bytes} {t : ℕ} (ht : t ≤ i.length) {cs : List Char} {e : ℕ}
    (h : (i.take t).drop e = Utf8.encode cs) : codePoints i t e = units cs := by
  induction cs generalizing e with
  | nil =>
    have hlength := congrArg List.length h
    rw [List.length_drop,List.length_take,Nat.min_eq_left ht] at hlength
    have hend : ¬e < t := by
      have hnil : (Utf8.encode []).length = 0 := rfl
      omega
    rw [codePoints_eq,if_neg hend]
    rfl
  | cons c cs ih =>
    have hlength := congrArg List.length h
    rw [Utf8.encode_cons] at h hlength
    rw [List.length_drop,List.length_take,Nat.min_eq_left ht,List.length_append] at hlength
    have hsequence := sequenceAt_encode ht h
    have hnext := unitsAt_lt i t e
    rw [unitsAt_of_some hsequence] at hnext
    have hrest : (i.take t).drop (e+(String.utf8EncodeChar c).length) = Utf8.encode cs := by
      rw [← List.drop_drop,h,List.drop_left]
    rw [codePoints_eq,if_pos (by simp only at hnext; omega),unitsAt_of_some hsequence,ih hrest]
    rfl

theorem chunks_eq {α : Type} (us : List α) (n m : ℕ) :
    ((List.range m).flatMap fun k => (us.drop (n*k)).take n) = us.take (n*m) := by
  induction m with
  | zero => simp
  | succ m ih =>
    rw [List.range_succ,List.flatMap_append,ih,List.flatMap_singleton,Nat.mul_succ,List.take_add]

theorem fromCharCode_eq {us : List ℕ} (hus : ∀ u ∈ us, u < 2^16) : fromCharCode us = us := by
  have hid : us.map (· % 2^16) = us.map id :=
    List.map_congr_left fun u hu => Nat.mod_eq_of_lt (hus u hu)
  rw [fromCharCode,hid,List.map_id]

theorem decodeCodePoints_eq {us : List ℕ} (hus : ∀ u ∈ us, u < 2^16) :
    decodeCodePoints us = us := by
  rw [decodeCodePoints]
  split
  · exact fromCharCode_eq hus
  · have hparts : ((List.range ((us.length+4095)/4096)).flatMap fun k =>
        fromCharCode ((us.drop (4096*k)).take 4096)) =
        (List.range ((us.length+4095)/4096)).flatMap fun k => (us.drop (4096*k)).take 4096 :=
      List.flatMap_congr fun k _ => fromCharCode_eq fun u hu =>
        hus u (List.mem_of_mem_drop (List.mem_of_mem_take hu))
    rw [hparts,chunks_eq,List.take_of_length_le (by omega)]

theorem utf8Slice_text (i : Bytes) (r t : ℕ) : ∃ cs, utf8Slice i r t = units cs := by
  obtain ⟨cs,hcs⟩ := codePoints_text i (min i.length t) r
  exact ⟨cs,by rw [utf8Slice,hcs,decodeCodePoints_eq (TextEncoder.units_lt cs)]⟩

theorem utf8Slice_encode (cs : List Char) :
    utf8Slice (Utf8.encode cs) 0 (Utf8.encode cs).length = units cs := by
  have hslice : ((Utf8.encode cs).take (Utf8.encode cs).length).drop 0 = Utf8.encode cs :=
    List.take_length
  rw [utf8Slice,Nat.min_self,codePoints_encode (le_refl _) hslice,
    decodeCodePoints_eq (TextEncoder.units_lt cs)]

theorem sequenceAt_slice {i : Bytes} {r t e : ℕ} (ht : t ≤ i.length) (he : r+e < t) :
    sequenceAt i t (r+e) = sequenceAt ((i.take t).drop r) (t-r) e := by
  have hlength : ((i.take t).drop r).length = t-r := by
    rw [List.length_drop,List.length_take,Nat.min_eq_left ht]
  have hat {k : ℕ} (hk : r+e+k < t) :
      byteAt i (r+e+k) = byteAt ((i.take t).drop r) (e+k) := by
    rw [Nat.add_assoc]
    exact byteAt_slice rfl (by omega)
  have hfirst : byteAt i (r+e) = byteAt ((i.take t).drop r) e := @hat 0 he
  have hbound (k : ℕ) : r+e+k ≤ t ↔ e+k ≤ t-r := by omega
  rw [sequenceAt_eq,sequenceAt_eq]
  simp only [hfirst,hbound]
  by_cases h2 : e+2 ≤ t-r
  · rw [@hat 1 (by omega)]
    by_cases h3 : e+3 ≤ t-r
    · rw [@hat 2 (by omega)]
      by_cases h4 : e+4 ≤ t-r
      · rw [@hat 3 (by omega)]
      · simp only [h4,false_and,if_false]
    · have h4 : ¬e+4 ≤ t-r := by omega
      simp only [h3,h4,false_and,if_false]
  · have h3 : ¬e+3 ≤ t-r := by omega
    have h4 : ¬e+4 ≤ t-r := by omega
    simp only [h2,h3,h4,false_and,if_false]

theorem codePoints_slice {i : Bytes} {t : ℕ} (ht : t ≤ i.length) (r e : ℕ) :
    codePoints i t (r+e) = codePoints ((i.take t).drop r) (t-r) e := by
  induction hm : t-(r+e) using Nat.strongRecOn generalizing e with
  | ind m ih =>
    rw [codePoints_eq i,codePoints_eq ((i.take t).drop r)]
    by_cases he : r+e < t
    · have hnext := unitsAt_lt i t (r+e)
      have hunits : (unitsAt i t (r+e)).1 = (unitsAt ((i.take t).drop r) (t-r) e).1 ∧
          (unitsAt i t (r+e)).2 = r+(unitsAt ((i.take t).drop r) (t-r) e).2 := by
        rw [unitsAt,unitsAt,← sequenceAt_slice ht he]
        obtain ⟨u,f⟩ := sequenceAt i t (r+e)
        cases u with
        | none => exact ⟨rfl,rfl⟩
        | some u =>
          simp only
          split
          · exact ⟨rfl,Nat.add_assoc r e f⟩
          · exact ⟨rfl,Nat.add_assoc r e f⟩
      rw [hunits.2] at hnext
      rw [if_pos he,if_pos (by omega),hunits.1,hunits.2,ih _ (by omega) _ rfl]
    · rw [if_neg he,if_neg (by omega)]

theorem utf8Slice_slice {i : Bytes} {r t : ℕ} (ht : t ≤ i.length) :
    utf8Slice i r t = utf8Slice ((i.take t).drop r) 0 (t-r) := by
  have hlength : ((i.take t).drop r).length = t-r := by
    rw [List.length_drop,List.length_take,Nat.min_eq_left ht]
  have hslice := codePoints_slice ht r 0
  rw [Nat.add_zero] at hslice
  rw [utf8Slice,utf8Slice,hlength,Nat.min_eq_right ht,Nat.min_self,hslice]

theorem asciiToBytes_toNat (b : Bytes) : asciiToBytes (b.map UInt8.toNat) = b := by
  have hbyte : ∀ x : UInt8, (x.toNat &&& 255).toUInt8 = x := fun x => by
    have hmask : x.toNat &&& 255 = x.toNat % 256 := Bits.and_low _ 8
    rw [hmask,Nat.mod_eq_of_lt x.toNat_lt,Nat.toUInt8_eq,UInt8.ofNat_toNat]
  rw [asciiToBytes,List.map_map]
  exact (List.map_congr_left fun x _ => hbyte x).trans (List.map_id b)

theorem toNat_asciiToBytes (s : JsString) :
    (asciiToBytes s).map UInt8.toNat = s.map (· % 256) := by
  rw [asciiToBytes,List.map_map]
  refine List.map_congr_left fun u _ => ?_
  have hmask : u &&& 255 = u % 256 := Bits.and_low _ 8
  have hlt : u % 256 < 256 := Nat.mod_lt _ (by decide)
  rw [Function.comp_apply,hmask,toNat_toUInt8 hlt]

theorem map_eq_self_iff {α : Type} {f : α → α} {l : List α} :
    l.map f = l ↔ ∀ x ∈ l, f x = x := by
  induction l with
  | nil => simp
  | cons a l ih => simp [ih]

def hexText (b : Bytes) : JsString :=
  b.flatMap fun b => [hexUnit (b.toNat/16),hexUnit (b.toNat % 16)]

theorem parseInt_hexUnit : ∀ n < 256,
    parseInt [hexUnit (n/16),hexUnit (n % 16)] = some (n : ℤ) := by
  decide +kernel

theorem hexBytes_hexText (b : Bytes) : hexBytes (hexText b) = b := by
  induction b with
  | nil => rfl
  | cons x b ih =>
    have hx := x.toNat_lt
    have hvalue : ((x.toNat : ℤ) % 256).toNat = x.toNat := by omega
    have htext : hexText (x::b) = hexUnit (x.toNat/16)::hexUnit (x.toNat % 16)::hexText b := rfl
    rw [htext,hexBytes,parseInt_hexUnit _ hx]
    simp only [hvalue,ih,Nat.toUInt8_eq,UInt8.ofNat_toNat]

theorem utf16leToBytes_eq {s : JsString} {r : ℤ} (hr : 2*s.length ≤ r) :
    utf16leToBytes s r = s.flatMap fun t => [(t % 256).toUInt8,(t >>> 8).toUInt8] := by
  induction s generalizing r with
  | nil => rfl
  | cons t s ih =>
    rw [List.length_cons] at hr
    rw [utf16leToBytes,if_neg (by omega),ih (by omega)]
    rfl

theorem pairs_utf16le {s : JsString} (hs : ∀ u ∈ s, u < 2^16) :
    pairs (s.flatMap fun t => [(t % 256).toUInt8,(t >>> 8).toUInt8]) = s := by
  induction s with
  | nil => rfl
  | cons t s ih =>
    obtain ⟨ht,hs⟩ := List.forall_mem_cons.mp hs
    have hshift : t >>> 8 = t/256 := Nat.shiftRight_eq_div_pow t 8
    have hlow : (t % 256).toUInt8.toNat = t % 256 := toNat_toUInt8 (Nat.mod_lt _ (by decide))
    have hhigh : (t/256).toUInt8.toNat = t/256 := toNat_toUInt8 (by omega)
    have hvalue : t % 256+t/256*256 = t := by omega
    rw [List.flatMap_cons,List.cons_append,List.cons_append,List.nil_append,pairs,ih hs,hshift,
      hlow,hhigh,hvalue]

theorem utf16le_pairs (b : Bytes) :
    ((pairs b).flatMap fun t => [(t % 256).toUInt8,(t >>> 8).toUInt8]) = b.take (b.length/2*2) := by
  induction b using pairs.induct with
  | case1 => rfl
  | case2 x => simp [pairs]
  | case3 x y b ih =>
    have hx := x.toNat_lt
    have hy := y.toNat_lt
    have hshift : (x.toNat+y.toNat*256) >>> 8 = y.toNat := by
      rw [Nat.shiftRight_eq_div_pow]
      omega
    have hmod : (x.toNat+y.toNat*256) % 256 = x.toNat := by omega
    have hlength : (x::y::b).length/2*2 = b.length/2*2+1+1 := by
      simp only [List.length_cons]
      omega
    rw [pairs,List.flatMap_cons,ih,hshift,hmod,hlength,Nat.toUInt8_eq,Nat.toUInt8_eq,
      UInt8.ofNat_toNat,UInt8.ofNat_toNat]
    rfl

end BufferText
end AsioQuickjs
