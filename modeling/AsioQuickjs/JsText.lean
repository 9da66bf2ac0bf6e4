import AsioQuickjs.BodyBytes
import AsioQuickjs.Headers

/-! The strings of scripts as code units, where a text is a list of characters, and
`decodeURIComponent` on them. -/
namespace AsioQuickjs
namespace JsText

open BodyBytes (units percent hexChar)

def isHigh (u : ℕ) : Bool := 0xD800 ≤ u && u < 0xDC00

def isLow (u : ℕ) : Bool := 0xDC00 ≤ u && u < 0xE000

def chars : JsString → Option (List Char)
  | [] => some []
  | [u] => if isHigh u || isLow u then none else some [Char.ofNat u]
  | u::v::us =>
    if isHigh u then
      if isLow v then (chars us).map (Char.ofNat (0x10000+(u-0xD800)*0x400+(v-0xDC00))::·) else none
    else if isLow u then none
    else (chars (v::us)).map (Char.ofNat u::·)

/-- One byte of an escape. Bytes that stand for a lone surrogate are no UTF-8. -/
def decodeStep (s : Utf8.State) (b : ℕ) : Option (JsString × Utf8.State) :=
  (Utf8.step s b).bind fun r =>
    if r.1.length = 1 ∧ r.1.any (fun u => isHigh u || isLow u) then none else some r

inductive Piece
  | unit (u : ℕ)
  | byte (b : ℕ)

def pieces : JsString → Option (List Piece)
  | [] => some []
  | u::us =>
    if u = 37 then
      match us with
      | a::b::rest =>
        (JsLiteral.hexDigit a).bind fun x => (JsLiteral.hexDigit b).bind fun y =>
          (pieces rest).map (.byte (16*x+y)::·)
      | _ => none
    else (pieces us).map (.unit u::·)

def assemble : Utf8.State → List Piece → Option JsString
  | .start, [] => some []
  | .inside _ _ _ _, [] => none
  | .start, .unit u::ps => (assemble .start ps).map (u::·)
  | .inside _ _ _ _, .unit _::_ => none
  | s, .byte b::ps => (decodeStep s b).bind fun r => (assemble r.2 ps).map (r.1++·)

/-- `none` stands for the `URIError`. -/
def decodeURIComponent (s : JsString) : Option JsString := (pieces s).bind (assemble .start)

def escaped (b : UInt8) : JsString := units (percent b)

theorem escaped_eq (b : UInt8) :
    escaped b = [37,(hexChar (b.toNat/16)).toNat,(hexChar (b.toNat % 16)).toNat] := by
  have hb := UInt8.toNat_lt b
  obtain ⟨hh,-⟩ := BodyBytes.hexChar_toNat (b.toNat/16) (by omega)
  obtain ⟨hl,-⟩ := BodyBytes.hexChar_toNat (b.toNat % 16) (by omega)
  rw [escaped,percent,BodyBytes.units_cons_ascii (by decide),BodyBytes.units_cons_ascii hh,
    BodyBytes.units_cons_ascii hl]
  rfl

theorem pieces_escaped (b : UInt8) (us : JsString) :
    pieces (escaped b++us) = (pieces us).map (.byte b.toNat::·) := by
  have hb := UInt8.toNat_lt b
  obtain ⟨-,-,-,hx⟩ := BodyBytes.hexChar_toNat (b.toNat/16) (by omega)
  obtain ⟨-,-,-,hy⟩ := BodyBytes.hexChar_toNat (b.toNat % 16) (by omega)
  have hvalue : 16*(b.toNat/16)+b.toNat % 16 = b.toNat := by omega
  rw [escaped_eq]
  simp only [List.cons_append,List.nil_append,pieces,if_true,hx,hy,Option.bind_some,hvalue]

theorem pieces_unit {u : ℕ} (hu : u ≠ 37) (us : JsString) :
    pieces (u::us) = (pieces us).map (.unit u::·) := by
  conv_lhs => unfold pieces
  exact if_neg hu

theorem pieces_escapes (bs : Bytes) (us : JsString) :
    pieces (bs.flatMap escaped++us) = (pieces us).map (bs.map (fun b => .byte b.toNat)++·) := by
  induction bs with
  | nil => simp
  | cons b bs ih =>
    rw [List.flatMap_cons,List.append_assoc,pieces_escaped,ih,Option.map_map]
    rfl

theorem isSurrogate_char (c : Char) : (isHigh c.toNat || isLow c.toNat) = false := by
  have hvalid : c.toNat < 0xd800 ∨ (0xdfff < c.toNat ∧ c.toNat < 0x110000) := c.valid
  simp only [isHigh,isLow,Bool.or_eq_false_iff,Bool.and_eq_false_iff,decide_eq_false_iff_not]
  omega

theorem assemble_byte (s : Utf8.State) (b : ℕ) (ps : List Piece) :
    assemble s (.byte b::ps) =
      (decodeStep s b).bind fun r => (assemble r.2 ps).map (r.1++·) := by
  cases s <;> rfl

theorem decodeStep_of_units {s t : Utf8.State} {b : ℕ} {c : Char}
    (h : Utf8.step s b = some (Utf8.units c.toNat,t)) :
    decodeStep s b = some (Utf8.units c.toNat,t) := by
  rw [decodeStep,h,Option.bind_some,if_neg]
  rintro ⟨hlength,hany⟩
  have hunits : Utf8.units c.toNat = [c.toNat] := by
    rw [Utf8.units] at hlength ⊢
    split
    · rfl
    · next hwide =>
      rw [if_neg hwide] at hlength
      cases hlength
  rw [hunits] at hany
  simp [isSurrogate_char c] at hany

theorem decodeStep_of_nil {s t : Utf8.State} {b : ℕ} (h : Utf8.step s b = some ([],t)) :
    decodeStep s b = some ([],t) := by
  rw [decodeStep,h]
  rfl

theorem assemble_more {s t : Utf8.State} {b : ℕ} (h : Utf8.step s b = some ([],t))
    (ps : List Piece) : assemble s (.byte b::ps) = assemble t ps := by
  rw [assemble_byte,decodeStep_of_nil h]
  simp

theorem assemble_last {s t : Utf8.State} {b : ℕ} {c : Char}
    (h : Utf8.step s b = some (Utf8.units c.toNat,t)) (ps : List Piece) :
    assemble s (.byte b::ps) = (assemble t ps).map (Utf8.units c.toNat++·) := by
  rw [assemble_byte,decodeStep_of_units h]
  rfl

theorem step_inside {left low high acc b : ℕ} (hlow : low ≤ b) (hhigh : b ≤ high) :
    Utf8.step (.inside (left+1) low high acc) b =
      some ([],.inside left 0x80 0xBF (64*acc+(b-0x80))) :=
  if_pos ⟨hlow,hhigh⟩

theorem step_last {low high acc b : ℕ} {c : Char} (hlow : low ≤ b) (hhigh : b ≤ high)
    (hc : 64*acc+(b-0x80) = c.toNat) :
    Utf8.step (.inside 0 low high acc) b = some (Utf8.units c.toNat,.start) := by
  rw [← hc]
  exact if_pos ⟨hlow,hhigh⟩

theorem toNat_ofNat {n : ℕ} (h : n < 256) : (UInt8.ofNat n).toNat = n := by
  simp [Nat.mod_eq_of_lt h]

theorem step_two {b : ℕ} (h : 0xC2 ≤ b) (h' : b < 0xE0) :
    Utf8.step .start b = some ([],.inside 0 0x80 0xBF (b-0xC0)) := by
  simp only [Utf8.step]
  rw [if_neg (by omega),if_neg (by omega),if_pos h']

theorem step_three {b : ℕ} (h : 0xE0 ≤ b) (h' : b < 0xF0) : Utf8.step .start b =
    some ([],.inside 1 (if b = 0xE0 then 0xA0 else 0x80) 0xBF (b-0xE0)) := by
  simp only [Utf8.step]
  rw [if_neg (by omega),if_neg (by omega),if_neg (by omega),if_pos h']

theorem step_four {b : ℕ} (h : 0xF0 ≤ b) (h' : b < 0xF5) : Utf8.step .start b =
    some ([],.inside 2 (if b = 0xF0 then 0x90 else 0x80) (if b = 0xF4 then 0x8F else 0xBF)
      (b-0xF0)) := by
  simp only [Utf8.step]
  rw [if_neg (by omega),if_neg (by omega),if_neg (by omega),if_neg (by omega),if_pos h']

theorem assemble_char (c : Char) (ps : List Piece) :
    assemble .start ((String.utf8EncodeChar c).map (fun b => .byte b.toNat)++ps) =
      (assemble .start ps).map (Utf8.units c.toNat++·) := by
  have hvalid : c.toNat < 0xd800 ∨ (0xdfff < c.toNat ∧ c.toNat < 0x110000) := c.valid
  have hval : c.val.toNat = c.toNat := rfl
  simp only [String.utf8EncodeChar,hval]
  split
  · next hone =>
    have hstep : Utf8.step .start c.toNat = some (Utf8.units c.toNat,.start) := by
      rw [Utf8.step_start_ascii (by omega),BodyBytes.units_ascii (by omega)]
    simp only [List.map_cons,List.map_nil,List.cons_append,List.nil_append]
    rw [toNat_ofNat (by omega),assemble_last hstep]
  · split
    · next htwo =>
      simp only [List.map_cons,List.map_nil,List.cons_append,List.nil_append]
      rw [toNat_ofNat (by omega),toNat_ofNat (by omega),
        assemble_more (step_two (by omega) (by omega)),
        assemble_last (step_last (c := c) (by omega) (by omega) (by omega))]
    · split
      · next hthree =>
        simp only [List.map_cons,List.map_nil,List.cons_append,List.nil_append]
        rw [toNat_ofNat (by omega),toNat_ofNat (by omega),toNat_ofNat (by omega),
          assemble_more (step_three (by omega) (by omega)),
          assemble_more (step_inside (by split <;> omega) (by omega)),
          assemble_last (step_last (c := c) (by omega) (by omega) (by omega))]
      · next hfour =>
        simp only [List.map_cons,List.map_nil,List.cons_append,List.nil_append]
        rw [toNat_ofNat (by omega),toNat_ofNat (by omega),toNat_ofNat (by omega),
          toNat_ofNat (by omega),assemble_more (step_four (by omega) (by omega)),
          assemble_more (step_inside (by split <;> omega) (by split <;> omega)),
          assemble_more (step_inside (by omega) (by omega)),
          assemble_last (step_last (c := c) (by omega) (by omega) (by omega))]

theorem decode_unit {u : ℕ} (hu : u ≠ 37) (us : JsString) :
    decodeURIComponent (u::us) = (decodeURIComponent us).map (u::·) := by
  rw [decodeURIComponent,decodeURIComponent,pieces_unit hu]
  cases pieces us <;> rfl

theorem decode_char (c : Char) (us : JsString) :
    decodeURIComponent ((String.utf8EncodeChar c).flatMap escaped++us) =
      (decodeURIComponent us).map (Utf8.units c.toNat++·) := by
  rw [decodeURIComponent,decodeURIComponent,pieces_escapes]
  cases pieces us with
  | none => rfl
  | some ps => exact assemble_char c ps

theorem decode_escapes (s : List Char) :
    decodeURIComponent ((Utf8.encode s).flatMap escaped) = some (units s) := by
  induction s with
  | nil => rfl
  | cons c s ih =>
    rw [Utf8.encode_cons,List.flatMap_append,decode_char,ih]
    rfl

theorem chars_plain {u : ℕ} (hu : (isHigh u || isLow u) = false) (us : JsString) :
    chars (u::us) = (chars us).map (Char.ofNat u::·) := by
  obtain ⟨hhigh,hlow⟩ := Bool.or_eq_false_iff.mp hu
  cases us with
  | nil => simp [chars,hu]
  | cons v us => simp [chars,hhigh,hlow]

theorem chars_pair {u v : ℕ} (hu : isHigh u = true) (hv : isLow v = true) (us : JsString) :
    chars (u::v::us) =
      (chars us).map (Char.ofNat (0x10000+(u-0xD800)*0x400+(v-0xDC00))::·) := by
  simp [chars,hu,hv]

theorem chars_units (s : List Char) : chars (units s) = some s := by
  induction s with
  | nil => rfl
  | cons c s ih =>
    have hvalid : c.toNat < 0xd800 ∨ (0xdfff < c.toNat ∧ c.toNat < 0x110000) := c.valid
    have hunits : units (c::s) = Utf8.units c.toNat++units s := rfl
    rw [hunits,Utf8.units]
    split
    · rw [List.singleton_append,chars_plain (isSurrogate_char c),ih]
      simp
    · next hwide =>
      have hhigh : isHigh (0xD800+(c.toNat-0x10000)/0x400) = true := by
        simp only [isHigh,Bool.and_eq_true,decide_eq_true_eq]
        omega
      have hlow : isLow (0xDC00+(c.toNat-0x10000)%0x400) = true := by
        simp only [isLow,Bool.and_eq_true,decide_eq_true_eq]
        omega
      have hvalue : 0x10000+(0xD800+(c.toNat-0x10000)/0x400-0xD800)*0x400+
          (0xDC00+(c.toNat-0x10000)%0x400-0xDC00) = c.toNat := by omega
      rw [List.cons_append,List.cons_append,List.nil_append,chars_pair hhigh hlow,ih,hvalue]
      simp

theorem ofNat_valid {n : ℕ} (h : n < 0xd800 ∨ (0xdfff < n ∧ n < 0x110000)) :
    (Char.ofNat n).toNat = n := by
  rw [Char.ofNat,dif_pos h]
  rfl

theorem units_ofNat_plain {u : ℕ} (hu : u < 2^16) (hplain : (isHigh u || isLow u) = false) :
    Utf8.units (Char.ofNat u).toNat = [u] := by
  simp only [isHigh,isLow,Bool.or_eq_false_iff,Bool.and_eq_false_iff,
    decide_eq_false_iff_not] at hplain
  rw [ofNat_valid (by omega)]
  exact if_pos (by omega)

theorem units_ofNat_pair {u v : ℕ} (hhigh : isHigh u = true) (hlow : isLow v = true) :
    Utf8.units (Char.ofNat (0x10000+(u-0xD800)*0x400+(v-0xDC00))).toNat = [u,v] := by
  simp only [isHigh,isLow,Bool.and_eq_true,decide_eq_true_eq] at hhigh hlow
  have hfirst : 0xD800+(0x10000+(u-0xD800)*0x400+(v-0xDC00)-0x10000)/0x400 = u := by omega
  have hsecond : 0xDC00+(0x10000+(u-0xD800)*0x400+(v-0xDC00)-0x10000) % 0x400 = v := by omega
  rw [ofNat_valid (by omega),Utf8.units,if_neg (by omega),hfirst,hsecond]

theorem units_of_chars {s : JsString} (hs : ∀ u ∈ s, u < 2^16) {cs : List Char}
    (h : chars s = some cs) : units cs = s := by
  induction s using chars.induct generalizing cs with
  | case1 =>
    obtain rfl := Option.some.inj h
    rfl
  | case2 u hsurrogate =>
    rw [chars,if_pos hsurrogate] at h
    cases h
  | case3 u hplain =>
    rw [chars,if_neg hplain] at h
    obtain rfl := Option.some.inj h
    have hone := units_ofNat_plain (hs u (by simp)) (Bool.eq_false_iff.mpr hplain)
    rw [units,List.flatMap_cons,hone]
    rfl
  | case4 u v us hhigh hlow ih =>
    rw [chars_pair hhigh hlow] at h
    obtain ⟨ds,hds,rfl⟩ := Option.map_eq_some_iff.mp h
    have htail := ih (fun w hw => hs w (by simp [hw])) hds
    rw [units,List.flatMap_cons,units_ofNat_pair hhigh hlow]
    exact congrArg ([u,v]++·) htail
  | case5 u v us hhigh hlow =>
    rw [chars,if_pos hhigh,if_neg hlow] at h
    cases h
  | case6 u v us hhigh hlow =>
    rw [chars,if_neg hhigh,if_pos hlow] at h
    cases h
  | case7 u v us hhigh hlow ih =>
    have hplain : (isHigh u || isLow u) = false := by simp [hhigh,hlow]
    rw [chars_plain hplain] at h
    obtain ⟨ds,hds,rfl⟩ := Option.map_eq_some_iff.mp h
    have htail := ih (fun w hw => hs w (List.mem_cons_of_mem u hw)) hds
    rw [units,List.flatMap_cons,units_ofNat_plain (hs u (by simp)) hplain]
    exact congrArg (u::·) htail

theorem units_injective {s t : List Char} (h : units s = units t) : s = t := by
  have hchars := chars_units s
  rw [h,chars_units t] at hchars
  exact (Option.some.inj hchars).symm

end JsText
end AsioQuickjs
