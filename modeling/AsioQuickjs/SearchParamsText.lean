import AsioQuickjs.Bits
import AsioQuickjs.SearchParams
import AsioQuickjs.UrlencodedForm

/-! The text of a `URLSearchParams` of `src/js/whatwg-url-polyfill.js`: what is read in a query,
with the replacement characters of what is no UTF-8 in it, and what `toString` writes. -/
namespace AsioQuickjs
namespace SearchParamsText

open BodyBytes (encodeURIComponent hexChar percent units unreserved)
open JsText (Piece chars escaped)
open SearchParams (Entries)
open UrlencodedForm (written)

/-- `parseHexOctet` of the two units at the front. -/
def parseHexOctet : JsString → Option ℕ
  | x::y::_ =>
    (JsLiteral.hexDigit x).bind fun a => (JsLiteral.hexDigit y).map fun b => 16*a+b
  | _ => none

def getLeadingOnes (octet : ℕ) : ℕ :=
  ([128,64,32,16,8,4,2,1].takeWhile fun mask => octet &&& mask ≠ 0).length

def utf8Decode (octets : List ℕ) : Option ℕ :=
  let codePoint := match octets with
    | [a] => some a
    | [a,b] => some ((a &&& 31) <<< 6 ||| (b &&& 63))
    | [a,b,c] => some ((a &&& 15) <<< 12 ||| (b &&& 63) <<< 6 ||| (c &&& 63))
    | [a,b,c,d] =>
      some ((a &&& 7) <<< 18 ||| (b &&& 63) <<< 12 ||| (c &&& 63) <<< 6 ||| (d &&& 63))
    | _ => none
  codePoint.filter fun e =>
    !(e > 1114111 || (e ≥ 55296 && e ≤ 57343) ||
      e < (if octets.length > 3 then 65536 else if octets.length > 2 then 2048
        else if octets.length > 1 then 128 else 0))

/-- What ends a sequence: no continuation octet, or one that the first octet forbids. -/
def refuses (lead index octet : ℕ) : Bool :=
  octet > 191 || octet < 128 || (index = 1 && ((lead = 224 && octet < 160) ||
    (lead = 237 && octet > 159) || (lead = 240 && octet < 144) || (lead = 244 && octet > 143)))

/-- The loop over the octets of a sequence; the rest is where reading goes on. -/
def collect (lead length : ℕ) (octets : List ℕ) (s : JsString) : List ℕ × JsString :=
  if octets.length < length then
    if s.length < 3 ∨ s.head? ≠ some 37 then (octets,s)
    else match parseHexOctet (s.drop 1) with
      | none => (octets,s)
      | some octet =>
        if refuses lead octets.length octet then (octets,s)
        else collect lead length (octets++[octet]) (s.drop 3)
  else (octets,s)
termination_by length-octets.length
decreasing_by
  rw [List.length_append]
  exact Nat.sub_lt_sub_left (by assumption) (Nat.lt_succ_self _)

def sequence (octet : ℕ) (s : JsString) : JsString × JsString :=
  let length := getLeadingOnes octet
  if length = 0 then ([octet],s)
  else if length = 1 ∨ 4 < length then ([0xFFFD],s)
  else
    let r := collect octet length [octet] s
    if r.1.length ≠ length then ([0xFFFD],r.2)
    else match utf8Decode r.1 with
      | none => (List.replicate length 0xFFFD,r.2)
      | some codePoint => (Utf8.units codePoint,r.2)

theorem collect_length (lead length : ℕ) (octets : List ℕ) (s : JsString) :
    (collect lead length octets s).2.length ≤ s.length := by
  induction octets, s using collect.induct lead length with
  | case1 octets s h hend => rw [collect,if_pos h,if_pos hend]
  | case2 octets s h hend hoctet =>
    rw [collect,if_pos h,if_neg hend,hoctet]
  | case3 octets s h hend octet hoctet hrefuses =>
    rw [collect,if_pos h,if_neg hend,hoctet]
    simp only [if_pos hrefuses,le_refl]
  | case4 octets s h hend octet hoctet hrefuses ih =>
    rw [collect,if_pos h,if_neg hend,hoctet]
    simp only [if_neg hrefuses]
    exact ih.trans (by rw [List.length_drop]; exact Nat.sub_le _ _)
  | case5 octets s h => rw [collect,if_neg h]

theorem sequence_length (octet : ℕ) (s : JsString) : (sequence octet s).2.length ≤ s.length := by
  have hcollect := collect_length octet (getLeadingOnes octet) [octet] s
  simp only [sequence]
  split_ifs
  · exact le_rfl
  · exact le_rfl
  · exact hcollect
  · split <;> exact hcollect

/-- The loop of `decode`, behind the replacement of plus signs. -/
def decodeFrom : JsString → JsString
  | [] => []
  | u::s =>
    if u = 37 then
      if s.head? = some 37 ∨ s.length < 2 then 37::decodeFrom s
      else match parseHexOctet s with
        | none => u::decodeFrom s
        | some octet =>
          let r := sequence octet (s.drop 2)
          r.1++decodeFrom r.2
    else u::decodeFrom s
termination_by s => s.length
decreasing_by
  · exact Nat.lt_succ_self _
  · exact Nat.lt_succ_self _
  · have hlength := sequence_length octet (s.drop 2)
    rw [List.length_drop] at hlength
    rw [List.length_cons]
    omega
  · exact Nat.lt_succ_self _

def decode (input : JsString) : JsString :=
  decodeFrom (input.map fun u => if u = 43 then 32 else u)

/-- An entry of a part: `split`, `shift` and `join` cut it at the first `=`. -/
def parsePart (part : JsString) : JsString × JsString :=
  (decode (part.takeWhile (· ≠ 61)),decode ((part.dropWhile (· ≠ 61)).drop 1))

def parseQuery (query : JsString) : Entries :=
  if query = [] then [] else ((query.splitOn 38).filter (· ≠ [])).map parsePart

/-- `new URLSearchParams(init)` of a string. -/
def ofString (init : JsString) : Entries :=
  parseQuery (if init.head? = some 63 then init.drop 1 else init)

def replacements : List (ℕ × JsString) :=
  [(33,js "%21"),(39,js "%27"),(40,js "%28"),(41,js "%29"),(126,js "%7E")]

/-- `replace(/[!'()~]|%20/g, replacer)`, with so many units left to skip. -/
def replaceFrom : ℕ → JsString → JsString
  | _, [] => []
  | skip+1, _::us => replaceFrom skip us
  | 0, u::us =>
    if u = 37 ∧ us.take 2 = [50,48] then 43::replaceFrom 2 us
    else (replacements.lookup u).getD [u]++replaceFrom 0 us

/-- `none` stands for the `URIError` of `encodeURIComponent`. -/
def encode (s : JsString) : Option JsString :=
  (chars s).map fun cs => replaceFrom 0 (units (encodeURIComponent cs))

/-- The text of an entry in `serialize`. -/
def encodeEntry (e : JsString × JsString) : Option JsString :=
  (encode e.1).bind fun key => (encode e.2).map fun value => key++61::value

/-- `toString` -/
def serialize (entries : Entries) : Option JsString :=
  (entries.mapM encodeEntry).map fun parts => [38].intercalate parts

/-- The escapes of a text, and the units between them; what is no escape stands for itself. -/
def percentDecode : JsString → List Piece
  | [] => []
  | u::s =>
    if u = 37 then
      match parseHexOctet s with
      | some b => .byte b::percentDecode (s.drop 2)
      | none => .unit u::percentDecode s
    else .unit u::percentDecode s
termination_by s => s.length
decreasing_by
  all_goals
    simp only [List.length_drop,List.length_cons]
    omega

/-- A byte of UTF-8, where three bytes do not stand for a surrogate. -/
def utf8Step (state : Utf8.State) (b : ℕ) : Option (JsString × Utf8.State) :=
  match state with
  | .start => if b = 0xED then some ([],.inside 1 0x80 0x9F 0xD) else Utf8.step .start b
  | .inside left low high acc => Utf8.step (.inside left low high acc) b

/-- UTF-8 with U+FFFD for what is none: for a byte that starts no character, and for the bytes
of a character that is broken off, by a unit or by a byte that is read again then. -/
def lossy : Utf8.State → List Piece → JsString
  | .start, [] => []
  | .inside _ _ _ _, [] => [0xFFFD]
  | .start, .unit u::ps => u::lossy .start ps
  | .inside _ _ _ _, .unit u::ps => 0xFFFD::u::lossy .start ps
  | .start, .byte b::ps =>
    match utf8Step .start b with
    | some r => r.1++lossy r.2 ps
    | none => 0xFFFD::lossy .start ps
  | .inside left low high acc, .byte b::ps =>
    match utf8Step (.inside left low high acc) b with
    | some r => r.1++lossy r.2 ps
    | none => 0xFFFD::match utf8Step .start b with
      | some r => r.1++lossy r.2 ps
      | none => 0xFFFD::lossy .start ps

/-- The texts of a query: its parts between the ampersands, cut at the first equals sign. -/
def fields (query : JsString) : List (JsString × JsString) :=
  ((query.splitOn 38).filter (· ≠ [])).map fun part =>
    (part.takeWhile (· ≠ 61),(part.dropWhile (· ≠ 61)).drop 1)

def spaces (s : JsString) : JsString := s.map fun u => if u = 43 then 32 else u

/-- What the URL Standard reads in a text without lone surrogates. -/
def standard (s : JsString) : JsString := lossy .start (percentDecode (spaces s))

/-- No escape of a byte that would start a character of four bytes beyond U+10FFFF. -/
def InRange (s : JsString) : Prop :=
  ∀ b, Piece.byte b ∈ percentDecode (spaces s) → b < 0xF5 ∨ 0xF8 ≤ b

def escape? (s : JsString) : Option (ℕ × JsString) :=
  if s.head? = some 37 then (parseHexOctet (s.drop 1)).map fun b => (b,s.drop 3) else none

theorem hexDigit_lt {u n : ℕ} (h : JsLiteral.hexDigit u = some n) : n < 16 ∧ u ≠ 37 := by
  rw [JsLiteral.hexDigit] at h
  split at h
  · cases h
    omega
  · split at h
    · cases h
      omega
    · split at h
      · cases h
        omega
      · cases h

theorem parseHexOctet_some {s : JsString} {b : ℕ} (h : parseHexOctet s = some b) :
    b < 256 ∧ 2 ≤ s.length ∧ s.head? ≠ some 37 := by
  rw [parseHexOctet.eq_def] at h
  split at h
  · next x y rest =>
    obtain ⟨m,hm,h⟩ := Option.bind_eq_some_iff.mp h
    obtain ⟨n,hn,rfl⟩ := Option.map_eq_some_iff.mp h
    have hm := hexDigit_lt hm
    have hn := hexDigit_lt hn
    refine ⟨by omega,by simp,fun hx => hm.2 ?_⟩
    exact Option.some.inj hx
  · cases h

theorem escape?_some {s rest : JsString} {b : ℕ} (h : escape? s = some (b,rest)) :
    ∃ s', s = 37::s' ∧ parseHexOctet s' = some b ∧ rest = s'.drop 2 ∧ b < 256 := by
  rw [escape?] at h
  split at h
  · next hhead =>
    obtain ⟨s',rfl⟩ := List.head?_eq_some_iff.mp hhead
    obtain ⟨n,hn,h⟩ := Option.map_eq_some_iff.mp h
    obtain ⟨rfl,rfl⟩ := Prod.mk.inj h
    exact ⟨s',rfl,hn,rfl,(parseHexOctet_some hn).1⟩
  · cases h

theorem percentDecode_of_some {s rest : JsString} {b : ℕ} (h : escape? s = some (b,rest)) :
    percentDecode s = .byte b::percentDecode rest := by
  obtain ⟨s',rfl,hb,rfl,-⟩ := escape?_some h
  rw [percentDecode,if_pos rfl,hb]

theorem percentDecode_of_none {u : ℕ} {s : JsString} (h : escape? (u::s) = none) :
    percentDecode (u::s) = .unit u::percentDecode s := by
  rw [percentDecode]
  split
  · next hu =>
    have hnone : parseHexOctet s = none := by simpa [escape?,hu] using h
    rw [hnone]
  · rfl

theorem decodeFrom_of_some {s rest : JsString} {b : ℕ} (h : escape? s = some (b,rest)) :
    decodeFrom s = (sequence b rest).1++decodeFrom (sequence b rest).2 := by
  obtain ⟨s',rfl,hb,rfl,-⟩ := escape?_some h
  obtain ⟨-,hlength,hhead⟩ := parseHexOctet_some hb
  rw [decodeFrom,if_pos rfl,if_neg (not_or.mpr ⟨hhead,by omega⟩),hb]

theorem decodeFrom_of_none {u : ℕ} {s : JsString} (h : escape? (u::s) = none) :
    decodeFrom (u::s) = u::decodeFrom s := by
  rw [decodeFrom]
  split
  · next hu =>
    have hnone : parseHexOctet s = none := by simpa [escape?,hu] using h
    rw [hnone,hu]
    split <;> rfl
  · rfl

theorem collect_step {lead length : ℕ} {octets : List ℕ} (hlt : octets.length < length)
    (s : JsString) :
    (escape? s = none → collect lead length octets s = (octets,s)) ∧
    ∀ b rest, escape? s = some (b,rest) → collect lead length octets s =
      if refuses lead octets.length b then (octets,s)
      else collect lead length (octets++[b]) rest := by
  refine ⟨fun h => ?_,fun b rest h => ?_⟩
  · rw [collect,if_pos hlt]
    split
    · rfl
    · next hs =>
      push Not at hs
      have hnone : parseHexOctet (s.drop 1) = none := by simpa [escape?,hs.2] using h
      rw [hnone]
  · obtain ⟨s',rfl,hb,rfl,-⟩ := escape?_some h
    obtain ⟨-,hlength,-⟩ := parseHexOctet_some hb
    rw [collect,if_pos hlt,if_neg (by simp; omega)]
    simp only [List.drop_succ_cons,List.drop_zero,hb]

theorem lossy_unit_or_end {left low high acc : ℕ} {s : JsString} (h : escape? s = none) :
    lossy (.inside left low high acc) (percentDecode s) =
      0xFFFD::lossy .start (percentDecode s) := by
  cases s with
  | nil => rw [percentDecode]; rfl
  | cons u s => rw [percentDecode_of_none h]; rfl

theorem lossy_refused {left low high acc b : ℕ} (h : ¬(low ≤ b ∧ b ≤ high)) (ps : List Piece) :
    lossy (.inside left low high acc) (.byte b::ps) = 0xFFFD::lossy .start (.byte b::ps) := by
  have hnone : utf8Step (.inside left low high acc) b = none := by
    simp only [utf8Step,Utf8.step,if_neg h]
  simp only [lossy,hnone]

theorem lossy_more {left low high acc b : ℕ} (h : low ≤ b ∧ b ≤ high) (ps : List Piece) :
    lossy (.inside (left+1) low high acc) (.byte b::ps) =
      lossy (.inside left 0x80 0xBF (64*acc+(b-0x80))) ps := by
  have hsome : utf8Step (.inside (left+1) low high acc) b =
      some ([],.inside left 0x80 0xBF (64*acc+(b-0x80))) := by
    simp only [utf8Step,Utf8.step,if_pos h]
  rw [lossy,hsome]
  rfl

theorem lossy_last {low high acc b : ℕ} (h : low ≤ b ∧ b ≤ high) (ps : List Piece) :
    lossy (.inside 0 low high acc) (.byte b::ps) =
      Utf8.units (64*acc+(b-0x80))++lossy .start ps := by
  have hsome : utf8Step (.inside 0 low high acc) b =
      some (Utf8.units (64*acc+(b-0x80)),.start) := by
    simp only [utf8Step,Utf8.step,if_pos h]
  rw [lossy,hsome]

theorem lossy_collect {lead length left low high acc : ℕ} {octets : List ℕ} {s : JsString}
    (hlength : octets.length+left+1 = length) (hone : 1 ≤ octets.length)
    (hrange : ∀ b, refuses lead octets.length b = false ↔ low ≤ b ∧ b ≤ high) :
    ((collect lead length octets s).1.length ≠ length ∧
      lossy (.inside left low high acc) (percentDecode s) =
        0xFFFD::lossy .start (percentDecode (collect lead length octets s).2)) ∨
    ∃ b bs, (collect lead length octets s).1 = octets++b::bs ∧ bs.length = left ∧
      (low ≤ b ∧ b ≤ high) ∧ (∀ c ∈ bs, 0x80 ≤ c ∧ c ≤ 0xBF) ∧
      lossy (.inside left low high acc) (percentDecode s) =
        Utf8.units ((b::bs).foldl (fun a c => 64*a+(c-0x80)) acc)++
          lossy .start (percentDecode (collect lead length octets s).2) := by
  induction left generalizing octets s low high acc with
  | zero =>
    obtain ⟨hnone,hsome⟩ := @collect_step lead length octets (by omega) s
    cases h : escape? s with
    | none =>
      rw [hnone h]
      exact .inl ⟨by dsimp only; omega,lossy_unit_or_end h⟩
    | some r =>
      rw [hsome r.1 r.2 h,percentDecode_of_some h]
      by_cases hb : refuses lead octets.length r.1 = true
      · rw [if_pos hb,percentDecode_of_some h]
        refine .inl ⟨by dsimp only; omega,lossy_refused (fun hr => ?_) _⟩
        rw [(hrange r.1).mpr hr] at hb
        cases hb
      · rw [if_neg hb]
        have hr := (hrange r.1).mp (Bool.eq_false_iff.mpr hb)
        have hdone : collect lead length (octets++[r.1]) r.2 = (octets++[r.1],r.2) := by
          rw [collect,if_neg (by simp; omega)]
        rw [hdone]
        exact .inr ⟨r.1,[],rfl,rfl,hr,by simp,lossy_last hr _⟩
  | succ left ih =>
    obtain ⟨hnone,hsome⟩ := @collect_step lead length octets (by omega) s
    cases h : escape? s with
    | none =>
      rw [hnone h]
      exact .inl ⟨by dsimp only; omega,lossy_unit_or_end h⟩
    | some r =>
      rw [hsome r.1 r.2 h,percentDecode_of_some h]
      by_cases hb : refuses lead octets.length r.1 = true
      · rw [if_pos hb,percentDecode_of_some h]
        refine .inl ⟨by dsimp only; omega,lossy_refused (fun hr => ?_) _⟩
        rw [(hrange r.1).mpr hr] at hb
        cases hb
      · rw [if_neg hb]
        have hr := (hrange r.1).mp (Bool.eq_false_iff.mpr hb)
        have hlen : (octets++[r.1]).length = octets.length+1 := List.length_append
        have hnext (b : ℕ) : refuses lead (octets++[r.1]).length b = false ↔
            0x80 ≤ b ∧ b ≤ 0xBF := by
          have hne : ¬(octets.length+1 = 1) := by omega
          rw [hlen,refuses,decide_eq_false hne,Bool.false_and,Bool.or_false,
            Bool.or_eq_false_iff,decide_eq_false_iff_not,decide_eq_false_iff_not]
          omega
        rw [lossy_more hr]
        obtain hbroken | ⟨b,bs,hbs,hleft,hrb,hall,htext⟩ :=
          @ih 0x80 0xBF (64*acc+(r.1-0x80)) (octets++[r.1]) r.2 (by omega) (by omega) hnext
        · exact .inl hbroken
        · refine .inr ⟨r.1,b::bs,?_,by rw [List.length_cons,hleft],hr,?_,?_⟩
          · rw [hbs,List.append_assoc]
            rfl
          · exact List.forall_mem_cons.mpr ⟨hrb,hall⟩
          · simp only [htext,List.foldl_cons]

theorem getLeadingOnes_eq : ∀ b < 0xF5, getLeadingOnes b =
    if b < 0x80 then 0 else if b < 0xC0 then 1 else if b < 0xE0 then 2
    else if b < 0xF0 then 3 else 4 := by
  decide +kernel

theorem and_63 {b : ℕ} (hb : 0x80 ≤ b ∧ b ≤ 0xBF) : b &&& 63 = b-0x80 := by
  have hlow : b &&& 63 = b % 64 := Bits.and_low b 6
  omega

theorem utf8Decode_two {a b : ℕ} (ha : 0xC0 ≤ a ∧ a < 0xE0) (hb : 0x80 ≤ b ∧ b ≤ 0xBF) :
    utf8Decode [a,b] =
      if a < 0xC2 then none else some (64*(a-0xC0)+(b-0x80)) := by
  have hlead : a &&& 31 = a % 32 := Bits.and_low a 5
  have hpack : (a &&& 31) <<< 6 ||| (b &&& 63) = 64*(a-0xC0)+(b-0x80) := by
    rw [and_63 hb,Bits.pack_two _ _ (by omega),hlead]
    omega
  simp only [utf8Decode,hpack,Option.filter_some]
  by_cases h : a < 0xC2
  · rw [if_pos h,if_neg]
    simp
    omega
  · rw [if_neg h,if_pos]
    simp
    omega

theorem utf8Decode_three {a b c : ℕ} (ha : 0xE0 ≤ a ∧ a < 0xF0) (hb : 0x80 ≤ b ∧ b ≤ 0xBF)
    (hfirst : a = 0xE0 → 0xA0 ≤ b) (hsurrogate : a = 0xED → b ≤ 0x9F)
    (hc : 0x80 ≤ c ∧ c ≤ 0xBF) :
    utf8Decode [a,b,c] = some (64*(64*(a-0xE0)+(b-0x80))+(c-0x80)) := by
  have hlead : a &&& 15 = a % 16 := Bits.and_low a 4
  have hpack : (a &&& 15) <<< 12 ||| (b &&& 63) <<< 6 ||| (c &&& 63) =
      64*(64*(a-0xE0)+(b-0x80))+(c-0x80) := by
    rw [and_63 hb,and_63 hc,Bits.pack_three _ _ _ (by omega) (by omega),hlead]
    omega
  simp only [utf8Decode,hpack,Option.filter_some]
  rw [if_pos]
  simp
  omega

theorem utf8Decode_four {a b c d : ℕ} (ha : 0xF0 ≤ a ∧ a < 0xF5) (hb : 0x80 ≤ b ∧ b ≤ 0xBF)
    (hfirst : a = 0xF0 → 0x90 ≤ b) (hlast : a = 0xF4 → b ≤ 0x8F)
    (hc : 0x80 ≤ c ∧ c ≤ 0xBF) (hd : 0x80 ≤ d ∧ d ≤ 0xBF) :
    utf8Decode [a,b,c,d] =
      some (64*(64*(64*(a-0xF0)+(b-0x80))+(c-0x80))+(d-0x80)) := by
  have hlead : a &&& 7 = a % 8 := Bits.and_low a 3
  have hpack : (a &&& 7) <<< 18 ||| (b &&& 63) <<< 12 ||| (c &&& 63) <<< 6 ||| (d &&& 63) =
      64*(64*(64*(a-0xF0)+(b-0x80))+(c-0x80))+(d-0x80) := by
    rw [and_63 hb,and_63 hc,and_63 hd,Bits.pack_four _ _ _ _ (by omega) (by omega) (by omega),
      hlead]
    omega
  simp only [utf8Decode,hpack,Option.filter_some]
  rw [if_pos]
  simp
  omega

/-- A first octet of two to four leaves its character under way, if it can start one. -/
theorem refuses_first (lead b : ℕ) :
    refuses lead 1 b = false ↔
      (if lead = 0xE0 then 0xA0 else if lead = 0xF0 then 0x90 else 0x80) ≤ b ∧
        b ≤ (if lead = 0xED then 0x9F else if lead = 0xF4 then 0x8F else 0xBF) := by
  simp only [refuses,Bool.or_eq_false_iff,Bool.and_eq_false_iff,decide_eq_false_iff_not,
    decide_true,Bool.true_eq_false,false_or]
  split_ifs <;> omega

def payload (lead : ℕ) : ℕ :=
  if lead < 0xE0 then lead-0xC0 else if lead < 0xF0 then lead-0xE0 else lead-0xF0

def lowest (lead : ℕ) : ℕ := if lead = 0xE0 then 0xA0 else if lead = 0xF0 then 0x90 else 0x80

def highest (lead : ℕ) : ℕ := if lead = 0xED then 0x9F else if lead = 0xF4 then 0x8F else 0xBF

theorem lossy_lead {b : ℕ} (hb : 0xC2 ≤ b ∧ b < 0xF5) (ps : List Piece) :
    lossy .start (.byte b::ps) =
      lossy (.inside (getLeadingOnes b-2) (lowest b) (highest b) (payload b)) ps := by
  have hstep : utf8Step .start b =
      some ([],.inside (getLeadingOnes b-2) (lowest b) (highest b) (payload b)) := by
    rw [getLeadingOnes_eq b hb.2]
    have hascii : ¬b < 0x80 := by omega
    have hmid : ¬b < 0xC0 := by omega
    have hlone : ¬b < 0xC2 := by omega
    simp only [utf8Step,Utf8.step,lowest,highest,payload,if_neg hascii,if_neg hmid,if_neg hlone,
      if_pos hb.2]
    by_cases hsurrogate : b = 0xED
    · subst hsurrogate
      rfl
    · rw [if_neg hsurrogate]
      by_cases htwo : b < 0xE0
      · have hne : ∀ c, 0xE0 ≤ c → b ≠ c := fun c hc => by omega
        simp [htwo,hne]
      · by_cases hthree : b < 0xF0
        · have hne : ∀ c, 0xF0 ≤ c → b ≠ c := fun c hc => by omega
          simp [htwo,hthree,hne,hsurrogate]
        · have hne : b ≠ 0xE0 := by omega
          simp [htwo,hthree,hne,hsurrogate]
  rw [lossy,hstep]
  rfl

theorem utf8Decode_full {b c : ℕ} {bs : List ℕ} (hb : 0xC2 ≤ b ∧ b < 0xF5)
    (hlength : bs.length = getLeadingOnes b-2) (hc : lowest b ≤ c ∧ c ≤ highest b)
    (hbs : ∀ d ∈ bs, 0x80 ≤ d ∧ d ≤ 0xBF) :
    utf8Decode (b::c::bs) = some ((c::bs).foldl (fun a d => 64*a+(d-0x80)) (payload b)) := by
  have hmid : 0x80 ≤ c ∧ c ≤ 0xBF := by
    simp only [lowest,highest] at hc
    split_ifs at hc <;> omega
  rw [getLeadingOnes_eq b hb.2,if_neg (by omega),if_neg (by omega)] at hlength
  by_cases htwo : b < 0xE0
  · rw [if_pos htwo] at hlength
    obtain rfl := List.length_eq_zero_iff.mp hlength
    rw [utf8Decode_two (by omega) hmid,if_neg (by omega),payload,if_pos htwo]
    rfl
  · rw [if_neg htwo] at hlength
    by_cases hthree : b < 0xF0
    · rw [if_pos hthree] at hlength
      obtain ⟨d,rfl⟩ := List.length_eq_one_iff.mp hlength
      rw [utf8Decode_three (by omega) hmid _ _ (hbs d List.mem_cons_self),payload,
        if_neg htwo,if_pos hthree]
      · rfl
      · rintro rfl
        exact hc.1
      · rintro rfl
        exact hc.2
    · rw [if_neg hthree] at hlength
      obtain ⟨d,e,rfl⟩ := List.length_eq_two.mp hlength
      rw [utf8Decode_four (by omega) hmid _ _ (hbs d (by simp)) (hbs e (by simp)),payload,
        if_neg htwo,if_neg hthree]
      · rfl
      · rintro rfl
        exact hc.1
      · rintro rfl
        exact hc.2

theorem lossy_alone {b : ℕ} (hb : 0x80 ≤ b ∧ b < 0xC2) (ps : List Piece) :
    lossy .start (.byte b::ps) = 0xFFFD::lossy .start ps := by
  have hne : b ≠ 0xED := by omega
  have hnone : utf8Step .start b = none := by
    simp only [utf8Step,Utf8.step,if_neg hne,if_neg (not_lt.mpr hb.1),if_pos hb.2]
  simp only [lossy,hnone]

theorem sequence_alone {b : ℕ} (hb : 0x80 ≤ b ∧ b < 0xC2) (s : JsString) :
    lossy .start (.byte b::percentDecode s) =
      (sequence b s).1++lossy .start (percentDecode (sequence b s).2) := by
  rw [lossy_alone hb]
  have hones := getLeadingOnes_eq b (by omega)
  rw [if_neg (not_lt.mpr hb.1)] at hones
  by_cases hmid : b < 0xC0
  · rw [if_pos hmid] at hones
    simp only [sequence,hones]
    rfl
  · rw [if_neg hmid,if_pos (by omega)] at hones
    obtain ⟨hnone,hsome⟩ := @collect_step b 2 [b] (by simp) s
    cases h : escape? s with
    | none =>
      simp only [sequence,hones,hnone h]
      rfl
    | some r =>
      by_cases hr : refuses b [b].length r.1 = true
      · simp only [sequence,hones,hsome r.1 r.2 h,if_pos hr]
        rfl
      · have hrange := (refuses_first b r.1).mp (Bool.eq_false_iff.mpr hr)
        rw [if_neg (by omega),if_neg (by omega),if_neg (by omega),if_neg (by omega)] at hrange
        have hdone : collect b 2 ([b]++[r.1]) r.2 = ([b,r.1],r.2) := by
          rw [collect,if_neg (by simp)]
          rfl
        have hdecode : utf8Decode [b,r.1] = none := by
          rw [utf8Decode_two (by omega) hrange,if_pos hb.2]
        simp only [sequence,hones,hsome r.1 r.2 h,if_neg hr,hdone,hdecode]
        rw [percentDecode_of_some h,lossy_alone (by omega)]
        rfl

theorem sequence_lead {b : ℕ} (hb : 0xC2 ≤ b ∧ b < 0xF5) (s : JsString) :
    lossy .start (.byte b::percentDecode s) =
      (sequence b s).1++lossy .start (percentDecode (sequence b s).2) := by
  have hones : 2 ≤ getLeadingOnes b ∧ getLeadingOnes b ≤ 4 := by
    rw [getLeadingOnes_eq b hb.2]
    split_ifs <;> omega
  rw [lossy_lead hb]
  simp only [sequence,if_neg (by omega : ¬getLeadingOnes b = 0),
    if_neg (by omega : ¬(getLeadingOnes b = 1 ∨ 4 < getLeadingOnes b))]
  obtain ⟨hlength,htext⟩ | ⟨c,bs,hcollect,hlength,hc,hbs,htext⟩ :=
    @lossy_collect b (getLeadingOnes b) (getLeadingOnes b-2) (lowest b) (highest b)
      (payload b) [b] s (by simp; omega) (by simp) (refuses_first b)
  · rw [if_pos hlength,htext]
    rfl
  · rw [if_neg (by rw [hcollect]; simp; omega),htext,hcollect]
    rw [List.singleton_append,utf8Decode_full hb hlength hc hbs]

theorem getLeadingOnes_beyond : ∀ b < 256, 0xF8 ≤ b → 4 < getLeadingOnes b := by decide +kernel

theorem lossy_beyond {b : ℕ} (hb : 0xF8 ≤ b) (ps : List Piece) :
    lossy .start (.byte b::ps) = 0xFFFD::lossy .start ps := by
  have hne : b ≠ 0xED := by omega
  have hnone : utf8Step .start b = none := by
    simp only [utf8Step,Utf8.step,if_neg hne]
    repeat rw [if_neg (by omega)]
  simp only [lossy,hnone]

theorem sequence_eq {b : ℕ} (hbyte : b < 256) (hb : b < 0xF5 ∨ 0xF8 ≤ b) (s : JsString) :
    lossy .start (.byte b::percentDecode s) =
      (sequence b s).1++lossy .start (percentDecode (sequence b s).2) := by
  by_cases hascii : b < 0x80
  · have hones : getLeadingOnes b = 0 := by rw [getLeadingOnes_eq b (by omega),if_pos hascii]
    have hne : b ≠ 0xED := by omega
    simp only [sequence,hones,lossy,utf8Step,if_neg hne,Utf8.step_start_ascii hascii]
    rfl
  · by_cases hlone : b < 0xC2
    · exact sequence_alone ⟨not_lt.mp hascii,hlone⟩ s
    · obtain hlead | hbeyond := hb
      · exact sequence_lead ⟨not_lt.mp hlone,hlead⟩ s
      · have hones : 4 < getLeadingOnes b := getLeadingOnes_beyond b hbyte hbeyond
        rw [lossy_beyond hbeyond]
        simp only [sequence,if_neg (by omega : ¬getLeadingOnes b = 0),
          if_pos (Or.inr hones : getLeadingOnes b = 1 ∨ 4 < getLeadingOnes b)]
        rfl

theorem escape?_length {s rest : JsString} {b : ℕ} (h : escape? s = some (b,rest)) :
    rest.length < s.length := by
  obtain ⟨s',rfl,-,rfl,-⟩ := escape?_some h
  rw [List.length_drop,List.length_cons]
  omega

theorem collect_suffix (lead length : ℕ) (octets : List ℕ) (s : JsString) :
    percentDecode (collect lead length octets s).2 <:+ percentDecode s := by
  induction octets, s using collect.induct lead length with
  | case1 octets s h hend => rw [collect,if_pos h,if_pos hend]
  | case2 octets s h hend hoctet => rw [collect,if_pos h,if_neg hend,hoctet]
  | case3 octets s h hend octet hoctet hrefuses =>
    rw [collect,if_pos h,if_neg hend,hoctet]
    simp only [if_pos hrefuses,List.suffix_refl]
  | case4 octets s h hend octet hoctet hrefuses ih =>
    rw [collect,if_pos h,if_neg hend,hoctet]
    simp only [if_neg hrefuses]
    push Not at hend
    have hescape : escape? s = some (octet,s.drop 3) := by rw [escape?,if_pos hend.2,hoctet]; rfl
    rw [percentDecode_of_some hescape]
    exact ih.trans (List.suffix_cons _ _)
  | case5 octets s h => rw [collect,if_neg h]

theorem sequence_suffix (octet : ℕ) (s : JsString) :
    percentDecode (sequence octet s).2 <:+ percentDecode s := by
  have hcollect := collect_suffix octet (getLeadingOnes octet) [octet] s
  simp only [sequence]
  split_ifs
  · exact List.suffix_refl _
  · exact List.suffix_refl _
  · exact hcollect
  · split <;> exact hcollect

theorem decodeFrom_eq (s : JsString)
    (h : ∀ b, Piece.byte b ∈ percentDecode s → b < 0xF5 ∨ 0xF8 ≤ b) :
    decodeFrom s = lossy .start (percentDecode s) := by
  induction hn : s.length using Nat.strong_induction_on generalizing s with
  | _ n ih =>
    subst hn
    cases hescape : escape? s with
    | none =>
      cases s with
      | nil => rw [decodeFrom,percentDecode]; rfl
      | cons u s =>
        rw [decodeFrom_of_none hescape,percentDecode_of_none hescape,
          ih s.length (Nat.lt_succ_self _) s (fun b hb => h b ?_) rfl]
        · rfl
        · rw [percentDecode_of_none hescape]
          exact List.mem_cons_of_mem _ hb
    | some r =>
      have hpieces := percentDecode_of_some hescape
      obtain ⟨-,-,-,-,hbyte⟩ := escape?_some hescape
      have hlength := (sequence_length r.1 r.2).trans_lt (escape?_length hescape)
      rw [decodeFrom_of_some hescape,hpieces,
        sequence_eq hbyte (h r.1 (hpieces ▸ List.mem_cons_self)),
        ih _ hlength _ (fun b hb => h b ?_) rfl]
      rw [hpieces]
      exact List.mem_cons_of_mem _ ((sequence_suffix r.1 r.2).subset hb)

theorem decode_eq {s : JsString} (h : InRange s) : decode s = standard s := decodeFrom_eq _ h

theorem parseQuery_eq {query : JsString}
    (h : ∀ f ∈ fields query, InRange f.1 ∧ InRange f.2) :
    parseQuery query = (fields query).map fun f => (standard f.1,standard f.2) := by
  have hparse : parseQuery query = (fields query).map fun f => (decode f.1,decode f.2) := by
    rw [parseQuery,fields,List.map_map]
    split
    · next hempty =>
      subst hempty
      rfl
    · rfl
  rw [hparse]
  refine List.map_congr_left fun f hf => ?_
  rw [decode_eq (h f hf).1,decode_eq (h f hf).2]

def entry (p : List Char × List Char) : JsString × JsString := (units p.1,units p.2)

theorem replaceFrom_plain {u : ℕ} (hu : u ≠ 37) (us : JsString) :
    replaceFrom 0 (u::us) = (replacements.lookup u).getD [u]++replaceFrom 0 us := by
  rw [replaceFrom,if_neg]
  exact fun h => hu h.1

theorem hexChar_plain : ∀ x < 16, (hexChar x).toNat ≠ 37 ∧
    replacements.lookup (hexChar x).toNat = none ∧
    ((hexChar x).toNat = 50 → x = 2) ∧ ((hexChar x).toNat = 48 → x = 0) := by decide

theorem replaceFrom_escaped {b : UInt8} (hb : b.toNat ≠ 32) (us : JsString) :
    replaceFrom 0 (escaped b++us) = escaped b++replaceFrom 0 us := by
  have hlt := UInt8.toNat_lt b
  obtain ⟨hx,hxl,hx2,-⟩ := hexChar_plain (b.toNat/16) (by omega)
  obtain ⟨hy,hyl,-,hy0⟩ := hexChar_plain (b.toNat % 16) (by omega)
  have hspace : ¬((37 : ℕ) = 37 ∧ List.take 2
      ((hexChar (b.toNat/16)).toNat::(hexChar (b.toNat % 16)).toNat::us) = [50,48]) := by
    rintro ⟨-,htake⟩
    obtain ⟨htwo,hrest⟩ := List.cons.inj htake
    have hhigh := hx2 htwo
    have hlow := hy0 (List.cons.inj hrest).1
    omega
  rw [JsText.escaped_eq]
  simp only [List.cons_append,List.nil_append]
  rw [replaceFrom,if_neg hspace,replaceFrom_plain hx,hxl,replaceFrom_plain hy,hyl]
  rfl

theorem replaceFrom_escapes {bs : Bytes} (hbs : ∀ b ∈ bs, b.toNat ≠ 32) (us : JsString) :
    replaceFrom 0 (bs.flatMap escaped++us) = bs.flatMap escaped++replaceFrom 0 us := by
  induction bs with
  | nil => rfl
  | cons b bs ih =>
    obtain ⟨hb,hbs⟩ := List.forall_mem_cons.mp hbs
    rw [List.flatMap_cons,List.append_assoc,replaceFrom_escaped hb,ih hbs,List.append_assoc]

theorem ascii_written : ∀ n < 128, n ≠ 32 →
    (unreserved (Char.ofNat n) = true →
      n ≠ 37 ∧ (replacements.lookup n).getD [n] = written (Char.ofNat n)) ∧
    (unreserved (Char.ofNat n) = false → written (Char.ofNat n) = escaped n.toUInt8) := by
  decide +kernel

theorem replaceFrom_char (c : Char) (us : JsString) :
    replaceFrom 0
      (units (if unreserved c then [c] else (String.utf8EncodeChar c).flatMap percent)++us) =
      written c++replaceFrom 0 us := by
  by_cases hwide : 128 ≤ c.toNat
  · have hreserved : ¬unreserved c = true := fun h => by
      have hascii := (BodyBytes.unreserved_ascii h).1
      omega
    have hbytes : (String.utf8EncodeChar c).flatMap UrlencodedForm.serializeByte =
        (String.utf8EncodeChar c).flatMap percent :=
      List.flatMap_congr fun b hb =>
        UrlencodedForm.serializeByte_wide (UrlencodedForm.bytes_wide hwide b hb)
    rw [if_neg hreserved,written,hbytes,UrlencodedForm.units_percents]
    refine replaceFrom_escapes (fun b hb => ?_) us
    have hbyte := UrlencodedForm.bytes_wide hwide b hb
    omega
  · have hascii : c.toNat < 128 := by omega
    by_cases hspace : c = ' '
    · subst hspace
      have hleft : units (if unreserved ' ' then [' '] else
          (String.utf8EncodeChar ' ').flatMap percent) = [37,50,48] := by decide +kernel
      have hright : written ' ' = [43] := by decide +kernel
      rw [hleft,hright]
      rfl
    · have hne : c.toNat ≠ 32 := fun h => hspace (Char.toNat_inj.mp h)
      obtain ⟨hplain,hescaped⟩ := ascii_written c.toNat hascii hne
      rw [Char.ofNat_toNat] at hplain hescaped
      by_cases hunreserved : unreserved c = true
      · obtain ⟨hpercent,hwritten⟩ := hplain hunreserved
        rw [if_pos hunreserved,BodyBytes.units_cons_ascii hascii,← hwritten]
        exact replaceFrom_plain hpercent us
      · have hbyte : c.toNat.toUInt8.toNat = c.toNat := JsText.toNat_ofNat (by omega)
        rw [if_neg hunreserved,hescaped (Bool.eq_false_iff.mpr hunreserved),
          BodyBytes.utf8EncodeChar_ascii hascii,List.flatMap_singleton]
        refine replaceFrom_escaped ?_ us
        rw [hbyte]
        exact hne

theorem encode_eq (s : JsString) :
    encode s = (chars s).map fun cs => units (UrlencodedForm.serializeText cs) := by
  have htext (cs : List Char) :
      replaceFrom 0 (units (encodeURIComponent cs)) = units (UrlencodedForm.serializeText cs) := by
    rw [UrlencodedForm.units_serializeText]
    induction cs with
    | nil => rfl
    | cons c cs ih =>
      rw [encodeURIComponent,List.flatMap_cons,BodyBytes.units_append,replaceFrom_char,
        List.flatMap_cons]
      exact congrArg (written c++·) ih
  rw [encode]
  simp only [htext]

theorem encodeEntry_entry (p : List Char × List Char) :
    encodeEntry (entry p) = some (units (UrlencodedForm.serializePair p)) := by
  rw [encodeEntry,entry,encode_eq,encode_eq,JsText.chars_units,JsText.chars_units,
    UrlencodedForm.units_serializePair]
  rfl

theorem encodeEntry_eq_none (e : JsString × JsString) :
    encodeEntry e = none ↔ chars e.1 = none ∨ chars e.2 = none := by
  rw [encodeEntry,encode_eq,encode_eq]
  cases chars e.1 <;> cases chars e.2 <;> simp

theorem serialize_eq_none (entries : Entries) :
    serialize entries = none ↔ ∃ e ∈ entries, chars e.1 = none ∨ chars e.2 = none := by
  have hmap : entries.mapM encodeEntry = none ↔ ∃ e ∈ entries, encodeEntry e = none := by
    induction entries with
    | nil => simp
    | cons e es ih =>
      rw [List.mapM_cons,List.exists_mem_cons_iff,← ih]
      cases encodeEntry e <;> cases es.mapM encodeEntry <;> simp
  rw [serialize,Option.map_eq_none_iff]
  simp only [← encodeEntry_eq_none]
  exact hmap

theorem serialize_entries (pairs : List (List Char × List Char)) :
    serialize (pairs.map entry) = some (units (UrlencodedForm.serialize pairs)) := by
  have hmap : (pairs.map entry).mapM encodeEntry =
      some ((pairs.map UrlencodedForm.serializePair).map units) := by
    induction pairs with
    | nil => rfl
    | cons p ps ih =>
      rw [List.map_cons,List.mapM_cons,encodeEntry_entry,ih]
      rfl
  rw [UrlencodedForm.serialize,UrlencodedForm.units_intercalate]
  exact congrArg (Option.map fun parts => [38].intercalate parts) hmap

theorem lossy_char (c : Char) (ps : List Piece) :
    lossy .start ((String.utf8EncodeChar c).map (fun b => .byte b.toNat)++ps) =
      Utf8.units c.toNat++lossy .start ps := by
  have hvalid : c.toNat < 0xd800 ∨ (0xdfff < c.toNat ∧ c.toNat < 0x110000) := c.valid
  have hval : c.val.toNat = c.toNat := rfl
  simp only [String.utf8EncodeChar,hval]
  split
  · next hone =>
    have hne : c.toNat ≠ 0xED := by omega
    simp only [List.map_cons,List.map_nil,List.cons_append,List.nil_append]
    rw [JsText.toNat_ofNat (by omega),BodyBytes.units_ascii (by omega)]
    simp only [lossy,utf8Step,if_neg hne,Utf8.step_start_ascii (by omega : c.toNat < 0x80)]
  · split
    · next htwo =>
      simp only [List.map_cons,List.map_nil,List.cons_append,List.nil_append]
      rw [JsText.toNat_ofNat (by omega),JsText.toNat_ofNat (by omega),lossy_lead (by omega),
        getLeadingOnes_eq _ (by omega),if_neg (by omega),if_neg (by omega),if_pos (by omega),
        lossy_last,payload,if_pos (by omega)]
      · refine congrArg (fun n => Utf8.units n++lossy .start ps) ?_
        omega
      · simp only [lowest,highest]
        split_ifs <;> omega
    · split
      · next hthree =>
        simp only [List.map_cons,List.map_nil,List.cons_append,List.nil_append]
        rw [JsText.toNat_ofNat (by omega),JsText.toNat_ofNat (by omega),
          JsText.toNat_ofNat (by omega),lossy_lead (by omega),
          getLeadingOnes_eq _ (by omega),if_neg (by omega),if_neg (by omega),if_neg (by omega),
          if_pos (by omega),lossy_more,lossy_last (by omega),payload,if_neg (by omega),
          if_pos (by omega)]
        · refine congrArg (fun n => Utf8.units n++lossy .start ps) ?_
          omega
        · simp only [lowest,highest]
          split_ifs <;> omega
      · next hfour =>
        simp only [List.map_cons,List.map_nil,List.cons_append,List.nil_append]
        rw [JsText.toNat_ofNat (by omega),JsText.toNat_ofNat (by omega),
          JsText.toNat_ofNat (by omega),JsText.toNat_ofNat (by omega),lossy_lead (by omega),
          getLeadingOnes_eq _ (by omega),if_neg (by omega),if_neg (by omega),if_neg (by omega),
          if_neg (by omega),lossy_more,lossy_more (by omega),lossy_last (by omega),payload,
          if_neg (by omega),if_neg (by omega)]
        · refine congrArg (fun n => Utf8.units n++lossy .start ps) ?_
          omega
        · simp only [lowest,highest]
          split_ifs <;> omega

theorem bytes_inRange (c : Char) : ∀ b ∈ String.utf8EncodeChar c, b.toNat < 0xF5 := by
  have hvalid : c.toNat < 0xd800 ∨ (0xdfff < c.toNat ∧ c.toNat < 0x110000) := c.valid
  have hval : c.val.toNat = c.toNat := rfl
  intro b hb
  simp only [String.utf8EncodeChar,hval] at hb
  split_ifs at hb
  all_goals
    simp only [List.mem_cons,List.not_mem_nil,or_false] at hb
  · rw [hb,JsText.toNat_ofNat (by omega)]
    omega
  · rcases hb with rfl | rfl <;> rw [JsText.toNat_ofNat (by omega)] <;> omega
  · rcases hb with rfl | rfl | rfl <;> rw [JsText.toNat_ofNat (by omega)] <;> omega
  · rcases hb with rfl | rfl | rfl | rfl <;> rw [JsText.toNat_ofNat (by omega)] <;> omega

theorem percentDecode_escapes (bs : Bytes) (us : JsString) :
    percentDecode (bs.flatMap escaped++us) =
      bs.map (fun b => .byte b.toNat)++percentDecode us := by
  induction bs with
  | nil => rfl
  | cons b bs ih =>
    have hb := UInt8.toNat_lt b
    obtain ⟨-,-,-,hx⟩ := BodyBytes.hexChar_toNat (b.toNat/16) (by omega)
    obtain ⟨-,-,-,hy⟩ := BodyBytes.hexChar_toNat (b.toNat % 16) (by omega)
    have hescape : escape? (escaped b++(bs.flatMap escaped++us)) =
        some (b.toNat,bs.flatMap escaped++us) := by
      have hvalue : 16*(b.toNat/16)+b.toNat % 16 = b.toNat := by omega
      rw [JsText.escaped_eq,escape?]
      simp only [List.cons_append,List.nil_append,List.head?_cons,if_true,List.drop_succ_cons,
        List.drop_zero,parseHexOctet,hx,hy,Option.bind_some,Option.map_some,hvalue]
    rw [List.flatMap_cons,List.append_assoc,percentDecode_of_some hescape,ih]
    rfl

theorem spaces_escapes (bs : Bytes) : spaces (bs.flatMap escaped) = bs.flatMap escaped := by
  rw [spaces]
  refine (List.map_congr_left fun u hu => if_neg ?_).trans (List.map_id' _)
  rintro rfl
  obtain ⟨b,-,hb⟩ := List.mem_flatMap.mp hu
  exact UrlencodedForm.notMem_escaped (by decide) rfl b hb

theorem percentDecode_written (c : Char) (us : JsString) :
    percentDecode (spaces (written c)++us) = .unit c.toNat::percentDecode us ∧
      c.toNat < 128 ∨
    percentDecode (spaces (written c)++us) =
      (String.utf8EncodeChar c).map (fun b => .byte b.toNat)++percentDecode us := by
  obtain ⟨hunit,hascii,hne,-,-⟩ | ⟨hescapes,-⟩ := UrlencodedForm.written_cases c
  · have hspaces : spaces (written c) = [c.toNat] := by
      rw [hunit]
      by_cases hspace : c = ' '
      · subst hspace
        rfl
      · have hplus : UrlencodedForm.plus c = c := if_neg hspace
        rw [hplus] at hunit ⊢
        have hne : c.toNat ≠ 43 := fun h => by
          obtain rfl : c = '+' := Char.toNat_inj.mp h
          revert hunit
          decide +kernel
        simp only [spaces,List.map_cons,List.map_nil,if_neg hne]
    have hpercent : c.toNat ≠ 37 := fun h => by
      have hplus : UrlencodedForm.plus c = c := if_neg fun hc => by
        rw [hc] at h
        exact absurd h (by decide)
      exact hne (hplus.symm ▸ h)
    have hbound : c.toNat < 128 := by
      by_cases hspace : c = ' '
      · subst hspace
        decide
      · rw [UrlencodedForm.plus,if_neg hspace] at hascii
        exact hascii
    refine .inl ⟨?_,hbound⟩
    rw [hspaces,List.singleton_append,percentDecode_of_none]
    rw [escape?,if_neg]
    exact fun h => hpercent (Option.some.inj h)
  · exact .inr (by rw [hescapes,spaces_escapes,percentDecode_escapes])

theorem spaces_append (s t : JsString) : spaces (s++t) = spaces s++spaces t := List.map_append

theorem standard_written (s : List Char) :
    InRange (units (UrlencodedForm.serializeText s)) ∧
      standard (units (UrlencodedForm.serializeText s)) = units s := by
  rw [UrlencodedForm.units_serializeText,InRange,standard]
  induction s with
  | nil =>
    refine ⟨fun b hb => ?_,?_⟩
    · rw [List.flatMap_nil,spaces,List.map_nil,percentDecode] at hb
      cases hb
    · rw [List.flatMap_nil,spaces,List.map_nil,percentDecode]
      rfl
  | cons c s ih =>
    rw [List.flatMap_cons,spaces_append]
    obtain ⟨hunit,hascii⟩ | hbytes := percentDecode_written c (spaces (s.flatMap written))
    · rw [hunit]
      refine ⟨fun b hb => ?_,?_⟩
      · obtain hb | hb := List.mem_cons.mp hb
        · cases hb
        · exact ih.1 b hb
      · rw [BodyBytes.units_cons_ascii hascii,lossy,ih.2]
    · rw [hbytes]
      refine ⟨fun b hb => ?_,?_⟩
      · obtain hb | hb := List.mem_append.mp hb
        · obtain ⟨x,hx,he⟩ := List.mem_map.mp hb
          cases he
          exact .inl (bytes_inRange c x hx)
        · exact ih.1 b hb
      · rw [lossy_char,ih.2]
        rfl

theorem fields_serialize (pairs : List (List Char × List Char)) :
    fields (units (UrlencodedForm.serialize pairs)) =
      pairs.map fun p =>
        (units (UrlencodedForm.serializeText p.1),units (UrlencodedForm.serializeText p.2)) := by
  rw [fields,UrlencodedForm.parts_serialize,List.map_map]
  refine List.map_congr_left fun p _ => ?_
  obtain ⟨hname,hvalue⟩ := UrlencodedForm.cut_serializePair p
  simp only [Function.comp_apply,hname,hvalue,List.drop_succ_cons,List.drop_zero]

theorem question_notMem (s : List Char) : 63 ∉ units (UrlencodedForm.serializeText s) := by
  rw [UrlencodedForm.units_serializeText]
  intro h
  obtain ⟨c,-,hc⟩ := List.mem_flatMap.mp h
  obtain ⟨hunit,-⟩ | ⟨hescapes,-⟩ := UrlencodedForm.written_cases c
  · rw [hunit,List.mem_singleton] at hc
    have hplus : UrlencodedForm.plus c = c := if_neg fun hspace => by
      subst hspace
      exact absurd hc (by decide)
    obtain rfl : c = '?' := Char.toNat_inj.mp (hplus ▸ hc.symm)
    revert hunit
    decide +kernel
  · rw [hescapes] at hc
    obtain ⟨b,-,hb⟩ := List.mem_flatMap.mp hc
    exact UrlencodedForm.notMem_escaped (by decide) rfl b hb

/-- What is written does not begin with the question mark that `ofString` would leave out. -/
theorem serialize_head (pairs : List (List Char × List Char)) :
    (units (UrlencodedForm.serialize pairs)).head? ≠ some 63 := by
  cases pairs with
  | nil => exact fun h => by cases h
  | cons p ps =>
    obtain ⟨rest,hrest⟩ : ∃ rest, units (UrlencodedForm.serialize (p::ps)) =
        units (UrlencodedForm.serializeText p.1)++61::rest := by
      rw [UrlencodedForm.serialize,List.map_cons]
      cases ps with
      | nil =>
        rw [List.map_nil,List.intercalate_singleton,UrlencodedForm.units_serializePair]
        exact ⟨_,rfl⟩
      | cons q qs =>
        rw [List.map_cons,List.intercalate_cons_cons,List.append_assoc,BodyBytes.units_append,
          UrlencodedForm.units_serializePair,List.append_assoc]
        exact ⟨_,rfl⟩
    rw [hrest]
    have hnot := question_notMem p.1
    cases hname : units (UrlencodedForm.serializeText p.1) with
    | nil => exact fun h => by cases h
    | cons u us =>
      rw [hname] at hnot
      exact fun h => hnot (Option.some.inj h ▸ List.mem_cons_self)

theorem ofString_serialize (pairs : List (List Char × List Char)) :
    ofString (units (UrlencodedForm.serialize pairs)) = pairs.map entry ∧
      ofString (63::units (UrlencodedForm.serialize pairs)) = pairs.map entry := by
  have hparse : parseQuery (units (UrlencodedForm.serialize pairs)) = pairs.map entry := by
    rw [parseQuery_eq,fields_serialize,List.map_map]
    · refine List.map_congr_left fun p _ => ?_
      simp only [Function.comp_apply,(standard_written p.1).2,(standard_written p.2).2,entry]
    · rw [fields_serialize]
      intro f hf
      obtain ⟨p,-,rfl⟩ := List.mem_map.mp hf
      exact ⟨(standard_written p.1).1,(standard_written p.2).1⟩
  have hhead := serialize_head pairs
  exact ⟨by rw [ofString,if_neg hhead,hparse],by rw [ofString,if_pos List.head?_cons]; exact hparse⟩

/-- The text of a `URLSearchParams`. A query without lone surrogates is cut into the fields of the
URL Standard and each is decoded as the Standard decodes it, replacement characters included,
unless an octet that could only start a character beyond U+10FFFF is escaped in it. What `toString` writes is the
standard serialization, which a constructor reads back, with a question mark before it or not;
there is none exactly when a lone surrogate stands in a key or a value. -/
theorem search_params_text :
    (∀ query, chars query ≠ none → (∀ f ∈ fields query, InRange f.1 ∧ InRange f.2) →
      parseQuery query = (fields query).map fun f => (standard f.1,standard f.2)) ∧
    (∀ pairs, serialize (pairs.map entry) = some (units (UrlencodedForm.serialize pairs)) ∧
      ofString (units (UrlencodedForm.serialize pairs)) = pairs.map entry ∧
      ofString (63::units (UrlencodedForm.serialize pairs)) = pairs.map entry) ∧
    ∀ entries, serialize entries = none ↔
      ∃ e ∈ entries, chars e.1 = none ∨ chars e.2 = none :=
  ⟨fun _ _ h => parseQuery_eq h,
    fun pairs => ⟨serialize_entries pairs,ofString_serialize pairs⟩,
    serialize_eq_none⟩

theorem search_params_text_sample :
    parseQuery (js "a=%C3+b") = [(js "a",[0xFFFD,32,98])] := by
  have hfields : fields (js "a=%C3+b") = [(js "a",js "%C3+b")] := by decide +kernel
  have hplain : percentDecode (spaces (js "a")) = [.unit 97] := by
    have htext : spaces (js "a") = [97] := by decide +kernel
    rw [htext,percentDecode_of_none rfl,percentDecode]
  have hescape : percentDecode (spaces (js "%C3+b")) = [.byte 0xC3,.unit 32,.unit 98] := by
    have htext : spaces (js "%C3+b") = [37,67,51,32,98] := by decide +kernel
    have hfirst : escape? [37,67,51,32,98] = some (0xC3,[32,98]) := rfl
    rw [htext,percentDecode_of_some hfirst,percentDecode_of_none rfl,percentDecode_of_none rfl,
      percentDecode]
  have hrange : ∀ f ∈ fields (js "a=%C3+b"), InRange f.1 ∧ InRange f.2 := by
    rw [hfields]
    simp [InRange,hplain,hescape]
  rw [search_params_text.1 (js "a=%C3+b") (by decide +kernel) hrange,hfields,List.map_singleton,standard,standard,
    hplain,hescape]
  rfl

end SearchParamsText
end AsioQuickjs
