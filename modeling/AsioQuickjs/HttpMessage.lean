import Mathlib.Data.List.DropRight
import Mathlib.Tactic.IntervalCases
import AsioQuickjs.Bytes

/-! HTTP/1.1 responses as a client reads them off a connection: the head split into lines,
the fields of the head, and the body they frame. What cannot be read as a message, or not
in one way only, is refused. -/
namespace AsioQuickjs
namespace HttpMessage

def numeral (base n : ℕ) : Bytes := (Nat.toDigits base n).map fun c => c.toNat.toUInt8

def digitVal (b : UInt8) : Option ℕ :=
  if 48 ≤ b ∧ b ≤ 57 then some (b.toNat-48)
  else if 97 ≤ b ∧ b ≤ 102 then some (b.toNat-87)
  else if 65 ≤ b ∧ b ≤ 70 then some (b.toNat-55)
  else none

def readDigits (base : ℕ) : ℕ → Bytes → Option ℕ
  | n, [] => some n
  | n, b::bs =>
    match digitVal b with
    | some d => if d < base then readDigits base (base*n+d) bs else none
    | none => none

def readNumber (base : ℕ) (bs : Bytes) : Option ℕ :=
  if bs = [] then none else readDigits base 0 bs

theorem readDigits_append {base n m : ℕ} {xs : Bytes} (h : readDigits base n xs = some m)
    (ys : Bytes) : readDigits base n (xs++ys) = readDigits base m ys := by
  induction xs generalizing n with
  | nil =>
    obtain rfl : n = m := Option.some.inj h
    rfl
  | cons b xs ih =>
    simp only [readDigits,List.cons_append] at h ⊢
    split at h
    · split at h
      · next hlt => simpa only [hlt,if_true] using ih h
      · cases h
    · cases h

theorem digitVal_digitChar {d : ℕ} (h : d < 16) :
    digitVal (Nat.digitChar d).toNat.toUInt8 = some d := by
  interval_cases d <;> decide

theorem readDigits_numeral {base : ℕ} (hb : 1 < base) (hb' : base ≤ 16) (n : ℕ) :
    readDigits base 0 (numeral base n) = some n := by
  induction n using Nat.strong_induction_on with
  | _ n ih =>
    by_cases hn : n < base
    · rw [numeral,Nat.toDigits_of_lt_base hn]
      simp [readDigits,digitVal_digitChar (Nat.lt_of_lt_of_le hn hb'),hn]
    · have hdiv : n/base < n := Nat.div_lt_self (by omega) hb
      have hmod : n % base < base := Nat.mod_lt n (by omega)
      have hsplit : numeral base n =
          numeral base (n/base)++[(Nat.digitChar (n % base)).toNat.toUInt8] := by
        simp [numeral,Nat.toDigits_of_base_le hb (Nat.le_of_not_lt hn)]
      rw [hsplit,readDigits_append (ih _ hdiv)]
      simp [readDigits,digitVal_digitChar (Nat.lt_of_lt_of_le hmod hb'),hmod,Nat.div_add_mod]

theorem numeral_ne_nil (base n : ℕ) : numeral base n ≠ [] := by
  simp [numeral,Nat.toDigits_ne_nil]

theorem readNumber_numeral {base : ℕ} (hb : 1 < base) (hb' : base ≤ 16) (n : ℕ) :
    readNumber base (numeral base n) = some n := by
  rw [readNumber,if_neg (numeral_ne_nil base n),readDigits_numeral hb hb']

theorem digits_of_readDigits {base n m : ℕ} {bs : Bytes} (h : readDigits base n bs = some m) :
    ∀ b ∈ bs, (digitVal b).isSome := by
  induction bs generalizing n with
  | nil => simp
  | cons b bs ih =>
    simp only [readDigits] at h
    split at h
    · next hd =>
      split at h
      · intro c hc
        rcases List.mem_cons.mp hc with rfl | hc
        · simp [hd]
        · exact ih h c hc
      · cases h
    · cases h

def crlf : Bytes := [13,10]

def isFieldChar (b : UInt8) : Bool := b = 9 || (32 ≤ b && b ≠ 127)

def isTokenChar (b : UInt8) : Bool :=
  (48 ≤ b && b ≤ 57) || (65 ≤ b && b ≤ 90) || (97 ≤ b && b ≤ 122) ||
    [33,35,36,37,38,39,42,43,45,46,94,95,96,124,126].contains b

def isBlank (b : UInt8) : Bool := b = 32 || b = 9

def trim (v : Bytes) : Bytes := (v.dropWhile isBlank).rdropWhile isBlank

/-- The lines up to the first empty one, and what comes behind it. A carriage return or a
line feed on its own belongs to no line. -/
def splitHead (line : Bytes) : Bytes → Option (List Bytes × Bytes)
  | 13::10::rest =>
    if line = [] then some ([],rest)
    else (splitHead [] rest).map fun p => (line::p.1,p.2)
  | b::rest => if b = 13 ∨ b = 10 then none else splitHead (line++[b]) rest
  | [] => none

def readStatusLine (line : Bytes) : Option (ℕ × Bytes) :=
  if ascii "HTTP/1.1 " <+: line then
    match readNumber 10 ((line.drop 9).take 3), (line.drop 9).drop 3 with
    | some status, 32::reason => if reason.all isFieldChar then some (status,reason) else none
    | _, _ => none
  else none

def readField (line : Bytes) : Option (Bytes × Bytes) :=
  match line.takeWhile (· ≠ 58), line.dropWhile (· ≠ 58) with
  | name, _::v =>
    if name ≠ [] ∧ name.all isTokenChar ∧ v.all isFieldChar then some (name,trim v) else none
  | _, [] => none

/-- The lines of a head, each with its end, and the empty line behind them. -/
def renderHead (lines : List Bytes) : Bytes := lines.flatMap (·++crlf)++crlf

def statusLine (status reason : Bytes) : Bytes := ascii "HTTP/1.1 "++(status++32::reason)

def fieldLine (f : Bytes × Bytes) : Bytes := f.1++58::32::f.2

/-- A line that can stand in a head. -/
def Clean (line : Bytes) : Prop := line ≠ [] ∧ ∀ b ∈ line, b ≠ 13 ∧ b ≠ 10

/-- A field that a line can hold. -/
structure WellFormed (f : Bytes × Bytes) : Prop where
  name_ne_nil : f.1 ≠ []
  name_token : ∀ b ∈ f.1, isTokenChar b
  value_chars : ∀ b ∈ f.2, isFieldChar b
  value_trim : trim f.2 = f.2

theorem splitHead_line {acc line rest : Bytes} (h : ∀ b ∈ line, b ≠ 13 ∧ b ≠ 10)
    (hne : acc++line ≠ []) :
    splitHead acc (line++(crlf++rest)) =
      (splitHead [] rest).map fun p => ((acc++line)::p.1,p.2) := by
  induction line generalizing acc with
  | nil =>
    rw [List.append_nil] at hne
    simp [splitHead,crlf,hne]
  | cons b line ih =>
    have hb := h b List.mem_cons_self
    have hstep : splitHead acc (b::(line++(crlf++rest))) =
        splitHead (acc++[b]) (line++(crlf++rest)) := by
      rw [splitHead]
      · rw [if_neg (not_or.mpr hb)]
      · exact fun _ h13 => absurd h13 hb.1
    rw [List.cons_append,hstep,ih (fun c hc => h c (List.mem_cons_of_mem b hc)) (by simp)]
    simp

theorem splitHead_renderHead {lines : List Bytes} (h : ∀ l ∈ lines, Clean l) (rest : Bytes) :
    splitHead [] (renderHead lines++rest) = some (lines,rest) := by
  induction lines with
  | nil => simp [renderHead,crlf,splitHead]
  | cons l lines ih =>
    have hl := h l List.mem_cons_self
    have hsplit : renderHead (l::lines)++rest = l++(crlf++(renderHead lines++rest)) := by
      simp [renderHead]
    rw [hsplit,splitHead_line hl.2 (by simpa using hl.1),
      ih fun k hk => h k (List.mem_cons_of_mem l hk)]
    simp

theorem isFieldChar_clean {b : UInt8} (h : isFieldChar b) : b ≠ 13 ∧ b ≠ 10 := by
  constructor <;> rintro rfl <;> exact absurd h (by decide)

theorem isTokenChar_clean {b : UInt8} (h : isTokenChar b) : b ≠ 13 ∧ b ≠ 10 ∧ b ≠ 58 := by
  refine ⟨?_,?_,?_⟩ <;> rintro rfl <;> exact absurd h (by decide)

theorem digitVal_clean {b : UInt8} (h : (digitVal b).isSome) : b ≠ 13 ∧ b ≠ 10 ∧ b ≠ 32 := by
  refine ⟨?_,?_,?_⟩ <;> rintro rfl <;> exact absurd h (by decide)

theorem digit_fieldChar {b : UInt8} (h : (digitVal b).isSome) : isFieldChar b ∧ ¬ isBlank b := by
  have hrange : 48 ≤ b.toNat ∧ b.toNat ≤ 102 := by
    simp only [digitVal,UInt8.le_iff_toNat_le] at h
    split at h
    · next hb => exact ⟨hb.1,hb.2.trans (by decide)⟩
    · split at h
      · next hb => exact ⟨le_trans (by decide) hb.1,hb.2⟩
      · split at h
        · next hb => exact ⟨le_trans (by decide) hb.1,hb.2.trans (by decide)⟩
        · cases h
  have hne : ∀ c : UInt8, c.toNat < 48 ∨ 102 < c.toNat → b ≠ c := by
    rintro c hc rfl
    omega
  have h32 : 32 ≤ b := UInt8.le_iff_toNat_le.mpr (le_trans (by decide) hrange.1)
  simp [isFieldChar,isBlank,hne 9 (by decide),hne 32 (by decide),hne 127 (by decide),h32]

theorem WellFormed.clean {f : Bytes × Bytes} (h : WellFormed f) : Clean (fieldLine f) := by
  refine ⟨by simp [fieldLine],fun b hb => ?_⟩
  simp only [fieldLine,List.mem_append,List.mem_cons] at hb
  rcases hb with hb | rfl | rfl | hb
  · exact ⟨(isTokenChar_clean (h.name_token b hb)).1,(isTokenChar_clean (h.name_token b hb)).2.1⟩
  · decide
  · decide
  · exact isFieldChar_clean (h.value_chars b hb)

theorem trim_cons_space (v : Bytes) : trim (32::v) = trim v := by
  simp [trim,isBlank]

theorem dropWhile_rdropWhile {v : Bytes} (h : ∀ b ∈ v.head?, ¬ isBlank b) :
    (v.rdropWhile isBlank).dropWhile isBlank = v.rdropWhile isBlank := by
  obtain ⟨w,hw⟩ := List.rdropWhile_prefix isBlank v
  cases hv : v.rdropWhile isBlank with
  | nil => rfl
  | cons b rest =>
    rw [hv] at hw
    have hb : ¬ isBlank b := h b (by rw [← hw]; rfl)
    rw [List.dropWhile_cons_of_neg hb]

theorem trim_trim (v : Bytes) : trim (trim v) = trim v := by
  have hhead : ∀ b ∈ (v.dropWhile isBlank).head?, ¬ isBlank b := by
    intro b hb
    have hnot := List.head?_dropWhile_not isBlank v
    rw [Option.mem_def.mp hb] at hnot
    simpa using hnot
  rw [trim,trim,dropWhile_rdropWhile hhead,List.rdropWhile_idempotent]

theorem mem_of_mem_trim {v : Bytes} {b : UInt8} (h : b ∈ trim v) : b ∈ v :=
  (List.dropWhile_suffix isBlank).subset ((List.rdropWhile_prefix isBlank _).subset h)

theorem readField_fieldLine {f : Bytes × Bytes} (h : WellFormed f) :
    readField (fieldLine f) = some f := by
  obtain ⟨name,v⟩ := f
  have hcolon : ∀ b ∈ name, decide (b ≠ 58) = true := fun b hb =>
    decide_eq_true (isTokenChar_clean (h.name_token b hb)).2.2
  have htake : (name++58::32::v).takeWhile (· ≠ 58) = name := by
    rw [List.takeWhile_append_of_pos hcolon]
    simp
  have hdrop : (name++58::32::v).dropWhile (· ≠ 58) = 58::32::v := by
    rw [List.dropWhile_append_of_pos hcolon]
    simp
  have hchars : (32::v).all isFieldChar := by
    simpa [isFieldChar] using h.value_chars
  have hname : name.all isTokenChar := List.all_eq_true.mpr h.name_token
  simp only [readField,fieldLine,htake,hdrop]
  rw [if_pos ⟨h.name_ne_nil,hname,hchars⟩,trim_cons_space,h.value_trim]

theorem wellFormed_of_readField {line : Bytes} {f : Bytes × Bytes}
    (h : readField line = some f) : WellFormed f := by
  simp only [readField] at h
  split at h
  · next name v _ =>
    split at h
    · next hline =>
      obtain rfl := Option.some.inj h
      exact
        { name_ne_nil := hline.1
          name_token := List.all_eq_true.mp hline.2.1
          value_chars := fun b hb => List.all_eq_true.mp hline.2.2 b (mem_of_mem_trim hb)
          value_trim := trim_trim _ }
    · cases h
  · cases h

theorem readNumber_isSome {base n : ℕ} {bs : Bytes} (h : readNumber base bs = some n) :
    ∀ b ∈ bs, (digitVal b).isSome := by
  rw [readNumber] at h
  split at h
  · cases h
  · exact digits_of_readDigits h

theorem readStatusLine_statusLine {digits reason r : Bytes} {n : ℕ}
    (hd : ∀ b ∈ digits, b ≠ 32) :
    readStatusLine (statusLine digits reason) = some (n,r) ↔
      digits.length = 3 ∧ readNumber 10 digits = some n ∧ (∀ b ∈ reason, isFieldChar b) ∧
        r = reason := by
  have hdrop : (statusLine digits reason).drop 9 = digits++32::reason := rfl
  have hstart : ascii "HTTP/1.1 " <+: statusLine digits reason := List.prefix_append _ _
  rw [readStatusLine,if_pos hstart,hdrop]
  rcases lt_trichotomy digits.length 3 with hlt | heq | hgt
  · -- the blank falls among the digits
    have hmem : (32 : UInt8) ∈ (digits++32::reason).take 3 := by
      rw [List.take_append]
      obtain ⟨k,hk⟩ : ∃ k, 3-digits.length = k+1 := ⟨2-digits.length,by omega⟩
      simp [hk]
    have hnone : readNumber 10 ((digits++32::reason).take 3) = none := by
      cases hread : readNumber 10 ((digits++32::reason).take 3) with
      | none => rfl
      | some n => exact absurd rfl (digitVal_clean (readNumber_isSome hread _ hmem)).2.2
    simp [hnone,hlt.ne]
  · rw [List.take_left' heq,List.drop_left' heq]
    cases hread : readNumber 10 digits with
    | none => simp
    | some k =>
      by_cases hreason : reason.all isFieldChar
      · have hchars : ∀ b ∈ reason, isFieldChar b := List.all_eq_true.mp hreason
        simp only [hreason,if_true,heq,Option.some.injEq,Prod.mk.injEq,true_and]
        rw [@eq_comm _ reason r]
        exact ⟨fun ⟨hk,hr⟩ => ⟨hk,hchars,hr⟩,fun ⟨hk,_,hr⟩ => ⟨hk,hr⟩⟩
      · have hnot : ¬ ∀ b ∈ reason, isFieldChar b := fun h => hreason (List.all_eq_true.mpr h)
        simp [hreason,hnot]
  · -- a further digit stands where the blank should
    have hlen : 3 < digits.length := hgt
    have hcut : (digits++32::reason).drop 3 = digits[3]::(digits.drop 4++32::reason) := by
      rw [List.drop_append_of_le_length (by omega),List.drop_eq_getElem_cons hlen]
      rfl
    have h32 : digits[3] ≠ 32 := hd _ (List.getElem_mem hlen)
    rw [hcut]
    split
    · next heq => exact absurd (List.cons.inj heq).1 h32
    · simp [hgt.ne']

/-- Where a chunked body is: in a size, before its line feed, in the data with so much to
come, behind it, or behind the last size. -/
inductive ChunkState
  | size (digits : Bytes) | sizeLf (n : ℕ) | data (n : ℕ) | dataCr | dataLf | endCr | endLf

def dechunk : ChunkState → Bytes → Option (Bytes × Bytes)
  | .size digits, b::bs =>
    if b = 13 then
      match readNumber 16 digits with
      | some n => dechunk (.sizeLf n) bs
      | none => none
    else dechunk (.size (digits++[b])) bs
  | .sizeLf n, b::bs =>
    if b = 10 then dechunk (if n = 0 then .endCr else .data (n-1)) bs else none
  | .data n, b::bs =>
    (dechunk (if n = 0 then .dataCr else .data (n-1)) bs).map fun p => (b::p.1,p.2)
  | .dataCr, b::bs => if b = 13 then dechunk .dataLf bs else none
  | .dataLf, b::bs => if b = 10 then dechunk (.size []) bs else none
  | .endCr, b::bs => if b = 13 then dechunk .endLf bs else none
  | .endLf, b::bs => if b = 10 then some ([],bs) else none
  | _, [] => none

def chunk (data : Bytes) : Bytes := numeral 16 data.length++(crlf++(data++crlf))

theorem dechunk_digits {digits acc rest : Bytes} {n : ℕ} (h : ∀ b ∈ digits, b ≠ 13)
    (hn : readNumber 16 (acc++digits) = some n) :
    dechunk (.size acc) (digits++13::rest) = dechunk (.sizeLf n) rest := by
  induction digits generalizing acc with
  | nil =>
    rw [List.append_nil] at hn
    simp [dechunk,hn]
  | cons b digits ih =>
    have hb : b ≠ 13 := h b List.mem_cons_self
    rw [List.cons_append,dechunk,if_neg hb]
    exact ih (fun c hc => h c (List.mem_cons_of_mem b hc)) (by simpa using hn)

theorem dechunk_data {data rest : Bytes} {n : ℕ} (h : data.length = n+1) :
    dechunk (.data n) (data++rest) = (dechunk .dataCr rest).map fun p => (data++p.1,p.2) := by
  induction data generalizing n with
  | nil => cases h
  | cons b data ih =>
    rw [List.cons_append,dechunk]
    cases n with
    | zero =>
      obtain rfl := List.eq_nil_of_length_eq_zero (Nat.succ.inj h)
      rfl
    | succ n =>
      have hn : data.length = n+1 := Nat.succ.inj h
      rw [if_neg n.succ_ne_zero,Nat.add_sub_cancel,ih hn,Option.map_map]
      rfl

theorem dechunk_chunk {data : Bytes} (h : data ≠ []) (rest : Bytes) :
    dechunk (.size []) (chunk data++rest) =
      (dechunk (.size []) rest).map fun p => (data++p.1,p.2) := by
  obtain ⟨n,hn⟩ := Nat.exists_eq_succ_of_ne_zero (mt List.eq_nil_of_length_eq_zero h)
  have hread : readNumber 16 (numeral 16 data.length) = some data.length :=
    readNumber_numeral (by decide) (by decide) _
  have hclean : ∀ b ∈ numeral 16 data.length, b ≠ 13 := fun b hb =>
    (digitVal_clean (readNumber_isSome hread b hb)).1
  have hsplit : chunk data++rest = numeral 16 data.length++13::10::(data++13::10::rest) := by
    simp [chunk,crlf]
  rw [hsplit,dechunk_digits hclean hread,dechunk,if_pos rfl,hn,if_neg n.succ_ne_zero,
    Nat.succ_sub_one,dechunk_data hn]
  rfl

theorem dechunk_last (rest : Bytes) :
    dechunk (.size []) (ascii "0\r\n\r\n"++rest) = some ([],rest) := by
  have hread : readNumber 16 ([]++ascii "0") = some 0 := by decide
  have hclean : ∀ b ∈ ascii "0", b ≠ 13 := by decide
  exact dechunk_digits hclean hread

theorem dechunk_append {st : ChunkState} {bs body rest : Bytes}
    (h : dechunk st bs = some (body,rest)) (more : Bytes) :
    dechunk st (bs++more) = some (body,rest++more) := by
  induction bs generalizing st body rest with
  | nil => cases st <;> cases h
  | cons b bs ih =>
    cases st with
    | size digits =>
      rw [dechunk] at h
      rw [List.cons_append,dechunk]
      split at h
      · next hb =>
        rw [if_pos hb]
        cases hn : readNumber 16 digits with
        | none => simp [hn] at h
        | some n => exact ih (by simpa [hn] using h)
      · next hb => rw [if_neg hb]; exact ih h
    | data n =>
      rw [dechunk,Option.map_eq_some_iff] at h
      obtain ⟨p,hp,heq⟩ := h
      cases heq
      rw [List.cons_append,dechunk,ih hp]
      rfl
    | endLf =>
      rw [dechunk] at h
      rw [List.cons_append,dechunk]
      split at h
      · next hb => cases h; rw [if_pos hb]
      · cases h
    | sizeLf n | dataCr | dataLf | endCr =>
      rw [dechunk] at h
      rw [List.cons_append,dechunk]
      split at h
      · next hb => rw [if_pos hb]; exact ih h
      · cases h

theorem dechunk_not_digit {acc : Bytes} {b : UInt8} (hb : b ∈ acc) (hnot : digitVal b = none)
    (bs : Bytes) : dechunk (.size acc) bs = none := by
  induction bs generalizing acc with
  | nil => rfl
  | cons c bs ih =>
    rw [dechunk]
    split
    · split
      · next n hn =>
        have hdigit := readNumber_isSome hn b hb
        rw [hnot] at hdigit
        cases hdigit
      · rfl
    · exact ih (List.mem_append_left _ hb)

/-- The values of the fields of this name, written in small letters. -/
def valuesOf (name : Bytes) (fields : List (Bytes × Bytes)) : List Bytes :=
  (fields.filter fun f => lower f.1 = name).map Prod.snd

def bodyless (status : ℕ) : Prop := status < 200 ∨ status = 204 ∨ status = 304

instance : DecidablePred bodyless := fun _ => inferInstanceAs (Decidable (_ ∨ _))

def readBody (status : ℕ) (fields : List (Bytes × Bytes)) (bs : Bytes) :
    Option (Bytes × Bytes) :=
  if bodyless status then some ([],bs)
  else
    match valuesOf (ascii "transfer-encoding") fields, valuesOf (ascii "content-length") fields with
    | [], [] => some (bs,[])
    | [], [v] =>
      match readNumber 10 v with
      | some n => if n ≤ bs.length then some (bs.take n,bs.drop n) else none
      | none => none
    | [v], [] => if lower v = ascii "chunked" then dechunk (.size []) bs else none
    | _, _ => none

theorem valuesOf_append (name : Bytes) (fields more : List (Bytes × Bytes)) :
    valuesOf name (fields++more) = valuesOf name fields++valuesOf name more := by
  simp [valuesOf]

theorem valuesOf_eq_nil {name : Bytes} {fields : List (Bytes × Bytes)} :
    valuesOf name fields = [] ↔ ∀ f ∈ fields, lower f.1 ≠ name := by
  simp [valuesOf]

/-- A body whose length the head gives rightly is read back, if the status allows one and
nothing else frames it. -/
theorem readBody_length {status : ℕ} {fields : List (Bytes × Bytes)} {v bs : Bytes}
    (hv : valuesOf (ascii "content-length") fields = [v])
    (hlen : readNumber 10 v = some bs.length) :
    readBody status fields bs = some (bs,[]) ↔
      if bodyless status then bs = [] else valuesOf (ascii "transfer-encoding") fields = [] := by
  rw [readBody]
  split
  · simp [eq_comm]
  · rw [hv]
    cases valuesOf (ascii "transfer-encoding") fields with
    | nil => simp [hlen]
    | cons w ws => simp

/-- With a length in the head, all that follows is the body only if nothing else frames it
and there is one length, the right one. -/
theorem readBody_whole {status : ℕ} {fields : List (Bytes × Bytes)} {bs : Bytes}
    (h : valuesOf (ascii "content-length") fields ≠ []) :
    (∃ body, readBody status fields bs = some (body,[])) ↔
      if bodyless status then bs = [] else
        valuesOf (ascii "transfer-encoding") fields = [] ∧
        ∃ v, valuesOf (ascii "content-length") fields = [v] ∧
          readNumber 10 v = some bs.length := by
  constructor
  · rintro ⟨body,hbody⟩
    rw [readBody] at hbody
    split at hbody
    · next hless =>
      rw [if_pos hless]
      exact (Prod.mk.inj (Option.some.inj hbody)).2
    · next hless =>
      rw [if_neg hless]
      split at hbody
      · next hcl => exact absurd hcl h
      · next v hte hcl =>
        refine ⟨hte,v,hcl,?_⟩
        split at hbody
        · next n hn =>
          split at hbody
          · next hle =>
            have hdrop := (Prod.mk.inj (Option.some.inj hbody)).2
            rw [hn,le_antisymm hle (List.drop_eq_nil_iff.mp hdrop)]
          · cases hbody
        · cases hbody
      · next hcl => exact absurd hcl h
      · cases hbody
  · intro hframe
    by_cases hless : bodyless status
    · rw [if_pos hless] at hframe
      exact ⟨[],by rw [readBody,if_pos hless,hframe]⟩
    · rw [if_neg hless] at hframe
      obtain ⟨hte,v,hv,hlen⟩ := hframe
      exact ⟨bs,(readBody_length hv hlen).mpr (by rwa [if_neg hless])⟩

structure Message where
  status : ℕ
  reason : Bytes
  fields : List (Bytes × Bytes)
  body : Bytes
  deriving DecidableEq

def readMessage (bs : Bytes) : Option (Message × Bytes) :=
  match splitHead [] bs with
  | some (line::lines,rest) =>
    match readStatusLine line, lines.mapM readField with
    | some (status,reason), some fields =>
      (readBody status fields rest).map fun p => (⟨status,reason,fields,p.1⟩,p.2)
    | _, _ => none
  | _ => none

theorem mapM_readField {fields : List (Bytes × Bytes)} (h : ∀ f ∈ fields, WellFormed f) :
    (fields.map fieldLine).mapM readField = some fields := by
  induction fields with
  | nil => rfl
  | cons f fields ih =>
    simp [readField_fieldLine (h f List.mem_cons_self),
      ih fun g hg => h g (List.mem_cons_of_mem f hg)]

theorem wellFormed_of_mapM {lines : List Bytes} {fields : List (Bytes × Bytes)}
    (h : lines.mapM readField = some fields) : ∀ f ∈ fields, WellFormed f := by
  induction lines generalizing fields with
  | nil =>
    obtain rfl : [] = fields := Option.some.inj h
    simp
  | cons l lines ih =>
    simp only [List.mapM_cons,bind,Option.bind_eq_some_iff,pure,Option.some.injEq] at h
    obtain ⟨f,hf,fs,hfs,rfl⟩ := h
    intro g hg
    rcases List.mem_cons.mp hg with rfl | hg
    · exact wellFormed_of_readField hf
    · exact ih hfs g hg

theorem wellFormed_of_readMessage {bs tail : Bytes} {m : Message}
    (h : readMessage bs = some (m,tail)) :
    (∀ b ∈ m.reason, isFieldChar b) ∧ ∀ f ∈ m.fields, WellFormed f := by
  simp only [readMessage] at h
  split at h
  · split at h
    · next line lines rest _ _ _ _ _ hstatus hfields =>
      simp only [Option.map_eq_some_iff,Prod.mk.injEq] at h
      obtain ⟨p,-,rfl,-⟩ := h
      refine ⟨?_,wellFormed_of_mapM hfields⟩
      simp only [readStatusLine] at hstatus
      split at hstatus
      · split at hstatus
        · split at hstatus
          · next hall =>
            cases hstatus
            exact List.all_eq_true.mp hall
          · cases hstatus
        · cases hstatus
      · cases hstatus
    · cases h
  · cases h

/-- The head of a message, written out and read back. The digits of the status come from
somewhere else, but are no ends of lines and no blanks. -/
theorem readMessage_renderHead {digits reason rest tail : Bytes} {fields : List (Bytes × Bytes)}
    {m : Message} (hd : ∀ b ∈ digits, b ≠ 13 ∧ b ≠ 10 ∧ b ≠ 32) :
    (readMessage (renderHead (statusLine digits reason::fields.map fieldLine)++rest) =
        some (m,tail) ∧ m.reason = reason ∧ m.fields = fields) ↔
      (digits.length = 3 ∧ readNumber 10 digits = some m.status) ∧
      ((∀ b ∈ reason, isFieldChar b) ∧ ∀ f ∈ fields, WellFormed f) ∧
      (m.reason = reason ∧ m.fields = fields) ∧
      readBody m.status fields rest = some (m.body,tail) := by
  by_cases hwell : (∀ b ∈ reason, isFieldChar b) ∧ ∀ f ∈ fields, WellFormed f
  · have hclean : ∀ l ∈ statusLine digits reason::fields.map fieldLine, Clean l := by
      intro l hl
      rcases List.mem_cons.mp hl with rfl | hl
      · refine ⟨by simp [statusLine],fun b hb => ?_⟩
        simp only [statusLine,List.mem_append,List.mem_cons] at hb
        rcases hb with hb | hb | rfl | hb
        · exact (by decide : ∀ b ∈ ascii "HTTP/1.1 ", b ≠ 13 ∧ b ≠ 10) b hb
        · exact ⟨(hd b hb).1,(hd b hb).2.1⟩
        · decide
        · exact isFieldChar_clean (hwell.1 b hb)
      · obtain ⟨f,hf,rfl⟩ := List.mem_map.mp hl
        exact (hwell.2 f hf).clean
    have hstatus : ∀ n r, readStatusLine (statusLine digits reason) = some (n,r) ↔ _ :=
      fun n r => readStatusLine_statusLine fun b hb => (hd b hb).2.2
    rw [readMessage,splitHead_renderHead hclean]
    simp only [mapM_readField hwell.2]
    cases hline : readStatusLine (statusLine digits reason) with
    | none =>
      have hnot : ¬ (digits.length = 3 ∧ readNumber 10 digits = some m.status) := by
        intro h
        rw [(hstatus m.status reason).mpr ⟨h.1,h.2,hwell.1,rfl⟩] at hline
        cases hline
      simp [hnot]
    | some p =>
      obtain ⟨n,r⟩ := p
      obtain ⟨hlen,hn,-,rfl⟩ := (hstatus n r).mp hline
      obtain ⟨status,mreason,mfields,mbody⟩ := m
      simp only [hlen,hn,Option.map_eq_some_iff,Prod.mk.injEq,Message.mk.injEq,
        Option.some.injEq,true_and]
      constructor
      · rintro ⟨⟨⟨body,rest'⟩,hbody,⟨rfl,rfl,rfl,rfl⟩,rfl⟩,-,-⟩
        exact ⟨rfl,hwell,⟨rfl,rfl⟩,hbody⟩
      · rintro ⟨rfl,-,⟨rfl,rfl⟩,hbody⟩
        exact ⟨⟨(mbody,tail),hbody,⟨rfl,rfl,rfl,rfl⟩,rfl⟩,rfl,rfl⟩
  · constructor
    · rintro ⟨hread,rfl,rfl⟩
      exact absurd (wellFormed_of_readMessage hread) hwell
    · rintro ⟨-,h,-⟩
      exact absurd h hwell

end HttpMessage
end AsioQuickjs
