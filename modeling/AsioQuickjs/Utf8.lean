import Mathlib.Data.List.TakeWhile
import AsioQuickjs.Bytes

/-! UTF-8 read byte by byte into UTF-16 code units, the text of a JavaScript source.
Surrogates written in three bytes are read as single units. -/
namespace AsioQuickjs
namespace Utf8

def units (c : ℕ) : List ℕ :=
  if c < 0x10000 then [c] else [0xD800+(c-0x10000)/0x400,0xDC00+(c-0x10000)%0x400]

/-- Between two characters, or inside one whose next byte is between `low` and
`high` and is followed by `left` others. -/
inductive State
  | start
  | inside (left low high acc : ℕ)

def step : State → ℕ → Option (List ℕ × State)
  | .start, b =>
    if b < 0x80 then some ([b],.start)
    else if b < 0xC2 then none
    else if b < 0xE0 then some ([],.inside 0 0x80 0xBF (b-0xC0))
    else if b < 0xF0 then some ([],.inside 1 (if b = 0xE0 then 0xA0 else 0x80) 0xBF (b-0xE0))
    else if b < 0xF5 then some ([],.inside 2 (if b = 0xF0 then 0x90 else 0x80)
      (if b = 0xF4 then 0x8F else 0xBF) (b-0xF0))
    else none
  | .inside left low high acc, b =>
    if low ≤ b ∧ b ≤ high then
      match left with
      | 0 => some (units (64*acc+(b-0x80)),.start)
      | left+1 => some ([],.inside left 0x80 0xBF (64*acc+(b-0x80)))
    else none

def decodeFrom : State → Bytes → Option (List ℕ)
  | .start, [] => some []
  | .inside .., [] => none
  | s, b::bs => match step s b.toNat with
    | some (us,t) => (decodeFrom t bs).map (us++·)
    | none => none

def decode (bs : Bytes) : Option (List ℕ) := decodeFrom .start bs

theorem decodeFrom_cons (s : State) (b : UInt8) (bs : Bytes) :
    decodeFrom s (b::bs) =
      (step s b.toNat).bind fun r => (decodeFrom r.2 bs).map (r.1++·) := by
  cases s <;> simp only [decodeFrom] <;> split <;> simp_all

/-- What is under way inside a character cannot become an ASCII character. -/
def State.Wide : State → Prop
  | .start => True
  | .inside left low _ acc => 0x80 ≤ low ∧ 0x80 ≤ (64*acc+(low-0x80))*64^left

theorem units_wide {c u : ℕ} (h : u ∈ units c) (hu : u < 0x80) : u = c := by
  rw [units] at h
  split at h
  · simpa using h
  · simp only [List.mem_cons,List.not_mem_nil,or_false] at h
    omega

theorem step_start_ascii {b : ℕ} (h : b < 0x80) : step .start b = some ([b],.start) := by
  simp [step,h]

theorem step_inside_ascii {left low high acc b : ℕ} (hs : 0x80 ≤ low) (h : b < 0x80) :
    step (.inside left low high acc) b = none := by
  simp only [step]
  rw [if_neg (by omega)]

theorem step_wide {s t : State} {b : ℕ} {us : List ℕ} (hs : s.Wide)
    (h : step s b = some (us,t)) : t.Wide ∧ ∀ u ∈ us, u < 0x80 → u = b := by
  cases s with
  | start =>
    simp only [step] at h
    split at h
    · cases h
      simp [State.Wide]
    · split at h
      · cases h
      · split at h
        · cases h
          exact ⟨⟨by omega,by omega⟩,by simp⟩
        · split at h
          · cases h
            refine ⟨⟨?_,?_⟩,by simp⟩ <;> split <;> omega
          · split at h
            · cases h
              refine ⟨⟨?_,?_⟩,by simp⟩ <;> split <;> omega
            · cases h
  | inside left low high acc =>
    obtain ⟨hlow,hacc⟩ := hs
    simp only [step] at h
    split at h
    · next hb =>
      have hmono : (64*acc+(low-0x80))*64^left ≤ (64*acc+(b-0x80))*64^left :=
        Nat.mul_le_mul_right _ (by omega)
      cases left with
      | zero =>
        simp only [Option.some.injEq,Prod.mk.injEq] at h
        obtain ⟨rfl,rfl⟩ := h
        refine ⟨trivial,fun u hu hlt => ?_⟩
        have hc := units_wide hu hlt
        omega
      | succ left =>
        cases h
        refine ⟨⟨le_rfl,?_⟩,by simp⟩
        rw [Nat.pow_succ] at hmono hacc
        have hassoc : (64*(64*acc+(b-0x80))+(0x80-0x80))*64^left =
            (64*acc+(b-0x80))*(64^left*64) := by
          rw [Nat.sub_self,Nat.add_zero,Nat.mul_comm 64 (64*acc+(b-0x80)),Nat.mul_assoc,
            Nat.mul_comm 64 (64^left)]
        rw [hassoc]
        omega
    · cases h

theorem decodeFrom_ascii {s : State} {bs : Bytes} {us : List ℕ} (hs : s.Wide)
    (h : decodeFrom s bs = some us) {u : ℕ} (hu : u ∈ us) (hlt : u < 0x80) :
    ∃ b ∈ bs, b.toNat = u := by
  induction bs generalizing s us with
  | nil =>
    cases s with
    | start =>
      cases h
      cases hu
    | inside => cases h
  | cons b bs ih =>
    rw [decodeFrom_cons] at h
    cases hstep : step s b.toNat with
    | none => simp [hstep] at h
    | some r =>
      obtain ⟨ws,t⟩ := r
      obtain ⟨ht,hws⟩ := step_wide hs hstep
      simp only [hstep,Option.bind_some,Option.map_eq_some_iff] at h
      obtain ⟨vs,hvs,rfl⟩ := h
      rcases List.mem_append.mp hu with hu | hu
      · exact ⟨b,by simp,(hws u hu hlt).symm⟩
      · obtain ⟨c,hc,hcu⟩ := ih ht hvs hu
        exact ⟨c,by simp [hc],hcu⟩

theorem decodeFrom_append_ascii {s : State} (hs : s.Wide) (bs cs : Bytes) {q : UInt8}
    (hq : q.toNat < 0x80) :
    decodeFrom s (bs++q::cs) =
      (decodeFrom s bs).bind fun us => (decode cs).map fun vs => us++q.toNat::vs := by
  induction bs generalizing s with
  | nil =>
    cases s with
    | start => simp [decodeFrom_cons,step_start_ascii hq,decodeFrom,decode]
    | inside left low high acc =>
      simp [decodeFrom_cons,step_inside_ascii hs.1 hq,decodeFrom]
  | cons b bs ih =>
    rw [List.cons_append,decodeFrom_cons,decodeFrom_cons]
    cases hstep : step s b.toNat with
    | none => simp
    | some r =>
      simp only [Option.bind_some,ih (step_wide hs hstep).1]
      cases decodeFrom r.2 bs <;> cases decode cs <;> simp

theorem decode_append_ascii (bs cs : Bytes) {q : UInt8} (hq : q.toNat < 0x80) :
    decode (bs++q::cs) =
      (decode bs).bind fun us => (decode cs).map fun vs => us++q.toNat::vs :=
  decodeFrom_append_ascii (show State.start.Wide from trivial) bs cs hq

theorem decode_ascii {bs : Bytes} (h : ∀ b ∈ bs, b.toNat < 0x80) (cs : Bytes) :
    decode (bs++cs) = (decode cs).map (bs.map (·.toNat)++·) := by
  induction bs with
  | nil => simp
  | cons b bs ih =>
    have hb := decode_append_ascii [] (bs++cs) (h b (by simp))
    rw [List.nil_append] at hb
    rw [List.cons_append,hb,ih (fun c hc => h c (by simp [hc]))]
    cases decode cs <;> simp [decode,decodeFrom]

theorem mem_decode_iff {bs : Bytes} {us : List ℕ} (h : decode bs = some us) {q : UInt8}
    (hq : q.toNat < 0x80) : q.toNat ∈ us ↔ q ∈ bs := by
  constructor
  · intro hu
    obtain ⟨b,hb,hbq⟩ := decodeFrom_ascii (show State.start.Wide from trivial) h hu hq
    rwa [← UInt8.toNat_inj.mp hbq]
  · intro hmem
    obtain ⟨as,cs,rfl⟩ := List.append_of_mem hmem
    rw [decode_append_ascii as cs hq] at h
    obtain ⟨vs,-,h⟩ := Option.bind_eq_some_iff.mp h
    obtain ⟨ws,-,rfl⟩ := Option.map_eq_some_iff.mp h
    simp

def encode (cs : List Char) : Bytes := cs.flatMap String.utf8EncodeChar

theorem encode_cons (c : Char) (cs : List Char) :
    encode (c::cs) = String.utf8EncodeChar c++encode cs := rfl

theorem utf8EncodeChar_ne_zero {c : Char} (hc : c ≠ '\x00') :
    ∀ b ∈ String.utf8EncodeChar c, b ≠ 0 := by
  have hv : c.val.toNat ≠ 0 := fun h => hc (Char.ext (UInt32.toNat_inj.mp h))
  have hbyte : ∀ m : ℕ, m % 256 ≠ 0 → UInt8.ofNat m ≠ 0 := by
    intro m hm h
    exact hm (by simpa using congrArg UInt8.toNat h)
  intro b hb
  simp only [String.utf8EncodeChar] at hb
  split at hb
  · obtain rfl := List.mem_singleton.mp hb
    exact hbyte _ (by omega)
  · split at hb
    · simp only [List.mem_cons,List.not_mem_nil,or_false] at hb
      rcases hb with rfl | rfl <;> exact hbyte _ (by omega)
    · split at hb
      · simp only [List.mem_cons,List.not_mem_nil,or_false] at hb
        rcases hb with rfl | rfl | rfl <;> exact hbyte _ (by omega)
      · simp only [List.mem_cons,List.not_mem_nil,or_false] at hb
        rcases hb with rfl | rfl | rfl | rfl <;> exact hbyte _ (by omega)

theorem cStr_encode_eq_iff (s : List Char) : cStr (encode s) = encode s ↔ '\x00' ∉ s := by
  rw [cStr,List.takeWhile_eq_self_iff]
  constructor
  · intro hall hmem
    have hzero : (0 : UInt8) ∈ encode s :=
      List.mem_flatMap.mpr ⟨'\x00',hmem,by decide⟩
    simpa using hall 0 hzero
  · intro hnot b hb
    obtain ⟨c,hc,hbc⟩ := List.mem_flatMap.mp hb
    have hne : c ≠ '\x00' := fun h => hnot (h ▸ hc)
    simpa using utf8EncodeChar_ne_zero hne b hbc

def text (bs : Bytes) : Option (List Char) := (bs.toByteArray.utf8Decode?).map Array.toList

theorem text_encode (cs : List Char) : text (encode cs) = some cs := by
  have h : (encode cs).toByteArray = cs.utf8Encode := rfl
  rw [text,h,List.utf8Decode?_utf8Encode]
  rfl

end Utf8
end AsioQuickjs
