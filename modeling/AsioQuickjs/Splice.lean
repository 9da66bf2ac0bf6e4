import AsioQuickjs.JsLiteral

/-! Sources put together from fixed code and literals that hold given text. The
literals hold exactly that text when, and only when, none of it needs an escape
that it was not given. -/
namespace AsioQuickjs
namespace JsLiteral

/-- How a text is written between its quotes. -/
inductive Encoding
  | raw
  | quotesEscaped
  deriving DecidableEq

/-- Code, and the literal behind it. -/
structure Slot (α : Type) where
  before : List α
  encoding : Encoding
  meant : List α

section

variable {α : Type} [DecidableEq α] [OfNat α 39] [OfNat α 92]

/-- Every quote gets a backslash, as the replacement loop of `headers_js` has it. -/
def escapeQuotes : List α → List α
  | [] => []
  | b::bs => if b = 39 then 92::39::escapeQuotes bs else b::escapeQuotes bs

def Slot.written (s : Slot α) : List α :=
  match s.encoding with
  | .raw => s.meant
  | .quotesEscaped => escapeQuotes s.meant

/-- The source made of the slots and the code behind the last of them. -/
def render (slots : List (Slot α)) (last : List α) : List α :=
  match slots with
  | [] => last
  | s::slots => s.before++39::(s.written++39::render slots last)

end

def intended (slots : List (Slot ℕ)) (last : List ℕ) : List Seg :=
  match slots with
  | [] => [.code last]
  | s::slots => .code s.before::.lit s.meant::intended slots last

/-- Nothing in the text needs an escape that its encoding does not give it. -/
def Slot.Escaped {α : Type} [OfNat α 39] [OfNat α 92] (s : Slot α) : Prop :=
  92 ∉ s.meant ∧ (s.encoding = .raw → 39 ∉ s.meant)

theorem lexFrom_code {t : List ℕ} (ht : 39 ∉ t) (done : List Seg) (text us : List ℕ) :
    lexFrom ⟨done,text,.code⟩ (t++us) = lexFrom ⟨done,text++t,.code⟩ us := by
  induction t generalizing text with
  | nil => simp
  | cons u t ih =>
    have hu : u ≠ 39 := fun h => ht (by simp [h])
    have hrest : 39 ∉ t := fun h => ht (by simp [h])
    rw [List.cons_append,lexFrom_cons]
    simp only [Lexer.step,if_neg hu,Option.bind_some]
    rw [ih hrest]
    simp

theorem lexFrom_raw {m : List ℕ} (hquote : 39 ∉ m) (hslash : 92 ∉ m) (hlines : 10 ∉ m ∧ 13 ∉ m)
    (done : List Seg) (text us : List ℕ) :
    lexFrom ⟨done,text,.lit⟩ (m++us) = lexFrom ⟨done,text++m,.lit⟩ us := by
  induction m generalizing text with
  | nil => simp
  | cons u m ih =>
    simp only [List.mem_cons,not_or] at hquote hslash hlines
    rw [List.cons_append,lexFrom_cons]
    have hstep : Lexer.step ⟨done,text,.lit⟩ u = some ⟨done,text++[u],.lit⟩ := by
      simp only [Lexer.step,Lexer.stepLit,Lexer.push]
      rw [if_neg (by omega),if_neg (by omega),if_neg (by omega)]
    rw [hstep,Option.bind_some,ih hquote.2 hslash.2 ⟨hlines.1.2,hlines.2.2⟩]
    simp

theorem lexFrom_escapeQuotes {m : List ℕ} (hslash : 92 ∉ m) (hlines : 10 ∉ m ∧ 13 ∉ m)
    (done : List Seg) (text us : List ℕ) :
    lexFrom ⟨done,text,.lit⟩ (escapeQuotes m++us) = lexFrom ⟨done,text++m,.lit⟩ us := by
  induction m generalizing text with
  | nil => simp [escapeQuotes]
  | cons u m ih =>
    simp only [List.mem_cons,not_or] at hslash hlines
    have hrest := ih hslash.2 ⟨hlines.1.2,hlines.2.2⟩ (text++[u])
    by_cases hu : u = 39
    · subst hu
      simp only [escapeQuotes,if_true,List.cons_append]
      rw [lexFrom_cons]
      have hesc : Lexer.step ⟨done,text,.lit⟩ 92 = some ⟨done,text,.escape⟩ := by
        simp [Lexer.step,Lexer.stepLit]
      rw [hesc,Option.bind_some,lexFrom_cons]
      have hquote : Lexer.step ⟨done,text,.escape⟩ 39 = some ⟨done,text++[39],.lit⟩ := by
        simp [Lexer.step,Lexer.stepEscape,Lexer.push,escaped]
      rw [hquote,Option.bind_some,hrest]
      simp
    · simp only [escapeQuotes,if_neg hu,List.cons_append]
      rw [lexFrom_cons]
      have hstep : Lexer.step ⟨done,text,.lit⟩ u = some ⟨done,text++[u],.lit⟩ := by
        simp only [Lexer.step,Lexer.stepLit,Lexer.push]
        rw [if_neg hu,if_neg (by omega),if_neg (by omega)]
      rw [hstep,Option.bind_some,hrest]
      simp

theorem lexFrom_slot {s : Slot ℕ} (hs : s.Escaped) (hcode : 39 ∉ s.before)
    (hlines : 10 ∉ s.meant ∧ 13 ∉ s.meant) (done : List Seg) (us : List ℕ) :
    lexFrom ⟨done,[],.code⟩ (s.before++39::(s.written++39::us)) =
      lexFrom ⟨done++[.code s.before,.lit s.meant],[],.code⟩ us := by
  have hopen : lexFrom ⟨done,s.before,.code⟩ (39::(s.written++39::us)) =
      lexFrom ⟨done++[.code s.before],[],.lit⟩ (s.written++39::us) := by
    simp [lexFrom_cons,Lexer.step]
  have hclose (done : List Seg) : lexFrom ⟨done,s.meant,.lit⟩ (39::us) =
      lexFrom ⟨done++[.lit s.meant],[],.code⟩ us := by
    simp [lexFrom_cons,Lexer.step,Lexer.stepLit]
  rw [lexFrom_code hcode,List.nil_append,hopen]
  have htext : lexFrom ⟨done++[.code s.before],[],.lit⟩ (s.written++39::us) =
      lexFrom ⟨done++[.code s.before],s.meant,.lit⟩ (39::us) := by
    cases he : s.encoding with
    | raw =>
      simp only [Slot.written,he]
      simpa using lexFrom_raw (hs.2 he) hs.1 hlines (done++[.code s.before]) [] (39::us)
    | quotesEscaped =>
      simp only [Slot.written,he]
      simpa using lexFrom_escapeQuotes hs.1 hlines (done++[.code s.before]) [] (39::us)
  rw [htext,hclose]
  simp

theorem lexFrom_render {slots : List (Slot ℕ)} {last : List ℕ}
    (hs : ∀ s ∈ slots, s.Escaped) (hcode : ∀ s ∈ slots, 39 ∉ s.before) (hlast : 39 ∉ last)
    (hlines : ∀ s ∈ slots, 10 ∉ s.meant ∧ 13 ∉ s.meant) (done : List Seg) :
    lexFrom ⟨done,[],.code⟩ (render slots last) = some (done++intended slots last) := by
  induction slots generalizing done with
  | nil =>
    have h := lexFrom_code hlast done [] []
    simpa [render,intended,lexFrom] using h
  | cons s slots ih =>
    rw [render,lexFrom_slot (hs s (by simp)) (hcode s (by simp)) (hlines s (by simp))]
    rw [ih (fun t ht => hs t (by simp [ht])) (fun t ht => hcode t (by simp [ht]))
      (fun t ht => hlines t (by simp [ht]))]
    simp [intended]

theorem weight_eq_length {m : List ℕ} (h : weight m ≤ m.length) : 39 ∉ m ∧ 92 ∉ m := by
  induction m with
  | nil => simp
  | cons u m ih =>
    have hle := length_le_weight m
    rw [weight_cons,List.length_cons] at h
    obtain ⟨hquote,hslash⟩ := ih (by omega)
    have hu : special u = 0 := by omega
    have hne : u ≠ 39 ∧ u ≠ 92 := by
      rw [special] at hu
      split at hu
      · cases hu
      · omega
    simp [hquote,hslash,hne.1.symm,hne.2.symm]

theorem escapeQuotes_length (m : List ℕ) : (escapeQuotes m).length ≤ weight m := by
  induction m with
  | nil => simp [escapeQuotes]
  | cons u m ih =>
    by_cases hu : u = 39
    · simp [escapeQuotes,hu,special]
      omega
    · simp [escapeQuotes,hu]
      omega

theorem weight_eq_escapeQuotes {m : List ℕ} (h : weight m ≤ (escapeQuotes m).length) :
    92 ∉ m := by
  induction m with
  | nil => simp
  | cons u m ih =>
    have hle := escapeQuotes_length m
    by_cases hu : u = 39
    · simp [escapeQuotes,hu,special] at h
      simp [ih (by omega),hu]
    · simp [escapeQuotes,hu] at h
      have hslash : u ≠ 92 := by
        rintro rfl
        simp [special] at h
        omega
      simp [ih (by omega),hslash.symm]

theorem Slot.written_length (s : Slot ℕ) : s.written.length ≤ weight s.meant := by
  cases he : s.encoding with
  | raw => simpa [Slot.written,he] using length_le_weight s.meant
  | quotesEscaped => simpa [Slot.written,he] using escapeQuotes_length s.meant

theorem Slot.escaped_of_weight {s : Slot ℕ} (h : weight s.meant ≤ s.written.length) :
    s.Escaped := by
  cases he : s.encoding with
  | raw =>
    simp only [Slot.written,he] at h
    exact ⟨(weight_eq_length h).2,fun _ => (weight_eq_length h).1⟩
  | quotesEscaped =>
    simp only [Slot.written,he] at h
    exact ⟨weight_eq_escapeQuotes h,fun hr => by simp [he] at hr⟩

theorem render_length (slots : List (Slot ℕ)) (last : List ℕ) :
    (render slots last).length ≤ cost (intended slots last) := by
  induction slots with
  | nil => simp [render,intended,Seg.cost]
  | cons s slots ih =>
    have := s.written_length
    simp [render,intended,Seg.cost]
    omega

theorem escaped_of_cost {slots : List (Slot ℕ)} {last : List ℕ}
    (h : cost (intended slots last) ≤ (render slots last).length) :
    ∀ s ∈ slots, s.Escaped := by
  induction slots with
  | nil => simp
  | cons s slots ih =>
    have hrest := render_length slots last
    have hwritten := s.written_length
    simp [render,intended,Seg.cost] at h
    intro t ht
    rcases List.mem_cons.mp ht with rfl | ht
    · exact Slot.escaped_of_weight (by omega)
    · exact ih (by omega) t ht

theorem lex_render_iff {slots : List (Slot ℕ)} {last : List ℕ}
    (hcode : ∀ s ∈ slots, 39 ∉ s.before) (hlast : 39 ∉ last)
    (hlines : ∀ s ∈ slots, 10 ∉ s.meant ∧ 13 ∉ s.meant) :
    lex (render slots last) = some (intended slots last) ↔ ∀ s ∈ slots, s.Escaped := by
  constructor
  · intro h
    exact escaped_of_cost (lex_cost h)
  · intro h
    simpa [lex] using lexFrom_render h hcode hlast hlines []

def Slot.decoded (s : Slot UInt8) (m : List ℕ) : Slot ℕ := ⟨s.before.map (·.toNat),s.encoding,m⟩

def decodeSlots : List (Slot UInt8) → Option (List (Slot ℕ))
  | [] => some []
  | s::slots => (Utf8.decode s.meant).bind fun m => (decodeSlots slots).map (s.decoded m::·)

/-- The source consists of the slots' code and of literals that hold their texts. -/
def ReadsAs (source : Bytes) (slots : List (Slot UInt8)) (last : Bytes) : Prop :=
  ∃ us, decodeSlots slots = some us ∧
    (Utf8.decode source).bind lex = some (intended us (last.map (·.toNat)))

instance (source : Bytes) (slots : List (Slot UInt8)) (last : Bytes) :
    Decidable (ReadsAs source slots last) :=
  match h : decodeSlots slots with
  | some us => decidable_of_iff
      ((Utf8.decode source).bind lex = some (intended us (last.map (·.toNat))))
      (by simp [ReadsAs,h])
  | none => .isFalse (by simp [ReadsAs,h])

/-- The text is well-formed and needs no escape that its encoding does not give it. -/
def Slot.Safe (s : Slot UInt8) : Prop := (Utf8.decode s.meant).isSome ∧ s.Escaped

instance : DecidablePred Slot.Safe := fun s =>
  inferInstanceAs (Decidable ((Utf8.decode s.meant).isSome ∧
    92 ∉ s.meant ∧ (s.encoding = .raw → 39 ∉ s.meant)))

theorem escapeQuotes_append {us : List ℕ} (h : 39 ∉ us) (vs : List ℕ) :
    escapeQuotes (us++vs) = us++escapeQuotes vs := by
  induction us with
  | nil => simp
  | cons u us ih =>
    simp only [List.mem_cons,not_or] at h
    simp [escapeQuotes,Ne.symm h.1,ih h.2]

theorem decodeFrom_escapeQuotes {s : Utf8.State} (hs : s.Wide) (bs : Bytes) :
    Utf8.decodeFrom s (escapeQuotes bs) = (Utf8.decodeFrom s bs).map escapeQuotes := by
  induction bs generalizing s with
  | nil => cases s <;> simp [escapeQuotes,Utf8.decodeFrom]
  | cons b bs ih =>
    by_cases hb : b = 39
    · subst hb
      simp only [escapeQuotes,if_true]
      cases s with
      | start =>
        have hstart := ih (show Utf8.State.start.Wide from trivial)
        simp only [Utf8.decodeFrom_cons]
        simp [Utf8.step,hstart]
        rfl
      | inside left low high acc =>
        simp [Utf8.decodeFrom_cons,Utf8.step_inside_ascii hs.1]
    · simp only [escapeQuotes,if_neg hb]
      rw [Utf8.decodeFrom_cons,Utf8.decodeFrom_cons]
      cases hstep : Utf8.step s b.toNat with
      | none => simp
      | some r =>
        obtain ⟨us,t⟩ := r
        obtain ⟨ht,hus⟩ := Utf8.step_wide hs hstep
        have hquote : 39 ∉ us := by
          intro hmem
          have hval := hus 39 hmem (by omega)
          exact hb (UInt8.toNat_inj.mp hval.symm)
        simp only [Option.bind_some,ih ht,Option.map_map]
        congr 1
        funext vs
        exact (escapeQuotes_append hquote vs).symm

theorem decode_written (s : Slot UInt8) :
    Utf8.decode s.written = (Utf8.decode s.meant).map fun m => (s.decoded m).written := by
  cases he : s.encoding with
  | raw => simp [Slot.written,Slot.decoded,he]
  | quotesEscaped =>
    simp only [Slot.written,Slot.decoded,he]
    exact decodeFrom_escapeQuotes (show Utf8.State.start.Wide from trivial) s.meant

theorem decode_render {slots : List (Slot UInt8)} {last : Bytes}
    (hcode : ∀ s ∈ slots, ∀ b ∈ s.before, b.toNat < 0x80) (hlast : ∀ b ∈ last, b.toNat < 0x80) :
    Utf8.decode (render slots last) =
      (decodeSlots slots).map fun us => render us (last.map (·.toNat)) := by
  have hquote : (39 : UInt8).toNat < 0x80 := by decide
  induction slots with
  | nil =>
    have h := Utf8.decode_ascii hlast []
    simpa [render,decodeSlots,Utf8.decode,Utf8.decodeFrom] using h
  | cons s slots ih =>
    rw [render,Utf8.decode_ascii (hcode s (by simp))]
    have hopen := Utf8.decode_append_ascii [] (s.written++39::render slots last) hquote
    rw [List.nil_append] at hopen
    rw [hopen,Utf8.decode_append_ascii _ _ hquote,decode_written,
      ih (fun t ht => hcode t (by simp [ht])),decodeSlots]
    cases Utf8.decode s.meant <;> cases decodeSlots slots <;>
      simp [Utf8.decode,Utf8.decodeFrom,render,Slot.decoded]

/-- Every byte of a rendered source is from its code, from a text, a quote or a backslash. -/
theorem forall_render {P : UInt8 → Prop} {slots : List (Slot UInt8)} {last : Bytes}
    (hcode : ∀ s ∈ slots, ∀ b ∈ s.before, P b) (hlast : ∀ b ∈ last, P b)
    (hmeant : ∀ s ∈ slots, ∀ b ∈ s.meant, P b) (hquote : P 39) (hslash : P 92) :
    ∀ b ∈ render slots last, P b := by
  have hescape {m : Bytes} (hm : ∀ b ∈ m, P b) : ∀ b ∈ escapeQuotes m, P b := by
    induction m with
    | nil => simp [escapeQuotes]
    | cons c m ih =>
      intro b hb
      have hrest := ih fun d hd => hm d (by simp [hd])
      rw [escapeQuotes] at hb
      split at hb
      · simp only [List.mem_cons] at hb
        rcases hb with rfl | rfl | hb
        · exact hslash
        · exact hquote
        · exact hrest b hb
      · rcases List.mem_cons.mp hb with rfl | hb
        · exact hm b (by simp)
        · exact hrest b hb
  induction slots with
  | nil => exact hlast
  | cons s slots ih =>
    have hwritten : ∀ b ∈ s.written, P b := by
      cases he : s.encoding with
      | raw => simpa [Slot.written,he] using hmeant s (by simp)
      | quotesEscaped => simpa [Slot.written,he] using hescape (hmeant s (by simp))
    have hrest := ih (fun t ht => hcode t (by simp [ht])) (fun t ht => hmeant t (by simp [ht]))
    intro b hb
    simp only [render,List.mem_append,List.mem_cons] at hb
    rcases hb with hb | rfl | hb | rfl | hb
    · exact hcode s (by simp) b hb
    · exact hquote
    · exact hwritten b hb
    · exact hquote
    · exact hrest b hb

theorem Slot.escaped_decoded {s : Slot UInt8} {m : List ℕ} (h : Utf8.decode s.meant = some m) :
    (s.decoded m).Escaped ↔ s.Escaped := by
  have hslash := Utf8.mem_decode_iff h (show (92 : UInt8).toNat < 0x80 by decide)
  have hquote := Utf8.mem_decode_iff h (show (39 : UInt8).toNat < 0x80 by decide)
  exact and_congr (not_congr hslash) (imp_congr_right fun _ => not_congr hquote)

theorem forall_decodeSlots {slots : List (Slot UInt8)} {us : List (Slot ℕ)}
    (h : decodeSlots slots = some us) (P : Slot ℕ → Prop) :
    (∀ u ∈ us, P u) ↔ ∀ s ∈ slots, ∀ m, Utf8.decode s.meant = some m → P (s.decoded m) := by
  induction slots generalizing us with
  | nil =>
    cases h
    simp
  | cons s slots ih =>
    obtain ⟨m,hm,h⟩ := Option.bind_eq_some_iff.mp h
    obtain ⟨vs,hvs,rfl⟩ := Option.map_eq_some_iff.mp h
    simp [ih hvs,hm]

theorem decodeSlots_isSome_iff (slots : List (Slot UInt8)) :
    (decodeSlots slots).isSome ↔ ∀ s ∈ slots, (Utf8.decode s.meant).isSome := by
  induction slots with
  | nil => simp [decodeSlots]
  | cons s slots ih =>
    rw [decodeSlots]
    cases hm : Utf8.decode s.meant <;> simp [hm,ih]

/-- Spliced text stays inside its literals, unchanged, exactly where all of it is safe. -/
theorem readsAs_iff {slots : List (Slot UInt8)} {last : Bytes}
    (hcode : ∀ s ∈ slots, ∀ b ∈ s.before, b.toNat < 0x80 ∧ b ≠ 39)
    (hlast : ∀ b ∈ last, b.toNat < 0x80 ∧ b ≠ 39)
    (hlines : ∀ s ∈ slots, 10 ∉ s.meant ∧ 13 ∉ s.meant) :
    ReadsAs (render slots last) slots last ↔ ∀ s ∈ slots, s.Safe := by
  have hdecode := decode_render (fun s hs b hb => (hcode s hs b hb).1) (fun b hb => (hlast b hb).1)
  have hascii {t : Bytes} (ht : ∀ b ∈ t, b.toNat < 0x80 ∧ b ≠ 39) : 39 ∉ t.map (·.toNat) := by
    intro hmem
    obtain ⟨b,hb,hval⟩ := List.mem_map.mp hmem
    exact (ht b hb).2 (UInt8.toNat_inj.mp hval)
  cases hus : decodeSlots slots with
  | none =>
    have hnone := decodeSlots_isSome_iff slots
    rw [hus] at hnone
    constructor
    · rintro ⟨us,hsome,-⟩
      rw [hus] at hsome
      cases hsome
    · intro h
      exact absurd (hnone.mpr fun s hs => (h s hs).1) (by simp)
  | some us =>
    have hall := (decodeSlots_isSome_iff slots).mp (by simp [hus])
    have hrender : lex (render us (last.map (·.toNat))) = some (intended us (last.map (·.toNat))) ↔
        ∀ u ∈ us, u.Escaped := lex_render_iff
      ((forall_decodeSlots hus _).mpr fun s hs m _ => hascii (hcode s hs)) (hascii hlast)
      ((forall_decodeSlots hus _).mpr fun s hs m hm =>
        ⟨mt (Utf8.mem_decode_iff hm (show (10 : UInt8).toNat < 0x80 by decide)).mp (hlines s hs).1,
          mt (Utf8.mem_decode_iff hm (show (13 : UInt8).toNat < 0x80 by decide)).mp (hlines s hs).2⟩)
    rw [forall_decodeSlots hus] at hrender
    simp only [ReadsAs,hdecode,hus,Option.map_some,Option.bind_some,Option.some.injEq,
      exists_eq_left']
    rw [hrender]
    constructor
    · intro h s hs
      obtain ⟨m,hm⟩ := Option.isSome_iff_exists.mp (hall s hs)
      exact ⟨hall s hs,(Slot.escaped_decoded hm).mp (h s hs m hm)⟩
    · intro h s hs m hm
      exact (Slot.escaped_decoded hm).mpr (h s hs).2

end JsLiteral
end AsioQuickjs
