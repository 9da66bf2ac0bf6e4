import AsioQuickjs.Bytes
import Mathlib.Data.List.TakeWhile

/-! The glob patterns of `__nativeGlobSync` in fs.cpp: what they should match, and what
`glob_match` does with them. -/
namespace AsioQuickjs
namespace GlobMatch

abbrev star : UInt8 := 42

abbrev slash : UInt8 := 47

@[simp] theorem slash_ne_star : ¬ slash = star := by decide

/-- The loop over both strings. Each turn is past the first character of the pattern, a star
with all that is not a slash; a second star after it ends the loop. -/
def globMatch : Bytes → Bytes → Bool
  | [], name => name.isEmpty
  | _::_, [] => false
  | c::pattern, n::name =>
    if c = star then
      if pattern.head? = some star then true
      else globMatch pattern ((n::name).dropWhile (· ≠ slash))
    else if c = n then globMatch pattern name else false

/-- Two stars match any string, a single one any string without a slash, and every other
character itself. -/
inductive Matches : Bytes → Bytes → Prop
  | done : Matches [] []
  | any {pattern name : Bytes} (skipped : Bytes) (rest : Matches pattern name) :
      Matches (star::star::pattern) (skipped++name)
  | segment {pattern name : Bytes} (skipped : Bytes) (single : pattern.head? ≠ some star)
      (inside : slash ∉ skipped) (rest : Matches pattern name) :
      Matches (star::pattern) (skipped++name)
  | char {pattern name : Bytes} (c : UInt8) (other : c ≠ star) (rest : Matches pattern name) :
      Matches (c::pattern) (c::name)

@[simp] theorem matches_nil_iff (name : Bytes) : Matches [] name ↔ name = [] := by
  constructor
  · rintro ⟨⟩
    rfl
  · rintro rfl
    exact .done

theorem matches_char_iff {c : UInt8} (hc : c ≠ star) (pattern name : Bytes) :
    Matches (c::pattern) name ↔ ∃ rest, name = c::rest ∧ Matches pattern rest := by
  constructor
  · intro h
    cases h with
    | any => exact absurd rfl hc
    | segment => exact absurd rfl hc
    | char _ _ rest => exact ⟨_,rfl,rest⟩
  · rintro ⟨rest,rfl,h⟩
    exact .char c hc h

theorem matches_any_iff (pattern name : Bytes) :
    Matches (star::star::pattern) name ↔ ∃ rest, rest <:+ name ∧ Matches pattern rest := by
  constructor
  · intro h
    cases h with
    | any skipped rest => exact ⟨_,List.suffix_append _ _,rest⟩
    | segment _ single => exact absurd rfl single
    | char _ other => exact absurd rfl other
  · rintro ⟨rest,⟨skipped,rfl⟩,h⟩
    exact .any skipped h

theorem matches_segment_iff {pattern : Bytes} (hsingle : pattern.head? ≠ some star)
    (name : Bytes) :
    Matches (star::pattern) name ↔
      ∃ skipped rest, name = skipped++rest ∧ slash ∉ skipped ∧ Matches pattern rest := by
  constructor
  · intro h
    cases h with
    | any => exact absurd rfl hsingle
    | segment skipped _ inside rest => exact ⟨skipped,_,rfl,inside,rest⟩
    | char _ other => exact absurd rfl other
  · rintro ⟨skipped,rest,rfl,hinside,h⟩
    exact .segment skipped hsingle hinside h

/-- Where a slash follows the star, there is no choice: the star ends at the next slash. -/
theorem matches_segment_slash_iff (pattern name : Bytes) :
    Matches (star::slash::pattern) name ↔
      Matches (slash::pattern) (name.dropWhile (· ≠ slash)) := by
  have hsingle : (slash::pattern).head? ≠ some star := by simp
  rw [matches_segment_iff hsingle]
  constructor
  · rintro ⟨skipped,rest,rfl,hinside,h⟩
    obtain ⟨rest,rfl,-⟩ := (matches_char_iff (by decide) _ _).mp h
    have hall : ∀ c ∈ skipped, (decide (c ≠ slash)) = true := fun c hc =>
      decide_eq_true fun heq => hinside (heq ▸ hc)
    rw [List.dropWhile_append_of_pos hall]
    simpa using h
  · intro h
    refine ⟨name.takeWhile (· ≠ slash),_,List.takeWhile_append_dropWhile.symm,fun hmem => ?_,h⟩
    simpa using List.all_eq_true.mp List.all_takeWhile slash hmem

theorem matches_filter (pattern : Bytes) :
    Matches pattern (pattern.filter (· ≠ star)) ∧
      Matches pattern.tail (pattern.tail.filter (· ≠ star)) := by
  induction pattern with
  | nil => exact ⟨.done,.done⟩
  | cons c pattern ih =>
    refine ⟨?_,ih.1⟩
    by_cases hc : c = star
    · subst hc
      rw [List.filter_cons_of_neg (by simp)]
      by_cases hsingle : pattern.head? = some star
      · obtain ⟨pattern,rfl⟩ := List.head?_eq_some_iff.mp hsingle
        rw [List.filter_cons_of_neg (by simp)]
        exact .any [] ih.2
      · exact .segment [] hsingle (by simp) ih.1
    · rw [List.filter_cons_of_pos (by simpa using hc)]
      exact .char c hc ih.1

theorem mem_of_matches {pattern name : Bytes} (h : Matches pattern name) {c : UInt8}
    (hc : c ≠ star) (hmem : c ∈ pattern) : c ∈ name := by
  induction h with
  | done => exact hmem
  | any skipped _ ih =>
    simp only [List.mem_cons,hc,false_or] at hmem
    exact List.mem_append_right _ (ih hmem)
  | segment skipped _ _ _ ih =>
    simp only [List.mem_cons,hc,false_or] at hmem
    exact List.mem_append_right _ (ih hmem)
  | char d _ _ ih =>
    rcases List.mem_cons.mp hmem with rfl | hmem
    · exact List.mem_cons_self
    · exact List.mem_cons_of_mem _ (ih hmem)

/-- The way of the loop to the first star that no slash follows: what comes after that star, and
what is left of the name. Up to there the pattern leaves no choice. -/
def firstStar : Bytes → Bytes → Option (Bytes × Bytes)
  | [], _ => none
  | c::pattern, name =>
    if c = star then
      if pattern.head? = some slash then firstStar pattern (name.dropWhile (· ≠ slash))
      else some (pattern,name)
    else if name.head? = some c then firstStar pattern name.tail else none

/-- What must hold at that star. A star that closes the pattern needs something to take; after
two stars something must be left exactly if an end of it fits what follows them; and with
something else after the star the name must not fit. -/
def Harmless (pattern name : Bytes) : Prop :=
  ∀ rest left, firstStar pattern name = some (rest,left) →
    (rest = [] → left ≠ []) ∧
    (rest.head? = some star → (left ≠ [] ↔ ∃ last, last <:+ left ∧ Matches rest.tail last)) ∧
    (rest ≠ [] → rest.head? ≠ some star → ¬ Matches (star::rest) left)

/-- Every star is followed by a slash. -/
def StarsBeforeSlash (pattern : Bytes) : Prop :=
  ∀ rest, star::rest <:+ pattern → rest.head? = some slash

theorem globMatch_char {c : UInt8} (hc : c ≠ star) (pattern name : Bytes) :
    globMatch (c::pattern) name = true ↔
      name.head? = some c ∧ globMatch pattern name.tail = true := by
  cases name with
  | nil => simp [globMatch]
  | cons n name =>
    rw [globMatch,if_neg hc]
    by_cases hn : c = n
    · simp [hn]
    · simp [hn,Ne.symm hn]

theorem globMatch_segment {pattern : Bytes} (hsingle : pattern.head? ≠ some star) (name : Bytes) :
    globMatch (star::pattern) name = true ↔
      name ≠ [] ∧ globMatch pattern (name.dropWhile (· ≠ slash)) = true := by
  cases name with
  | nil => simp [globMatch]
  | cons n name => simp [globMatch,hsingle]

theorem globMatch_any {pattern : Bytes} (hdouble : pattern.head? = some star) (name : Bytes) :
    globMatch (star::pattern) name = true ↔ name ≠ [] := by
  cases name with
  | nil => simp [globMatch]
  | cons n name => simp [globMatch,hdouble]

theorem agree_of_firstStar_none {pattern name : Bytes} (h : firstStar pattern name = none) :
    globMatch pattern name = true ↔ Matches pattern name := by
  induction pattern generalizing name with
  | nil => simp [globMatch]
  | cons c pattern ih =>
    rw [firstStar] at h
    split at h
    · next hc =>
      subst hc
      split at h
      · next hslash =>
        obtain ⟨pattern,rfl⟩ := List.head?_eq_some_iff.mp hslash
        rw [globMatch_segment (by simp),ih h,matches_segment_slash_iff]
        refine and_iff_right_of_imp fun hm => ?_
        rintro rfl
        simpa using (matches_char_iff (by decide) _ _).mp hm
      · cases h
    · next hc =>
      rw [globMatch_char hc,matches_char_iff hc]
      split at h
      · next hhead =>
        obtain ⟨name,rfl⟩ := List.head?_eq_some_iff.mp hhead
        simpa using ih h
      · next hhead =>
        refine iff_of_false (fun hm => hhead hm.1) ?_
        rintro ⟨rest,rfl,-⟩
        exact hhead rfl

theorem of_firstStar_some {pattern name rest left : Bytes}
    (h : firstStar pattern name = some (rest,left)) :
    rest.head? ≠ some slash ∧
    (globMatch pattern name = true ↔ globMatch (star::rest) left = true) ∧
    (Matches pattern name ↔ Matches (star::rest) left) := by
  induction pattern generalizing name with
  | nil => cases h
  | cons c pattern ih =>
    rw [firstStar] at h
    split at h
    · next hc =>
      subst hc
      split at h
      · next hslash =>
        obtain ⟨pattern,rfl⟩ := List.head?_eq_some_iff.mp hslash
        obtain ⟨hnot,hglob,hmatches⟩ := ih h
        refine ⟨hnot,?_,by rw [matches_segment_slash_iff,hmatches]⟩
        rw [globMatch_segment (by simp),← hglob]
        refine and_iff_right_of_imp fun hm => ?_
        rintro rfl
        cases hm
      · next hslash =>
        obtain ⟨rfl,rfl⟩ := Prod.mk.inj (Option.some.inj h)
        exact ⟨hslash,Iff.rfl,Iff.rfl⟩
    · next hc =>
      split at h
      · next hhead =>
        obtain ⟨name,rfl⟩ := List.head?_eq_some_iff.mp hhead
        obtain ⟨hnot,hglob,hmatches⟩ := ih h
        refine ⟨hnot,by rw [globMatch_char hc,← hglob]; simp,?_⟩
        rw [matches_char_iff hc,← hmatches]
        simp
      · cases h

theorem globMatch_stuck {rest : Bytes} (hne : rest ≠ []) (hsingle : rest.head? ≠ some star)
    (hslash : rest.head? ≠ some slash) (left : Bytes) : globMatch (star::rest) left = false := by
  rw [Bool.eq_false_iff]
  intro h
  obtain ⟨-,h⟩ := (globMatch_segment hsingle left).mp h
  obtain ⟨c,rest,rfl⟩ := List.exists_cons_of_ne_nil hne
  have hc : c ≠ star := fun heq => hsingle (congrArg some heq)
  obtain ⟨hhead,-⟩ := (globMatch_char hc _ _).mp h
  have hnext := List.head?_dropWhile_not (· ≠ slash) left
  rw [hhead] at hnext
  exact hslash (congrArg some (by simpa using hnext))

/-- At a star that no slash follows, what the loop says is right exactly under the condition. -/
theorem agree_at_star {rest left : Bytes} (hslash : rest.head? ≠ some slash) :
    (globMatch (star::rest) left = true ↔ Matches (star::rest) left) ↔
      (rest = [] → left ≠ []) ∧
      (rest.head? = some star → (left ≠ [] ↔ ∃ last, last <:+ left ∧ Matches rest.tail last)) ∧
      (rest ≠ [] → rest.head? ≠ some star → ¬ Matches (star::rest) left) := by
  by_cases hdouble : rest.head? = some star
  · obtain ⟨rest,rfl⟩ := List.head?_eq_some_iff.mp hdouble
    rw [globMatch_any (by simp),matches_any_iff]
    simp
  · by_cases hnil : rest = []
    · subst hnil
      rw [globMatch_segment (by simp),matches_segment_iff (by simp)]
      have hfits : (∃ skipped last, left = skipped++last ∧ slash ∉ skipped ∧ Matches [] last) ↔
          slash ∉ left := by simp
      have htakes : globMatch [] (left.dropWhile (· ≠ slash)) = true ↔ slash ∉ left := by
        simp only [globMatch,List.isEmpty_iff,List.dropWhile_eq_nil_iff,decide_eq_true_eq]
        exact ⟨fun h hmem => h _ hmem rfl,fun h c hc heq => h (heq ▸ hc)⟩
      rw [hfits,htakes]
      cases left <;> simp
    · simp [globMatch_stuck hnil hdouble hslash,hnil,hdouble]

theorem agree_iff_harmless (pattern name : Bytes) :
    (globMatch pattern name = true ↔ Matches pattern name) ↔ Harmless pattern name := by
  cases h : firstStar pattern name with
  | none =>
    refine iff_of_true (agree_of_firstStar_none h) fun rest left hsome => ?_
    rw [h] at hsome
    cases hsome
  | some found =>
    obtain ⟨rest,left⟩ := found
    obtain ⟨hslash,hglob,hmatches⟩ := of_firstStar_some h
    rw [hglob,hmatches,agree_at_star hslash]
    constructor
    · intro hstar rest' left' hsome
      obtain ⟨rfl,rfl⟩ := Prod.mk.inj (Option.some.inj (h.symm.trans hsome))
      exact hstar
    · intro hharmless
      exact hharmless rest left h

theorem firstStar_eq_none {pattern : Bytes} (h : StarsBeforeSlash pattern) (name : Bytes) :
    firstStar pattern name = none := by
  induction pattern generalizing name with
  | nil => rfl
  | cons c pattern ih =>
    have hrest : StarsBeforeSlash pattern := fun rest hsuffix =>
      h rest (hsuffix.trans (List.suffix_cons _ _))
    rw [firstStar]
    split
    · next hc =>
      subst hc
      rw [if_pos (h pattern (List.suffix_refl _))]
      exact ih hrest _
    · split
      · exact ih hrest _
      · rfl

/-- A pattern with such a star is followed up to it by some name, whatever that goes on with. -/
theorem exists_firstStar {pattern : Bytes} (h : ¬ StarsBeforeSlash pattern) :
    ∃ rest before, ∀ left, firstStar pattern (before++left) = some (rest,left) := by
  induction pattern with
  | nil =>
    refine absurd (fun rest hsuffix => ?_) h
    simp at hsuffix
  | cons c pattern ih =>
    by_cases hc : c = star
    · subst hc
      by_cases hslash : pattern.head? = some slash
      · have hrest : ¬ StarsBeforeSlash pattern := fun hall => h fun rest hsuffix => by
          rcases List.suffix_cons_iff.mp hsuffix with heq | hsuffix
          · obtain ⟨-,rfl⟩ := List.cons.inj heq
            exact hslash
          · exact hall rest hsuffix
        obtain ⟨rest,before,hreach⟩ := ih hrest
        refine ⟨rest,before,fun left => ?_⟩
        obtain ⟨pattern,rfl⟩ := List.head?_eq_some_iff.mp hslash
        have hhead : (before++left).head? = some slash := by
          by_contra hne
          have hat := hreach left
          rw [firstStar,if_neg (by decide),if_neg hne] at hat
          cases hat
        obtain ⟨name,hname⟩ := List.head?_eq_some_iff.mp hhead
        rw [firstStar,if_pos rfl,if_pos hslash,← hreach left,hname,
          List.dropWhile_cons_of_neg (by simp)]
      · refine ⟨pattern,[],fun left => ?_⟩
        rw [firstStar,if_pos rfl,if_neg hslash]
        rfl
    · have hrest : ¬ StarsBeforeSlash pattern := fun hall => h fun rest hsuffix => by
        rcases List.suffix_cons_iff.mp hsuffix with heq | hsuffix
        · exact absurd (List.cons.inj heq).1.symm hc
        · exact hall rest hsuffix
      obtain ⟨rest,before,hreach⟩ := ih hrest
      refine ⟨rest,c::before,fun left => ?_⟩
      have hhead : (c::before++left).head? = some c := rfl
      rw [firstStar,if_neg hc,if_pos hhead]
      exact hreach left

theorem exists_not_harmless {pattern : Bytes} (h : ¬ StarsBeforeSlash pattern) :
    ∃ name, ¬ Harmless pattern name := by
  obtain ⟨rest,before,hreach⟩ := exists_firstStar h
  have hempty := (matches_filter rest).1
  by_cases hnil : rest = []
  · exact ⟨before++[],fun hh => (hh rest [] (hreach [])).1 hnil rfl⟩
  · by_cases hdouble : rest.head? = some star
    · by_cases hstars : rest.tail.filter (· ≠ star) = []
      · -- nothing but stars: they fit the empty string, which the loop refuses
        refine ⟨before++[],fun hh => ((hh rest [] (hreach [])).2.1 hdouble).mpr ?_ rfl⟩
        have hfits := (matches_filter rest).2
        rw [hstars] at hfits
        exact ⟨[],List.suffix_refl _,hfits⟩
      · -- some character: a name without it does not fit, and the loop takes it
        obtain ⟨c,hmem⟩ := List.exists_mem_of_ne_nil _ hstars
        obtain ⟨hin,hc⟩ := List.mem_filter.mp hmem
        have hother : c ∉ [c+1] := by
          rw [List.mem_singleton]
          intro heq
          have := congrArg UInt8.toNat heq
          simp at this
          omega
        refine ⟨before++[c+1],fun hh => ?_⟩
        obtain ⟨last,hlast,hfits⟩ :=
          ((hh rest [c+1] (hreach _)).2.1 hdouble).mp (List.cons_ne_nil _ _)
        exact hother (hlast.subset (mem_of_matches hfits (by simpa using hc) hin))
    · refine ⟨before++rest.filter (· ≠ star),fun hh => ?_⟩
      exact (hh rest _ (hreach _)).2.2 hnil hdouble
        (.segment [] hdouble (by simp) hempty)

/-- All names are told apart rightly by exactly the patterns whose stars are followed by a slash,
and with any other pattern exactly those names that do it no harm. -/
theorem accepts_exactly_iff (pattern : Bytes) :
    ((∀ name, globMatch pattern name = true ↔ Matches pattern name) ↔ StarsBeforeSlash pattern) ∧
    ∀ name, (globMatch pattern name = true ↔ Matches pattern name) ↔ Harmless pattern name := by
  refine ⟨⟨fun h => ?_,fun h name => agree_of_firstStar_none (firstStar_eq_none h name)⟩,
    agree_iff_harmless pattern⟩
  by_contra hstars
  obtain ⟨name,hname⟩ := exists_not_harmless hstars
  exact hname ((agree_iff_harmless pattern name).mp (h name))

/-- "*.js" does not match "a.js". -/
theorem extension_not_found :
    ¬ (globMatch (ascii "*.js") (ascii "a.js") = true ↔
      Matches (ascii "*.js") (ascii "a.js")) := by
  intro h
  have hfits : Matches (ascii "*.js") (ascii "a.js") :=
    .segment (ascii "a") (by decide) (by decide)
      (.char _ (by decide) (.char _ (by decide) (.char _ (by decide) .done)))
  have hrefused : globMatch (ascii "*.js") (ascii "a.js") = false := by decide
  rw [h.mpr hfits] at hrefused
  cases hrefused

end GlobMatch
end AsioQuickjs
