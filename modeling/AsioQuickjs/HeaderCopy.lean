import AsioQuickjs.HeaderLaws

/-! `new Headers(headers)`: the copy is made of the combined values of the other object, and
each of them is normalized again. -/
namespace AsioQuickjs
namespace Headers

open HeaderList (AllNormal Normal)

/-- The name has several values, and the last of them is empty. -/
def EndsEmpty (h : Headers) (n : JsString) : Prop :=
  2 ≤ (valuesOf n h.list).length ∧ (valuesOf n h.list).getLast? = some []

/-- A value without blanks at its ends. -/
def Trimmed (v : JsString) : Prop :=
  (∀ c, v.head? = some c → isBlank c = false) ∧ ∀ c, v.getLast? = some c → isBlank c = false

theorem trimmed_iff {v : JsString} : trim v = v ↔ Trimmed v := by
  refine ⟨fun h => ?_,fun h => HeaderList.trim_of_ends h.1 h.2⟩
  rw [← h]
  exact ⟨fun c => HeaderList.head_trim,fun c => HeaderList.last_trim⟩

theorem joined_cons (v w : JsString) (vs : List JsString) :
    joined (v::w::vs) = v++js ", "++joined (w::vs) := by
  rw [joined,List.intercalate_cons_cons]
  rfl

theorem head_joined {vs : List JsString} (hvs : ∀ v ∈ vs, Trimmed v) {c : ℕ}
    (hc : (joined vs).head? = some c) : isBlank c = false := by
  cases vs with
  | nil => cases hc
  | cons v vs =>
    have hv := (hvs v List.mem_cons_self).1
    cases vs with
    | nil =>
      refine hv c ?_
      simpa [joined] using hc
    | cons w ws =>
      rw [joined_cons,List.append_assoc] at hc
      cases v with
      | nil =>
        obtain rfl : 44 = c := Option.some.inj hc
        rfl
      | cons d ds => exact hv c hc

/-- The last character of joined values is one of the last value, or the blank before it. -/
theorem last_joined {vs : List JsString} (hvs : ∀ v ∈ vs, Trimmed v) :
    (∀ c, (joined vs).getLast? = some c → isBlank c = false) ↔
      ¬ (2 ≤ vs.length ∧ vs.getLast? = some []) := by
  induction vs with
  | nil => simp [joined]
  | cons v vs ih =>
    cases vs with
    | nil =>
      have hv := (hvs v List.mem_cons_self).2
      simpa [joined] using hv
    | cons w ws =>
      rw [joined_cons]
      cases ws with
      | nil =>
        have hw := (hvs w (by simp)).2
        cases w with
        | nil =>
          refine iff_of_false (fun hall => ?_) (by simp)
          have hblank := hall 32 (by simp [joined,js])
          cases hblank
        | cons d ds =>
          refine iff_of_true (fun c hc => hw c ?_) (by simp)
          simpa [joined,List.getLast?_append] using hc
      | cons u us =>
        have hrest := ih fun x hx => hvs x (List.mem_cons_of_mem _ hx)
        have hne : joined (w::u::us) ≠ [] := by
          rw [joined_cons]
          simp [js]
        have hlast : (v++js ", "++joined (w::u::us)).getLast? = (joined (w::u::us)).getLast? := by
          rw [List.getLast?_append_of_ne_nil _ hne]
        rw [hlast,hrest]
        simp

theorem trim_joined_iff {vs : List JsString} (hvs : ∀ v ∈ vs, Trimmed v) :
    trim (joined vs) = joined vs ↔ ¬ (2 ≤ vs.length ∧ vs.getLast? = some []) := by
  rw [trimmed_iff,← last_joined hvs]
  exact and_iff_right fun c => head_joined hvs

def copied (h : Headers) : Headers := { list := h.combined.map fun p => (p.1,trim p.2) }

theorem ofPairs_eq {pairs : List (JsString × JsString)}
    (hs : ∀ p ∈ pairs, Valid p ∧ toLowerCase p.1 = p.1) :
    ofPairs pairs = .ok { list := pairs.map fun p => (p.1,trim p.2) } := by
  have hfold (acc : List (JsString × JsString)) :
      pairs.foldlM (fun (h : Headers) p => h.append p.1 p.2) { list := acc } =
        Except.ok { list := acc++pairs.map fun p => (p.1,trim p.2) } := by
    induction pairs generalizing acc with
    | nil => simp [pure,Except.pure]
    | cons p ps ih =>
      obtain ⟨hvalid,hlower⟩ := hs p List.mem_cons_self
      have happend : ({ list := acc } : Headers).append p.1 p.2 =
          .ok { list := acc++[(p.1,trim p.2)] } := by
        rw [append,if_neg (by simp),normalizeName_of_valid hvalid,normalizeValue_of_valid hvalid,
          hlower]
        rfl
      have hrest := ih (fun q hq => hs q (List.mem_cons_of_mem _ hq)) (acc++[(p.1,trim p.2)])
      rw [List.foldlM_cons,happend]
      refine Eq.trans hrest ?_
      rw [List.map_cons,List.append_assoc]
      rfl
  exact hfold []

theorem ofHeaders_eq {h : Headers} (hs : AllNormal h) : ofHeaders h = .ok h.copied := by
  refine ofPairs_eq fun p hp => ?_
  have hname := normalizeName_combined hs (List.mem_map_of_mem hp)
  exact ⟨combined_valid (fun q hq => (hs q hq).valid) p hp,
    (HeaderList.normalizeName_eq hname).symm⟩

theorem valuesOf_sorted_list {ps : List (JsString × JsString)}
    (hs : (ps.map (·.1)).Pairwise (· < ·)) (n : JsString) :
    valuesOf n ps = (ps.lookup n).toList := by
  induction ps with
  | nil => rfl
  | cons p ps ih =>
    obtain ⟨hfirst,hrest⟩ := List.pairwise_cons.mp hs
    rw [lookup_cons_eq]
    by_cases hp : p.1 = n
    · have hnone : ps.filter (·.1 = n) = [] := List.filter_eq_nil_iff.mpr fun q hq hqn => by
        have hlt : p.1 < q.1 := hfirst q.1 (List.mem_map_of_mem hq)
        rw [of_decide_eq_true hqn,hp] at hlt
        exact List.lt_irrefl n hlt
      simp [valuesOf,hp,hnone]
    · rw [if_neg hp,← ih hrest]
      simp [valuesOf,hp]

theorem lookup_map_value (f : JsString → JsString) (ps : List (JsString × JsString))
    (n : JsString) : (ps.map fun p => (p.1,f p.2)).lookup n = (ps.lookup n).map f := by
  induction ps with
  | nil => rfl
  | cons p ps ih =>
    rw [List.map_cons,lookup_cons_eq,lookup_cons_eq,ih]
    split <;> rfl

theorem get_copied (h : Headers) (name : JsString) :
    h.copied.get name = (h.get name).map (Option.map trim) := by
  rw [get,get]
  cases normalizeName name with
  | error e => rfl
  | ok n =>
    have hsorted : (h.copied.list.map (·.1)).Pairwise (· < ·) := by
      rw [copied,List.map_map]
      exact h.combined_sorted
    have hlookup : h.copied.list.lookup n = (h.combined.lookup n).map trim :=
      lookup_map_value trim h.combined n
    simp only [Except.map,← lookup_combined,valuesOf_sorted_list hsorted,hlookup]
    cases h.combined.lookup n with
    | none => rfl
    | some v => simp [joined]

theorem trimmed_of_normal {h : Headers} (hs : AllNormal h) (n : JsString) :
    ∀ v ∈ valuesOf n h.list, Trimmed v := by
  intro v hv
  obtain ⟨p,hp,rfl⟩ := List.mem_map.mp hv
  have hnormal := hs p (List.mem_of_mem_filter hp)
  exact ⟨hnormal.first,hnormal.last⟩

/-- The copy has the same values exactly if no name has several values and an empty last one. -/
theorem get_copied_iff {h : Headers} (hs : AllNormal h) :
    (∀ name, h.copied.get name = h.get name) ↔ ∀ n, ¬ EndsEmpty h n := by
  constructor
  · intro hall n hends
    have hn : n ∈ h.combined.map (·.1) := by
      rw [mem_combined_names,← Bool.not_eq_false,← valuesOf_eq_nil]
      have hlength := hends.1
      omega
    have hname := normalizeName_combined hs hn
    have hsame := hall n
    rw [get_copied,HeaderList.get_of_normalize hname,
      if_neg (by have hlength := hends.1; omega)] at hsame
    exact (trim_joined_iff (trimmed_of_normal hs n)).mp
      (Option.some.inj (Except.ok.inj hsame)) hends
  · intro hnone name
    rw [get_copied]
    cases hn : normalizeName name with
    | error e => rw [get,hn]; rfl
    | ok n =>
      rw [HeaderList.get_of_normalize hn]
      split
      · rfl
      · have htrim := (trim_joined_iff (trimmed_of_normal hs n)).mpr (hnone n)
        simp only [Except.map,Option.map_some,htrim]

end Headers
end AsioQuickjs
