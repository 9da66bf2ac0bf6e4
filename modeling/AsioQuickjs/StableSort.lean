import Mathlib.Data.List.Sort

/-! Stable sorting of lists by an order on their elements in which different elements may be
alike: what it is, that there is one result only, and two ways to get there. -/
namespace AsioQuickjs
namespace StableSort

variable {α : Type*} (le : α → α → Bool)

def alike (a b : α) : Bool := le a b && le b a

/-- The second list is the first one in order, and what is alike stands as it stood. -/
structure Sorts (l s : List α) : Prop where
  sorted : s.Pairwise fun a b => le a b = true
  kept : ∀ a, s.filter (alike le a) = l.filter (alike le a)

/-- An element moves into a list that decreases, past all that is above it. -/
def insertBack (n : α) : List α → List α
  | [] => [n]
  | p::ps => if le p n then n::p::ps else p::insertBack n ps

/-- Elements are put one by one at the end of what is sorted so far, and moved forward. -/
def insertion (l : List α) : List α := (l.foldl (fun acc n => insertBack le n acc) []).reverse

section

variable {le}

theorem alike_iff {a b : α} : alike le a b = true ↔ le a b = true ∧ le b a = true :=
  Bool.and_eq_true_iff

theorem mem_filter_alike (hrefl : ∀ a, le a a = true) {a : α} {l : List α} :
    a ∈ l.filter (alike le a) ↔ a ∈ l := by
  rw [List.mem_filter,alike_iff]
  exact and_iff_left ⟨hrefl a,hrefl a⟩

variable (htrans : ∀ a b c, le a b = true → le b c = true → le a c = true)
  (htotal : ∀ a b, (le a b || le b a) = true)

theorem le_of_not (h : ∀ a b, (le a b || le b a) = true) {a b : α} (hab : ¬le a b = true) :
    le b a = true :=
  (Bool.or_eq_true_iff.mp (h a b)).resolve_left hab

theorem refl_of_total (h : ∀ a b, (le a b || le b a) = true) (a : α) : le a a = true :=
  (Bool.or_eq_true_iff.mp (h a a)).elim id id

include htotal in
/-- There is no other stable order: the least elements of both lists are alike, so they are
the same one. -/
theorem Sorts.unique {l s t : List α} (hs : Sorts le l s) (ht : Sorts le l t) : s = t := by
  have hrefl := refl_of_total htotal
  have hsame (a : α) := (hs.kept a).trans (ht.kept a).symm
  have hsorted := hs.sorted
  have hsorted' := ht.sorted
  clear hs ht
  induction s generalizing t with
  | nil =>
    cases t with
    | nil => rfl
    | cons b t =>
      have hmem : b ∈ ([] : List α) := by
        rw [← mem_filter_alike hrefl,hsame b,mem_filter_alike hrefl]
        exact List.mem_cons_self
      cases hmem
  | cons a s ih =>
    obtain ⟨hfirst,hrest⟩ := List.pairwise_cons.mp hsorted
    have ha : a ∈ t := by
      rw [← mem_filter_alike hrefl,← hsame a,mem_filter_alike hrefl]
      exact List.mem_cons_self
    cases t with
    | nil => cases ha
    | cons b t =>
      obtain ⟨hfirst',hrest'⟩ := List.pairwise_cons.mp hsorted'
      have hb : b ∈ a::s := by
        rw [← mem_filter_alike hrefl,hsame b,mem_filter_alike hrefl]
        exact List.mem_cons_self
      have hab : le a b = true := by
        cases hb with
        | head => exact hrefl a
        | tail _ hb => exact hfirst b hb
      have hba : le b a = true := by
        cases ha with
        | head => exact hrefl _
        | tail _ ha => exact hfirst' a ha
      have hheads := hsame a
      rw [List.filter_cons_of_pos (alike_iff.mpr ⟨hrefl a,hrefl a⟩),
        List.filter_cons_of_pos (alike_iff.mpr ⟨hab,hba⟩)] at hheads
      obtain rfl : a = b := (List.cons.inj hheads).1
      refine congrArg (a::·) (ih (fun c => ?_) hrest hrest')
      have hc := hsame c
      rw [List.filter_cons,List.filter_cons] at hc
      split at hc
      · exact (List.cons.inj hc).2
      · exact hc

include htrans htotal in
theorem insertBack_sorted {n : α} {acc : List α}
    (h : acc.Pairwise fun a b => le b a = true) :
    (insertBack le n acc).Pairwise (fun a b => le b a = true) ∧
      ∀ a ∈ insertBack le n acc, a = n ∨ a ∈ acc := by
  induction acc with
  | nil => simp [insertBack]
  | cons p ps ih =>
    obtain ⟨hfirst,hrest⟩ := List.pairwise_cons.mp h
    rw [insertBack]
    split
    · next hp =>
      refine ⟨List.pairwise_cons.mpr ⟨fun q hq => ?_,h⟩,fun a ha => List.mem_cons.mp ha⟩
      cases hq with
      | head => exact hp
      | tail _ hq => exact htrans _ _ _ (hfirst q hq) hp
    · next hp =>
      obtain ⟨hsorted,hmem⟩ := ih hrest
      refine ⟨List.pairwise_cons.mpr ⟨fun q hq => ?_,hsorted⟩,fun a ha => ?_⟩
      · obtain rfl | hq := hmem q hq
        · exact le_of_not htotal hp
        · exact hfirst q hq
      · cases ha with
        | head => exact .inr List.mem_cons_self
        | tail _ ha => exact (hmem a ha).imp_right (List.mem_cons_of_mem p)

include htrans in
theorem filter_insertBack (a n : α) (acc : List α) :
    (insertBack le n acc).filter (alike le a) = (n::acc).filter (alike le a) := by
  induction acc with
  | nil => rfl
  | cons p ps ih =>
    rw [insertBack]
    split
    · rfl
    · next hp =>
      simp only [List.filter_cons,ih]
      by_cases hn : alike le a n = true
      · have hnot : ¬alike le a p = true := by
          intro hap
          rw [alike_iff] at hn hap
          exact hp (htrans p a n hap.2 hn.1)
        rw [if_neg hnot,if_pos hn,if_pos hn,if_neg hnot]
      · rw [if_neg hn,if_neg hn]

include htrans htotal in
theorem sorts_insertion (l : List α) : Sorts le l (insertion le l) := by
  have hfold (done : List α) (acc : List α) (hacc : Sorts le done acc.reverse) :
      Sorts le (done++l) (l.foldl (fun acc n => insertBack le n acc) acc).reverse := by
    induction l generalizing done acc with
    | nil => simpa using hacc
    | cons n l ih =>
      have hnext : Sorts le (done++[n]) (insertBack le n acc).reverse := by
        refine ⟨?_,fun a => ?_⟩
        · rw [List.pairwise_reverse]
          exact (insertBack_sorted htrans htotal (List.pairwise_reverse.mp hacc.sorted)).1
        · rw [List.filter_reverse,filter_insertBack htrans,List.filter_append,← hacc.kept a,
            List.filter_reverse,← List.filter_reverse,List.reverse_cons,List.filter_append,
            List.filter_reverse]
      have hrest := ih (done++[n]) (insertBack le n acc) hnext
      rwa [List.append_assoc] at hrest
  exact hfold [] [] ⟨List.Pairwise.nil,fun _ => rfl⟩

include htrans in
theorem filter_merge (a : α) {s t : List α} (hs : s.Pairwise fun a b => le a b = true) :
    (s.merge t le).filter (alike le a) = s.filter (alike le a)++t.filter (alike le a) := by
  induction s generalizing t with
  | nil => simp
  | cons x s ih =>
    obtain ⟨hfirst,hrest⟩ := List.pairwise_cons.mp hs
    induction t with
    | nil => simp
    | cons y t iht =>
      rw [List.cons_merge_cons]
      split
      · rw [List.filter_cons,ih hrest]
        by_cases hx : alike le a x = true
        · rw [if_pos hx,List.filter_cons_of_pos hx]
          rfl
        · rw [if_neg hx,List.filter_cons_of_neg hx]
      · next hxy =>
        rw [List.filter_cons,iht]
        by_cases hy : alike le a y = true
        · have hnone : (x::s).filter (alike le a) = [] := by
            refine List.filter_eq_nil_iff.mpr fun z hz haz => hxy ?_
            have hxz : le x z = true ∨ x = z := by
              cases hz with
              | head => exact .inr rfl
              | tail _ hz => exact .inl (hfirst z hz)
            rw [alike_iff] at hy haz
            have hzy := htrans z a y haz.2 hy.1
            obtain hxz | rfl := hxz
            · exact htrans x z y hxz hzy
            · exact hzy
          rw [if_pos hy,hnone,List.filter_cons_of_pos hy]
          rfl
        · rw [if_neg hy,List.filter_cons_of_neg hy]

include htrans htotal in
theorem sorts_merge {l m s t : List α} (hs : Sorts le l s) (ht : Sorts le m t) :
    Sorts le (l++m) (s.merge t le) where
  sorted := List.pairwise_merge htrans htotal s t hs.sorted ht.sorted
  kept a := by
    rw [filter_merge htrans a hs.sorted,hs.kept a,ht.kept a,List.filter_append]

end

end StableSort
end AsioQuickjs
