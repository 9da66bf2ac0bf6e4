import Mathlib.Algebra.BigOperators.Group.Finset.Basic
import Mathlib.Algebra.Order.BigOperators.Group.Finset
import Mathlib.Algebra.BigOperators.Ring.Finset

/-! Counters kept by hand. A program adds to a counter where a holder takes its
share and subtracts where the holder gives it back; the counter is right when it
is the sum of the shares still held. -/
namespace AsioQuickjs
namespace Tally

variable {ι : Type*} {share share' : ι → ℤ} {c c' : ℤ}

/-- Finitely many holders have a share, and `c` is what they have together. -/
def Counts (share : ι → ℤ) (c : ℤ) : Prop :=
  ∃ s : Finset ι, (∀ i, i ∉ s → share i = 0) ∧ c = ∑ i ∈ s, share i

theorem Counts.none (hnone : ∀ i, share i = 0) : Counts share 0 :=
  ⟨∅,fun i _ => hnone i,Finset.sum_empty.symm⟩

theorem Counts.move [DecidableEq ι] (h : Counts share c) (i : ι)
    (hframe : ∀ j, j ≠ i → share' j = share j) (hc : c'-c = share' i-share i) :
    Counts share' c' := by
  obtain ⟨s,hs,rfl⟩ := h
  have hsum : ∑ j ∈ insert i s, share j = ∑ j ∈ s, share j :=
    (Finset.sum_subset (Finset.subset_insert i s) fun j _ hj => hs j hj).symm
  have herase : ∑ j ∈ (insert i s).erase i, share' j = ∑ j ∈ (insert i s).erase i, share j :=
    Finset.sum_congr rfl fun j hj => hframe j (Finset.ne_of_mem_erase hj)
  refine ⟨insert i s,?_,?_⟩
  · intro j hj
    have hji : j ≠ i := fun he => hj (he ▸ Finset.mem_insert_self i s)
    rw [hframe j hji]
    exact hs j fun hmem => hj (Finset.mem_insert_of_mem hmem)
  · rw [← Finset.add_sum_erase _ _ (Finset.mem_insert_self i s),herase]
    rw [← Finset.add_sum_erase _ _ (Finset.mem_insert_self i s)] at hsum
    omega

theorem Counts.none_held (h : Counts share 0) (hnonneg : ∀ i, 0 ≤ share i) (i : ι) :
    share i = 0 := by
  obtain ⟨s,hs,hsum⟩ := h
  by_cases hi : i ∈ s
  · exact (Finset.sum_eq_zero_iff_of_nonneg fun j _ => hnonneg j).mp hsum.symm i hi
  · exact hs i hi

theorem Counts.eq_zero (h : Counts share c) (hnone : ∀ i, share i = 0) : c = 0 := by
  obtain ⟨s,-,rfl⟩ := h
  exact Finset.sum_eq_zero fun i _ => hnone i

theorem Counts.pos (h : Counts share c) (hnonneg : ∀ i, 0 ≤ share i) {i : ι}
    (hi : 0 < share i) : 0 < c := by
  have hle : 0 ≤ c := by
    obtain ⟨s,-,rfl⟩ := h
    exact Finset.sum_nonneg fun j _ => hnonneg j
  rcases hle.lt_or_eq with hlt | rfl
  · exact hlt
  · have := h.none_held hnonneg i
    omega

theorem Counts.eq_length [DecidableEq ι] (h : Counts share c) {l : List ι} (hl : l.Nodup)
    (hshare : ∀ i, share i = if i ∈ l then 1 else 0) : c = l.length := by
  obtain ⟨s,hs,rfl⟩ := h
  have hsub : s.filter (· ∈ l) = l.toFinset := by
    ext i
    simp only [Finset.mem_filter,List.mem_toFinset,and_iff_right_iff_imp]
    intro hi
    by_contra hns
    have hzero := hs i hns
    rw [hshare,if_pos hi] at hzero
    cases hzero
  rw [Finset.sum_congr rfl fun i _ => hshare i,Finset.sum_boole,hsub,
    List.toFinset_card_of_nodup hl]

end Tally
end AsioQuickjs
