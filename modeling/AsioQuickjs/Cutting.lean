import Mathlib.Data.List.Infix
import Mathlib.Data.Nat.Find

/-! Cutting a list at the occurrences of a delimiter, from left to right. -/
namespace AsioQuickjs
namespace Cutting

variable {α : Type*} {d p s x y : List α}

theorem prefix_append_cons {c : α} (hc : c ∉ d) : d <+: x++c::y ↔ d <+: x := by
  constructor
  · rintro ⟨s,h⟩
    rcases List.append_eq_append_iff.mp h with ⟨a,hx,-⟩ | ⟨a,hd,ha⟩
    · exact ⟨a,hx.symm⟩
    · cases a with
      | nil => exact ⟨[],by rw [hd]; simp⟩
      | cons c' a =>
        rw [List.cons_append] at ha
        obtain ⟨rfl,-⟩ := List.cons.inj ha
        exact absurd (by rw [hd]; simp) hc
  · exact fun h => h.trans (List.prefix_append _ _)

theorem infix_append_cons {c : α} (hc : c ∉ d) : d <:+: x++c::y ↔ d <:+: x ∨ d <:+: y := by
  constructor
  · rintro ⟨p,s,h⟩
    rcases List.append_eq_append_iff.mp h with ⟨a,hx,-⟩ | ⟨a,hpd,hs⟩
    · exact .inl ⟨p,a,hx.symm⟩
    · cases a with
      | nil =>
        rw [List.append_nil] at hpd
        exact .inl ⟨p,[],by rw [List.append_nil,hpd]⟩
      | cons c' a =>
        rw [List.cons_append] at hs
        obtain ⟨rfl,hy⟩ := List.cons.inj hs
        have hend : p++d = (x++[c])++a := by rw [hpd,List.append_assoc,List.singleton_append]
        rcases List.append_eq_append_iff.mp hend with ⟨e,hxc,hd⟩ | ⟨e,-,ha⟩
        · rcases List.eq_nil_or_concat' e with rfl | ⟨e,c'',rfl⟩
          · exact .inr ⟨[],s,by rw [hy,hd,List.nil_append,List.nil_append]⟩
          · rw [← List.append_assoc] at hxc
            have hlast := (List.append_inj' hxc rfl).2
            rw [List.singleton_inj] at hlast
            exact absurd (by rw [hd,hlast]; simp) hc
        · exact .inr ⟨e,s,by rw [hy,ha]⟩
  · rintro (⟨p,s,rfl⟩ | ⟨p,s,rfl⟩)
    · exact ⟨p,s++c::y,by simp⟩
    · exact ⟨x++c::p,s,by simp⟩

/-- No proper part is at both ends of the delimiter. -/
def Unbordered (d : List α) : Prop := ∀ x ∈ d.inits, x <:+ d → x = [] ∨ x = d

instance [DecidableEq α] (d : List α) : Decidable (Unbordered d) :=
  inferInstanceAs (Decidable (∀ x ∈ d.inits, x <:+ d → x = [] ∨ x = d))

theorem cut_cases_of_le (hd : Unbordered d) {p' s' : List α} (hle : p'.length ≤ p.length)
    (h : p'++d++s' = p++d++s) : (p' = p ∧ s' = s) ∨ ∃ m, p = p'++d++m ∧ s' = m++d++s := by
  rw [List.append_assoc,List.append_assoc] at h
  obtain ⟨a,rfl⟩ : p' <+: p :=
    List.prefix_of_prefix_length_le ⟨_,h⟩ (List.prefix_append _ _) hle
  rw [List.append_assoc,List.append_cancel_left_eq] at h
  rcases List.append_eq_append_iff.mp h with ⟨m,ha,hs⟩ | ⟨c,hdc,hc⟩
  · exact .inr ⟨m,by rw [ha,List.append_assoc],by rw [hs,List.append_assoc]⟩
  · have hpre : c <+: d :=
      List.prefix_of_prefix_length_le ⟨s',hc.symm⟩ (List.prefix_append _ _)
        (by rw [hdc,List.length_append]; omega)
    rcases hd c ((List.mem_inits c d).mpr hpre) ⟨a,hdc.symm⟩ with rfl | rfl
    · rw [List.append_nil] at hdc
      rw [List.nil_append] at hc
      exact .inr ⟨[],by rw [hdc,List.append_nil],by rw [← hc,List.nil_append]⟩
    · have ha : a = [] := List.append_left_eq_self.mp hdc.symm
      rw [List.append_cancel_left_eq] at hc
      exact .inl ⟨by rw [ha,List.append_nil],hc.symm⟩

theorem cut_eq_iff (hd : Unbordered d) {p' s' : List α} :
    p'++d++s' = p++d++s ↔ (p' = p ∧ s' = s) ∨ (∃ m, p = p'++d++m ∧ s' = m++d++s) ∨
      ∃ m, p' = p++d++m ∧ s = m++d++s' := by
  constructor
  · intro h
    rcases Nat.le_total p'.length p.length with hle | hle
    · exact (cut_cases_of_le hd hle h).imp_right .inl
    · rcases cut_cases_of_le hd hle h.symm with ⟨rfl,rfl⟩ | hcut
      · exact .inl ⟨rfl,rfl⟩
      · exact .inr (.inr hcut)
  · rintro (⟨rfl,rfl⟩ | ⟨m,rfl,rfl⟩ | ⟨m,rfl,rfl⟩)
    · rfl
    · simp only [List.append_assoc]
    · simp only [List.append_assoc]

section

variable [BEq α] [LawfulBEq α]

theorem dropInfix?_of_first
    (h : ∀ p' s', p'++d++s' = p++d++s → p.length ≤ p'.length) :
    (p++d++s).dropInfix? d = some (p,s) := by
  refine List.dropInfix?_eq_some_iff.mpr ⟨⟨d,rfl,BEq.rfl⟩,fun p' d' s' heq hd => ?_⟩
  rw [eq_of_beq hd] at heq
  exact h p' s' heq.symm

theorem eq_of_dropInfix? {l : List α} (h : l.dropInfix? d = some (p,s)) :
    l = p++d++s ∧ ∀ p' s', l = p'++d++s' → p.length ≤ p'.length := by
  obtain ⟨⟨d',hl,hd⟩,hfirst⟩ := List.dropInfix?_eq_some_iff.mp h
  rw [eq_of_beq hd] at hl
  exact ⟨hl,fun p' s' heq => hfirst p' d s' heq BEq.rfl⟩

theorem dropInfix?_eq_none {l : List α} (h : ¬ d <:+: l) : l.dropInfix? d = none := by
  cases hl : l.dropInfix? d with
  | none => rfl
  | some r =>
    obtain ⟨p,s⟩ := r
    exact absurd ⟨p,s,(eq_of_dropInfix? hl).1.symm⟩ h

theorem dropInfix?_unbordered (hd : Unbordered d) (hp : ¬ d <:+: p) :
    (p++d++s).dropInfix? d = some (p,s) := by
  refine dropInfix?_of_first fun p' s' h => ?_
  by_contra hlt
  rcases cut_cases_of_le hd (by omega) h with ⟨rfl,-⟩ | ⟨m,rfl,-⟩
  · exact hlt le_rfl
  · exact hp ⟨p',m,rfl⟩

theorem exists_dropInfix? {l : List α} (h : d <:+: l) : ∃ r, l.dropInfix? d = some r := by
  classical
  have hex : ∃ k p s, p++d++s = l ∧ p.length = k := by
    obtain ⟨p,s,hl⟩ := h
    exact ⟨_,p,s,hl,rfl⟩
  obtain ⟨p,s,hl,hlength⟩ := Nat.find_spec hex
  refine ⟨(p,s),?_⟩
  rw [← hl]
  refine dropInfix?_of_first fun p' s' h' => ?_
  rw [hlength]
  exact Nat.find_min' hex ⟨p',s',h'.trans hl,rfl⟩

theorem not_infix_of_dropInfix? (hd : d ≠ []) {l : List α} (h : l.dropInfix? d = some (p,s)) :
    ¬ d <:+: p := by
  obtain ⟨hl,hfirst⟩ := eq_of_dropInfix? h
  rintro ⟨p',m,rfl⟩
  have hle := hfirst p' (m++d++s) (by rw [hl]; simp only [List.append_assoc])
  have hpos := List.length_pos_iff.mpr hd
  simp only [List.length_append] at hle
  omega

/-- `p` is cut off by the delimiter that follows it. -/
def CutsAt (d p : List α) : Prop := ∀ s, (p++d++s).dropInfix? d = some (p,s)

theorem cutsAt_nil : CutsAt d [] := fun _ => dropInfix?_of_first fun _ _ _ => Nat.zero_le _

/-- It is enough that the delimiter is not in `p` when its last element is not in the delimiter. -/
theorem cutsAt_concat {c : α} (hc : c ∉ d) (hp : ¬ d <:+: p) : CutsAt d (p++[c]) := by
  refine fun s => dropInfix?_of_first fun p' s' h => ?_
  rw [List.length_append,List.length_singleton]
  by_contra hlt
  rw [List.append_assoc,List.append_assoc,List.append_assoc] at h
  obtain ⟨a,rfl⟩ : p' <+: p :=
    List.prefix_of_prefix_length_le ⟨_,h⟩ (List.prefix_append _ _) (by omega)
  rw [List.append_assoc,List.append_cancel_left_eq,List.singleton_append] at h
  rcases List.append_eq_append_iff.mp h with ⟨m,rfl,-⟩ | ⟨e,hd,he⟩
  · exact hp ⟨p',m,by simp⟩
  · cases e with
    | nil =>
      rw [List.append_nil] at hd
      exact hp ⟨p',[],by rw [hd,List.append_nil]⟩
    | cons c' e =>
      obtain ⟨rfl,-⟩ := List.cons.inj he
      exact hc (by rw [hd]; simp)

def split (d : List α) : ℕ → List α → List (List α)
  | 0, l => [l]
  | n+1, l => match l.dropInfix? d with
    | none => [l]
    | some (p,s) => p::split d n s

theorem split_of_free {l : List α} (h : ¬ d <:+: l) (n : ℕ) : split d n l = [l] := by
  cases n with
  | zero => rfl
  | succ n => rw [split,dropInfix?_eq_none h]

theorem split_pieces_of_le {ps : List (List α)} {last : List α} (hps : ∀ p ∈ ps, CutsAt d p)
    (hlast : ¬ d <:+: last) {n : ℕ} (hn : ps.length ≤ n) :
    split d n (ps.flatMap (·++d)++last) = ps++[last] := by
  induction ps generalizing n with
  | nil => exact split_of_free hlast n
  | cons p ps ih =>
    cases n with
    | zero => cases hn
    | succ n =>
      have hcut : ((p::ps).flatMap (·++d)++last).dropInfix? d =
          some (p,ps.flatMap (·++d)++last) := by
        rw [List.flatMap_cons,List.append_assoc]
        exact hps p (by simp) _
      have htail := ih (fun q hq => hps q (List.mem_cons_of_mem p hq))
        (Nat.le_of_succ_le_succ hn)
      rw [split,hcut,List.cons_append,← htail]

theorem split_pieces (hd : d ≠ []) {ps : List (List α)} {last l : List α}
    (hps : ∀ p ∈ ps, CutsAt d p) (hlast : ¬ d <:+: last) (hl : l = ps.flatMap (·++d)++last) :
    split d l.length l = ps++[last] := by
  have hlength : ps.length ≤ (ps.flatMap (·++d)).length := by
    have hpos := List.length_pos_iff.mpr hd
    clear hps hl
    induction ps with
    | nil => exact Nat.zero_le _
    | cons p ps ih =>
      rw [List.flatMap_cons,List.length_append,List.length_append,List.length_cons]
      omega
  subst hl
  refine split_pieces_of_le hps hlast (hlength.trans ?_)
  rw [List.length_append]
  exact Nat.le_add_right _ _

end

end Cutting
end AsioQuickjs
