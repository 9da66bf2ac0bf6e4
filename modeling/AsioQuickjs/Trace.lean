import Mathlib.Data.List.Basic

/-! Runs of a system all of whose nondeterminism is in its actions. A step
function returns `none` where an action is not enabled, so a run is a list of
actions and a safety property is a statement about every list. -/
namespace AsioQuickjs
namespace Trace

variable {S A : Type*} {step : S → A → Option S}

def run (step : S → A → Option S) : S → List A → Option S
  | s, [] => some s
  | s, a::as => match step s a with
    | some t => run step t as
    | none => none

@[simp] theorem run_nil (s : S) : run step s [] = some s := rfl

theorem run_cons {s u : S} {a : A} {as : List A} :
    run step s (a::as) = some u ↔ ∃ t, step s a = some t ∧ run step t as = some u := by
  have hrun : run step s (a::as) = (match step s a with
      | some t => run step t as
      | none => none) := rfl
  rw [hrun]
  cases step s a with
  | none =>
    constructor
    · intro h
      cases h
    · rintro ⟨t,ht,-⟩
      cases ht
  | some t =>
    constructor
    · exact fun h => ⟨t,rfl,h⟩
    · rintro ⟨v,hv,h⟩
      cases hv
      exact h

theorem run_append {s u : S} {as bs : List A} :
    run step s (as++bs) = some u ↔ ∃ t, run step s as = some t ∧ run step t bs = some u := by
  induction as generalizing s with
  | nil => simp
  | cons a as ih =>
    simp only [List.cons_append,run_cons,ih]
    constructor
    · rintro ⟨t,ht,v,hv,hu⟩
      exact ⟨v,⟨t,ht,hv⟩,hu⟩
    · rintro ⟨v,⟨t,ht,hv⟩,hu⟩
      exact ⟨t,ht,v,hv,hu⟩

theorem run_keeps {I : S → Prop} (hstep : ∀ s a t, I s → step s a = some t → I t)
    {s t : S} {as : List A} (hs : I s) (h : run step s as = some t) : I t := by
  induction as generalizing s with
  | nil =>
    obtain rfl : s = t := by simpa using h
    exact hs
  | cons a as ih =>
    obtain ⟨u,hu,hr⟩ := run_cons.mp h
    exact ih (hstep s a u hs hu) hr

/-- What every step carries from a state to its successor, a run carries from
its first state to its last. -/
theorem run_relates {R : S → S → Prop} (hrefl : ∀ s, R s s)
    (htrans : ∀ s t u, R s t → R t u → R s u) (hstep : ∀ s a t, step s a = some t → R s t)
    {s t : S} {as : List A} (h : run step s as = some t) : R s t := by
  induction as generalizing s with
  | nil =>
    obtain rfl : s = t := by simpa using h
    exact hrefl s
  | cons a as ih =>
    obtain ⟨u,hu,hr⟩ := run_cons.mp h
    exact htrans s u t (hstep s a u hu) (ih hr)

/-- Every step of the run meets the condition `C` on the state before it. -/
def Meets (step : S → A → Option S) (C : S → A → Prop) : S → List A → Prop
  | _, [] => True
  | s, a::as => C s a ∧ match step s a with
    | some t => Meets step C t as
    | none => True

instance decidableMeets {C : S → A → Prop} [∀ s a, Decidable (C s a)] :
    (s : S) → (as : List A) → Decidable (Meets step C s as)
  | _, [] => .isTrue trivial
  | s, a::as =>
    match h : step s a with
    | none => decidable_of_iff (C s a) (by simp [Meets,h])
    | some t =>
      have := decidableMeets (C := C) t as
      decidable_of_iff (C s a ∧ Meets step C t as) (by simp [Meets,h])

theorem meets_cons {C : S → A → Prop} {s t : S} {a : A} {as : List A}
    (h : step s a = some t) : Meets step C s (a::as) ↔ C s a ∧ Meets step C t as := by
  have hmeets : Meets step C s (a::as) ↔ C s a ∧ match step s a with
      | some t => Meets step C t as
      | none => True := Iff.rfl
  rw [hmeets,h]

theorem meets_append {C : S → A → Prop} {s t : S} {as bs : List A}
    (h : run step s as = some t) :
    Meets step C s (as++bs) ↔ Meets step C s as ∧ Meets step C t bs := by
  induction as generalizing s with
  | nil =>
    obtain rfl : s = t := by simpa using h
    simp [Meets]
  | cons a as ih =>
    obtain ⟨u,hu,hr⟩ := run_cons.mp h
    rw [List.cons_append,meets_cons hu,meets_cons hu,ih hr,and_assoc]

theorem meets_of_forall {C : S → A → Prop} {as : List A} (h : ∀ a ∈ as, ∀ s, C s a) (s : S) :
    Meets step C s as := by
  induction as generalizing s with
  | nil => trivial
  | cons a as ih =>
    refine ⟨h a (List.mem_cons_self ..) s,?_⟩
    split
    · exact ih (fun b hb => h b (List.mem_cons_of_mem a hb)) _
    · trivial

theorem run_keeps_of_meets {I : S → Prop} {C : S → A → Prop}
    (hstep : ∀ s a t, I s → C s a → step s a = some t → I t)
    {s t : S} {as : List A} (hs : I s) (hC : Meets step C s as)
    (h : run step s as = some t) : I t := by
  induction as generalizing s with
  | nil =>
    obtain rfl : s = t := by simpa using h
    exact hs
  | cons a as ih =>
    obtain ⟨u,hu,hr⟩ := run_cons.mp h
    rw [meets_cons hu] at hC
    exact ih (hstep s a u hs hC.1 hu) hC.2 hr

theorem exists_first_breach {C : S → A → Prop} {s u : S} {as : List A}
    (h : run step s as = some u) (hC : ¬ Meets step C s as) :
    ∃ bs a cs t v, as = bs++a::cs ∧ run step s bs = some t ∧ Meets step C s bs ∧
      ¬ C t a ∧ step t a = some v ∧ run step v cs = some u := by
  induction as generalizing s with
  | nil => exact absurd trivial hC
  | cons a as ih =>
    obtain ⟨t,ht,hr⟩ := run_cons.mp h
    rw [meets_cons ht] at hC
    by_cases ha : C s a
    · have hm : ¬ Meets step C t as := fun hm => hC ⟨ha,hm⟩
      obtain ⟨bs,b,cs,v,w,rfl,hbs,hmeets,hb,hstep,hcs⟩ := ih hr hm
      exact ⟨a::bs,b,cs,v,w,rfl,run_cons.mpr ⟨t,ht,hbs⟩,(meets_cons ht).mpr ⟨ha,hmeets⟩,hb,
        hstep,hcs⟩
    · exact ⟨[],a,as,s,t,rfl,rfl,trivial,ha,ht,hr⟩

/-- What one step keeps exactly if it meets `C`, and nothing brings back, holds at the end
exactly if every step meets `C`. `I` is what every step keeps. -/
theorem holds_iff_meets {I P : S → Prop} {C : S → A → Prop}
    (hkeep : ∀ s a t, I s → step s a = some t → I t)
    (hstep : ∀ s a t, I s → P s → step s a = some t → (P t ↔ C s a))
    (hlost : ∀ s a t, I s → ¬ P s → step s a = some t → ¬ P t)
    {s u : S} {as : List A} (hI : I s) (hP : P s) (h : run step s as = some u) :
    P u ↔ Meets step C s as := by
  induction as generalizing s with
  | nil =>
    obtain rfl : s = u := by simpa using h
    exact iff_of_true hP trivial
  | cons a as ih =>
    obtain ⟨t,ht,hr⟩ := run_cons.mp h
    have hfirst := hstep s a t hI hP ht
    rw [meets_cons ht]
    by_cases hPt : P t
    · rw [ih (hkeep s a t hI ht) hPt hr]
      exact (and_iff_right (hfirst.mp hPt)).symm
    · refine iff_of_false (fun hPu => ?_) (fun hC => hPt (hfirst.mpr hC.1))
      have hI' : I u ∧ ¬ P u := run_keeps (I := fun s => I s ∧ ¬ P s)
        (fun s a t hs hst => ⟨hkeep s a t hs.1 hst,hlost s a t hs.1 hs.2 hst⟩)
        ⟨hkeep s a t hI ht,hPt⟩ hr
      exact hI'.2 hPu

/-- What follows from an invariant that steps keep if they meet `C`, and is lost by the first
step that does not, holds in all states of a run exactly if every step meets `C`. -/
theorem always_iff_meets {I P : S → Prop} {C : S → A → Prop}
    (hkeep : ∀ s a t, I s → C s a → step s a = some t → I t) (hhold : ∀ s, I s → P s)
    (hlost : ∀ s a t, I s → ¬ C s a → step s a = some t → ¬ P t)
    {s u : S} {as : List A} (hI : I s) (h : run step s as = some u) :
    (∀ bs t, bs <+: as → run step s bs = some t → P t) ↔ Meets step C s as := by
  constructor
  · intro hall
    by_contra hC
    obtain ⟨bs,a,cs,t,v,rfl,hbs,hmeets,ha,hstep,-⟩ := exists_first_breach h hC
    have hI' : I t := run_keeps_of_meets hkeep hI hmeets hbs
    refine hlost t a v hI' ha hstep (hall (bs++[a]) v ⟨cs,by simp⟩ ?_)
    exact run_append.mpr ⟨t,hbs,run_cons.mpr ⟨v,hstep,rfl⟩⟩
  · rintro hC bs t ⟨cs,rfl⟩ ht
    exact hhold t (run_keeps_of_meets hkeep hI ((meets_append ht).mp hC).1 ht)

section emits

variable {L : Type*} {out : S → A → List L}

def log (step : S → A → Option S) (out : S → A → List L) : S → List A → List L
  | _, [] => []
  | s, a::as => out s a++match step s a with
    | some t => log step out t as
    | none => []

theorem log_cons {s t : S} {a : A} {as : List A} (h : step s a = some t) :
    log step out s (a::as) = out s a++log step out t as := by
  have hlog : log step out s (a::as) = out s a++match step s a with
      | some t => log step out t as
      | none => [] := rfl
  rw [hlog,h]

theorem run_keeps_log_of_meets {I : S → List L → Prop} {C : S → A → Prop}
    (hstep : ∀ s a t l, I s l → C s a → step s a = some t → I t (l++out s a))
    {s t : S} {as : List A} {l : List L} (hs : I s l) (hc : Meets step C s as)
    (h : run step s as = some t) : I t (l++log step out s as) := by
  induction as generalizing s l with
  | nil =>
    obtain rfl : s = t := by simpa using h
    simpa [log] using hs
  | cons a as ih =>
    obtain ⟨u,hu,hr⟩ := run_cons.mp h
    obtain ⟨hca,hcu⟩ := (meets_cons hu).mp hc
    rw [log_cons hu,← List.append_assoc]
    exact ih (hstep s a u l hs hca hu) hcu hr

theorem run_keeps_log {I : S → List L → Prop}
    (hstep : ∀ s a t l, I s l → step s a = some t → I t (l++out s a))
    {s t : S} {as : List A} {l : List L} (hs : I s l) (h : run step s as = some t) :
    I t (l++log step out s as) :=
  run_keeps_log_of_meets (C := fun _ _ => True) (fun s a t l hI _ => hstep s a t l hI) hs
    (meets_of_forall (fun _ _ _ => trivial) s) h

/-- What one step keeps exactly if it meets `C` holds all along a run exactly if every
step meets `C`. `K` is what every step keeps. -/
theorem holds_along_iff_meets {K P : S → List L → Prop} {C : S → A → Prop}
    (hkeep : ∀ s a t l, K s l → step s a = some t → K t (l++out s a))
    (hstep : ∀ s a t l, K s l → P s l → step s a = some t → (P t (l++out s a) ↔ C s a))
    {s u : S} {as : List A} {l : List L} (hK : K s l) (hP : P s l)
    (h : run step s as = some u) :
    (∀ bs t, bs <+: as → run step s bs = some t → P t (l++log step out s bs)) ↔
      Meets step C s as := by
  induction as generalizing s l with
  | nil =>
    refine iff_of_true ?_ trivial
    rintro bs t hbs ht
    obtain rfl := List.prefix_nil.mp hbs
    obtain rfl : s = t := by simpa using ht
    simpa [log] using hP
  | cons a as ih =>
    obtain ⟨v,hv,hr⟩ := run_cons.mp h
    have hcons : ∀ {bs t}, run step v bs = some t → run step s (a::bs) = some t :=
      fun hb => run_cons.mpr ⟨v,hv,hb⟩
    have hfirst := hstep s a v l hK hP hv
    rw [meets_cons hv]
    constructor
    · intro hall
      have hPv : P v (l++out s a) := by
        have hone := hall [a] v ⟨as,rfl⟩ (hcons rfl)
        rwa [log_cons hv,log,List.append_nil] at hone
      refine ⟨hfirst.mp hPv,(ih (hkeep s a v l hK hv) hPv hr).mp ?_⟩
      intro bs t hbs ht
      have hlater := hall (a::bs) t (List.cons_prefix_cons.mpr ⟨rfl,hbs⟩) (hcons ht)
      rwa [log_cons hv,← List.append_assoc] at hlater
    · rintro ⟨hC,hmeets⟩ bs t hbs ht
      have hPv := hfirst.mpr hC
      cases bs with
      | nil =>
        obtain rfl : s = t := by simpa using ht
        simpa [log] using hP
      | cons b bs =>
        obtain ⟨rfl,hsub⟩ := List.cons_prefix_cons.mp hbs
        obtain ⟨v',hv',hrest⟩ := run_cons.mp ht
        obtain rfl : v = v' := Option.some.inj (hv.symm.trans hv')
        rw [log_cons hv,← List.append_assoc]
        exact (ih (hkeep s b v l hK hv) hPv hr).mpr hmeets bs t hsub hrest

end emits

-- A step appends to two logs, no more to the first than to the second. `Ok` is a bound that
-- holds of a state only if it held before.
section logs

variable {L : Type*} {sent expected : S → List L} {I Ok : S → Prop} {C : S → A → Prop}
  (hok : ∀ s a t, step s a = some t → Ok t → Ok s)
  (hkeep : ∀ s a t, I s → Ok t → step s a = some t → I t)
  (hlogs : ∀ s a t, I s → Ok t → step s a = some t → ∃ ps qs, sent t = sent s++ps ∧
    expected t = expected s++qs ∧ ps.length ≤ qs.length ∧ (ps = qs ↔ C s a))

include hok in
theorem ok_of_run {s t : S} {as : List A} (h : run step s as = some t) (ht : Ok t) : Ok s := by
  induction as generalizing s with
  | nil =>
    obtain rfl : s = t := by simpa using h
    exact ht
  | cons a as ih =>
    obtain ⟨u,hu,hr⟩ := run_cons.mp h
    exact hok s a u hu (ih hr)

include hok hkeep hlogs in
theorem logs_apart {s t : S} {as : List A} (hI : I s)
    (hle : (sent s).length ≤ (expected s).length) (hne : sent s ≠ expected s)
    (h : run step s as = some t) (ht : Ok t) : sent t ≠ expected t := by
  induction as generalizing s with
  | nil =>
    obtain rfl : s = t := by simpa using h
    exact hne
  | cons a as ih =>
    obtain ⟨u,hu,hr⟩ := run_cons.mp h
    have hOku := ok_of_run hok hr ht
    obtain ⟨ps,qs,hps,hqs,hlen,-⟩ := hlogs s a u hI hOku hu
    refine ih (hkeep s a u hI hOku hu) ?_ ?_ hr
    · rw [hps,hqs,List.length_append,List.length_append]
      omega
    · intro heq
      have hlength := congrArg List.length heq
      rw [hps,hqs,List.length_append,List.length_append] at hlength
      rw [hps,hqs] at heq
      exact hne (List.append_inj heq (by omega)).1

include hok hkeep hlogs in
theorem logs_agree_iff_meets {s t : S} {as : List A} (hI : I s)
    (heq : sent s = expected s) (h : run step s as = some t) (ht : Ok t) :
    sent t = expected t ↔ Meets step C s as := by
  induction as generalizing s with
  | nil =>
    obtain rfl : s = t := by simpa using h
    exact iff_of_true heq trivial
  | cons a as ih =>
    obtain ⟨u,hu,hr⟩ := run_cons.mp h
    have hOku := ok_of_run hok hr ht
    have hIu := hkeep s a u hI hOku hu
    obtain ⟨ps,qs,hps,hqs,hlen,hC⟩ := hlogs s a u hI hOku hu
    rw [meets_cons hu,← hC]
    constructor
    · intro hend
      by_cases hpq : ps = qs
      · have hagree : sent u = expected u := by rw [hps,hqs,heq,hpq]
        exact ⟨hpq,(ih hIu hagree hr).mp hend⟩
      · refine absurd hend (logs_apart hok hkeep hlogs hIu ?_ ?_ hr ht)
        · rw [hps,hqs,heq,List.length_append,List.length_append]
          omega
        · rw [hps,hqs,heq]
          exact fun happ => hpq (List.append_cancel_left happ)
    · rintro ⟨rfl,hrest⟩
      have hagree : sent u = expected u := by rw [hps,hqs,heq]
      exact (ih hIu hagree hr).mpr hrest

end logs

end Trace
end AsioQuickjs
