import AsioQuickjs.HeaderList

/-! Lookup in `Headers` and the iterators over it. The methods `get` and `has` scan the list as
it is; iteration sorts a copy, groups it by name and hands it out item by item. -/
namespace AsioQuickjs
namespace Headers

open HeaderList (Init new run AllNormal)

def valuesOf (n : JsString) (ps : List (JsString × JsString)) : List JsString :=
  (ps.filter (·.1 = n)).map (·.2)

/-- `values.join(', ')`. -/
def joined (values : List JsString) : JsString := (js ", ").intercalate values

def get (h : Headers) (name : JsString) : Except JsError (Option JsString) :=
  (normalizeName name).map fun n =>
    let values := valuesOf n h.list
    if values.length = 0 then none else some (joined values)

/-- An object of `makeHeadersIterator`. -/
structure HeadersIterator (α : Type) where
  items : List α
  index : ℕ

section

variable {α : Type}

def makeHeadersIterator (items : List α) : HeadersIterator α := ⟨items,0⟩

/-- The value, unless `done`, and the iterator behind the call. -/
def HeadersIterator.next (it : HeadersIterator α) : Option α × HeadersIterator α :=
  if h : it.index < it.items.length then (some it.items[it.index],{ it with index := it.index+1 })
  else (none,it)

theorem HeadersIterator.next_some {it it' : HeadersIterator α} {a : α}
    (h : it.next = (some a,it')) :
    it.items.drop it.index = a::it'.items.drop it'.index ∧
      it'.items.length-it'.index < it.items.length-it.index := by
  simp only [next] at h
  split at h
  · next hlt =>
    cases h
    exact ⟨List.drop_eq_getElem_cons hlt,Nat.sub_lt_sub_left hlt (Nat.lt_succ_self _)⟩
  · cases h

theorem HeadersIterator.next_none {it it' : HeadersIterator α} (h : it.next = (none,it')) :
    it.items.drop it.index = [] := by
  simp only [next] at h
  split at h
  · cases h
  · next hge => exact List.drop_eq_nil_iff.mpr (Nat.le_of_not_lt hge)

/-- What the calls of `next` give until the iterator is done. -/
def HeadersIterator.yields (it : HeadersIterator α) : List α :=
  match h : it.next with
  | (none,_) => []
  | (some a,it') =>
    have := (next_some h).2
    a::it'.yields
termination_by it.items.length-it.index

/-- A `for` loop over the iterator. -/
def HeadersIterator.forOf {m : Type → Type} [Monad m] (it : HeadersIterator α)
    (body : α → m Unit) : m Unit :=
  match h : it.next with
  | (none,_) => pure ()
  | (some a,it') =>
    have := (next_some h).2
    do
      body a
      it'.forOf body
termination_by it.items.length-it.index

theorem HeadersIterator.yields_eq (it : HeadersIterator α) :
    it.yields = it.items.drop it.index := by
  induction it using HeadersIterator.yields.induct with
  | case1 it it' h =>
    rw [yields,next_none h]
    split
    · rfl
    · next a it'' h' => cases h.symm.trans h'
  | case2 it a it' h _ ih =>
    rw [yields,(next_some h).1,← ih]
    split
    · next it'' h' => cases h.symm.trans h'
    · next b it'' h' =>
      cases h.symm.trans h'
      rfl

theorem HeadersIterator.forOf_eq {m : Type → Type} [Monad m] (it : HeadersIterator α)
    (body : α → m Unit) : it.forOf body = it.yields.forM body := by
  induction it using HeadersIterator.yields.induct with
  | case1 it it' h =>
    rw [forOf,yields_eq,next_none h]
    split
    · rfl
    · next a it'' h' => cases h.symm.trans h'
  | case2 it a it' h _ ih =>
    have hcons : it.yields = a::it'.yields := by
      rw [yields_eq,(next_some h).1,← yields_eq]
    rw [forOf,hcons]
    split
    · next it'' h' => cases h.symm.trans h'
    · next b it'' h' =>
      cases h.symm.trans h'
      exact congrArg (body a >>= fun _ => ·) ih

theorem yields_make (items : List α) : (makeHeadersIterator items).yields = items := by
  rw [HeadersIterator.yields_eq]
  rfl

end

def entries (h : Headers) : HeadersIterator (JsString × JsString) := makeHeadersIterator h.combined

def keys (h : Headers) : HeadersIterator JsString := makeHeadersIterator (h.combined.map (·.1))

def values (h : Headers) : HeadersIterator JsString := makeHeadersIterator (h.combined.map (·.2))

def forEach {m : Type → Type} [Monad m] (h : Headers) (callback : JsString → JsString → m Unit) :
    m Unit :=
  h.entries.forOf fun p => callback p.2 p.1

def extend (former : Option JsString) (v : JsString) : JsString :=
  former.elim v (·++js ", "++v)

section

variable (n : JsString)

theorem lookup_cons_eq (p : JsString × JsString) (ps : List (JsString × JsString)) :
    (p::ps).lookup n = if p.1 = n then some p.2 else ps.lookup n := by
  obtain ⟨m,v⟩ := p
  rw [List.lookup_cons]
  by_cases hm : m = n
  · simp [hm]
  · simp [hm,beq_false_of_ne (Ne.symm hm)]

theorem lookup_joinInto (acc : List (JsString × JsString)) (p : JsString × JsString) :
    (joinInto acc p).lookup n =
      if p.1 = n then some (extend (acc.lookup n) p.2) else acc.lookup n := by
  induction acc with
  | nil => exact lookup_cons_eq n p []
  | cons q qs ih =>
    rw [joinInto]
    by_cases hq : q.1 = p.1
    · rw [if_pos hq,lookup_cons_eq,lookup_cons_eq,hq]
      by_cases hn : p.1 = n
      · rw [if_pos hn,if_pos hn,if_pos hn]
        rfl
      · rw [if_neg hn,if_neg hn,if_neg hn]
    · rw [if_neg hq,lookup_cons_eq,lookup_cons_eq,ih]
      by_cases hn : q.1 = n
      · rw [if_pos hn,if_pos hn,if_neg fun hp => hq (hn.trans hp.symm)]
      · rw [if_neg hn,if_neg hn]

theorem lookup_foldl (ps acc : List (JsString × JsString)) :
    (ps.foldl joinInto acc).lookup n =
      (valuesOf n ps).foldl (fun w v => some (extend w v)) (acc.lookup n) := by
  induction ps generalizing acc with
  | nil => rfl
  | cons p ps ih =>
    rw [List.foldl_cons,ih,lookup_joinInto,valuesOf,valuesOf]
    by_cases hp : p.1 = n
    · simp [hp]
    · simp [hp]

end

theorem joined_cons_cons (w v : JsString) (vs : List JsString) :
    joined (w::v::vs) = joined ((w++js ", "++v)::vs) := by
  cases vs with
  | nil => simp [joined,List.intercalate_cons_cons]
  | cons u us => simp [joined,List.intercalate_cons_cons]

theorem foldl_extend (vs : List JsString) :
    vs.foldl (fun w v => some (extend w v)) none =
      if vs.length = 0 then none else some (joined vs) := by
  have hsome (w : JsString) (vs : List JsString) :
      vs.foldl (fun w v => some (extend w v)) (some w) = some (joined (w::vs)) := by
    induction vs generalizing w with
    | nil => simp [joined]
    | cons v vs ih =>
      rw [List.foldl_cons,joined_cons_cons]
      exact ih _
  cases vs with
  | nil => rfl
  | cons v vs => exact hsome v vs

section

variable {α : Type} {le : α → α → Bool} {q : α → Bool} {l : List α}

theorem filter_mergeSort (htrans : ∀ a b c, le a b → le b c → le a c)
    (htotal : ∀ a b, le a b || le b a) (halike : ∀ a b, q a → q b → le a b) :
    (l.mergeSort le).filter q = l.filter q := by
  have hpair : (l.filter q).Pairwise fun a b => le a b = true :=
    List.pairwise_of_forall_mem_list fun a ha b hb =>
      halike a b (List.mem_filter.mp ha).2 (List.mem_filter.mp hb).2
  have hsub := (List.sublist_mergeSort htrans htotal hpair List.filter_sublist).filter q
  rw [List.filter_filter] at hsub
  simp only [Bool.and_self] at hsub
  exact (hsub.eq_of_length ((List.mergeSort_perm l le).filter q).length_eq.symm).symm

end

theorem not_lt_trans (a b c : JsString × JsString) (hab : (!decide (b.1 < a.1)) = true)
    (hbc : (!decide (c.1 < b.1)) = true) : (!decide (c.1 < a.1)) = true := by
  simp only [Bool.not_eq_true',decide_eq_false_iff_not,List.not_lt] at *
  exact List.le_trans hab hbc

theorem not_lt_total (a b : JsString × JsString) :
    (!decide (b.1 < a.1) || !decide (a.1 < b.1)) = true := by
  simp only [Bool.or_eq_true,Bool.not_eq_true',decide_eq_false_iff_not,List.not_lt]
  exact List.le_total a.1 b.1

theorem valuesOf_sorted (n : JsString) (ps : List (JsString × JsString)) :
    valuesOf n (ps.mergeSort fun a b => !decide (b.1 < a.1)) = valuesOf n ps := by
  rw [valuesOf,valuesOf,filter_mergeSort not_lt_trans not_lt_total]
  intro a b ha hb
  have hname : b.1 = a.1 := (of_decide_eq_true hb).trans (of_decide_eq_true ha).symm
  rw [hname]
  simp

theorem lookup_combined (h : Headers) (n : JsString) :
    h.combined.lookup n =
      if (valuesOf n h.list).length = 0 then none else some (joined (valuesOf n h.list)) := by
  rw [combined,lookup_foldl,valuesOf_sorted]
  exact foldl_extend _

theorem joinInto_sorted {acc : List (JsString × JsString)} {p : JsString × JsString}
    (hs : (acc.map (·.1)).Pairwise (· < ·)) (hp : ∀ n ∈ acc.map (·.1), ¬ p.1 < n) :
    ((joinInto acc p).map (·.1)).Pairwise (· < ·) ∧
      ∀ n ∈ (joinInto acc p).map (·.1), n ∈ acc.map (·.1) ∨ n = p.1 := by
  induction acc with
  | nil => simp [joinInto]
  | cons q qs ih =>
    rw [joinInto]
    by_cases hq : q.1 = p.1
    · rw [if_pos hq]
      exact ⟨hs,fun n hn => .inl hn⟩
    · rw [if_neg hq]
      obtain ⟨hfirst,hrest⟩ := List.pairwise_cons.mp hs
      obtain ⟨hqs,hmem⟩ := ih hrest fun n hn => hp n (List.mem_cons_of_mem _ hn)
      have hlt : q.1 < p.1 :=
        (List.le_iff_lt_or_eq.mp (List.not_lt.mp (hp q.1 List.mem_cons_self))).resolve_right hq
      refine ⟨List.pairwise_cons.mpr ⟨fun n hn => ?_,hqs⟩,fun n hn => ?_⟩
      · rcases hmem n hn with hn | rfl
        · exact hfirst n hn
        · exact hlt
      · rcases List.mem_cons.mp hn with rfl | hn
        · exact .inl List.mem_cons_self
        · exact (hmem n hn).imp_left (List.mem_cons_of_mem _)

theorem foldl_sorted {ps acc : List (JsString × JsString)}
    (hps : ps.Pairwise fun a b => (!decide (b.1 < a.1)) = true)
    (hs : (acc.map (·.1)).Pairwise (· < ·))
    (hle : ∀ p ∈ ps, ∀ n ∈ acc.map (·.1), ¬ p.1 < n) :
    ((ps.foldl joinInto acc).map (·.1)).Pairwise (· < ·) := by
  induction ps generalizing acc with
  | nil => exact hs
  | cons p ps ih =>
    obtain ⟨hfirst,hrest⟩ := List.pairwise_cons.mp hps
    obtain ⟨hnext,hmem⟩ := joinInto_sorted hs (hle p List.mem_cons_self)
    refine ih hrest hnext fun q hq n hn => ?_
    rcases hmem n hn with hn | rfl
    · exact hle q (List.mem_cons_of_mem _ hq) n hn
    · simpa using hfirst q hq

theorem combined_sorted (h : Headers) : (h.combined.map (·.1)).Pairwise (· < ·) :=
  foldl_sorted (List.pairwise_mergeSort not_lt_trans not_lt_total h.list) (by simp) (by simp)

theorem lookup_of_mem {ps : List (JsString × JsString)} {p : JsString × JsString}
    (hs : (ps.map (·.1)).Pairwise (· < ·)) (hp : p ∈ ps) : ps.lookup p.1 = some p.2 := by
  induction ps with
  | nil => cases hp
  | cons q qs ih =>
    obtain ⟨hfirst,hrest⟩ := List.pairwise_cons.mp hs
    rw [lookup_cons_eq]
    rcases List.mem_cons.mp hp with rfl | hp
    · rw [if_pos rfl]
    · have hlt := hfirst p.1 (List.mem_map_of_mem hp)
      rw [if_neg fun he : q.1 = p.1 => List.lt_irrefl p.1 (he ▸ hlt),ih hrest hp]

theorem lookup_eq_none {ps : List (JsString × JsString)} {n : JsString} :
    ps.lookup n = none ↔ n ∉ ps.map (·.1) := by
  induction ps with
  | nil => simp
  | cons p ps ih =>
    rw [lookup_cons_eq]
    by_cases hp : p.1 = n
    · simp [hp]
    · simp [hp,ih,Ne.symm hp]

theorem valuesOf_eq_nil {n : JsString} {ps : List (JsString × JsString)} :
    (valuesOf n ps).length = 0 ↔ ps.any (·.1 = n) = false := by
  simp [valuesOf]

theorem mem_combined_names {h : Headers} {n : JsString} :
    n ∈ h.combined.map (·.1) ↔ h.list.any (·.1 = n) = true := by
  rw [← not_iff_not,← lookup_eq_none,lookup_combined,Bool.not_eq_true,← valuesOf_eq_nil]
  split <;> simp [*]

theorem toLowerCase_of_lower {n : JsString} (hn : ∀ c ∈ n, ¬ (65 ≤ c ∧ c ≤ 90)) :
    toLowerCase n = n :=
  (List.map_congr_left fun c hc => if_neg (hn c hc)).trans (List.map_id _)

theorem normalizeName_of_normal {p : JsString × JsString} (hp : HeaderList.Normal p) :
    normalizeName p.1 = .ok p.1 := by
  rw [normalizeName_of_valid hp.valid,toLowerCase_of_lower fun c hc => (hp.token c hc).2]

/-- What iteration gives is what `has` and `get` say of the list. -/
structure IterationAgrees (h : Headers) : Prop where
  increasing : (h.entries.yields.map (·.1)).Pairwise (· < ·)
  normal : ∀ n ∈ h.entries.yields.map (·.1), normalizeName n = .ok n
  occurs : ∀ name, h.has name = .ok true ↔
    ∃ n, normalizeName name = .ok n ∧ n ∈ h.entries.yields.map (·.1)
  value : ∀ p ∈ h.entries.yields,
    h.get p.1 = .ok (some p.2) ∧ p.2 = joined (valuesOf p.1 h.list)
  keys : h.keys.yields = h.entries.yields.map (·.1)
  values : h.values.yields = h.entries.yields.map (·.2)
  forEach : ∀ {m : Type → Type} [Monad m] (callback : JsString → JsString → m Unit),
    h.forEach callback = h.entries.yields.forM fun p => callback p.2 p.1

theorem entries_yields (h : Headers) : h.entries.yields = h.combined := yields_make _

theorem normalizeName_combined {h : Headers} (hs : AllNormal h) {n : JsString}
    (hn : n ∈ h.combined.map (·.1)) : normalizeName n = .ok n := by
  obtain ⟨p,hp,hpn⟩ := List.any_eq_true.mp (mem_combined_names.mp hn)
  rw [← of_decide_eq_true hpn]
  exact normalizeName_of_normal (hs p hp)

theorem has_iff (h : Headers) (name : JsString) :
    h.has name = .ok true ↔ ∃ n, normalizeName name = .ok n ∧ n ∈ h.combined.map (·.1) := by
  rw [has]
  cases hn : normalizeName name with
  | error e => simp [Except.map]
  | ok n => simp only [Except.map,Except.ok.injEq,exists_eq_left',mem_combined_names]

theorem get_combined {h : Headers} (hs : AllNormal h) {p : JsString × JsString}
    (hp : p ∈ h.combined) :
    h.get p.1 = .ok (some p.2) ∧ p.2 = joined (valuesOf p.1 h.list) := by
  have hlookup := lookup_of_mem h.combined_sorted hp
  have hname := normalizeName_combined hs (List.mem_map_of_mem hp)
  have hget : h.get p.1 = .ok (h.combined.lookup p.1) := by
    rw [get,hname,lookup_combined]
    rfl
  rw [lookup_combined] at hlookup
  split at hlookup
  · cases hlookup
  · refine ⟨?_,(Option.some.inj hlookup).symm⟩
    rw [hget,lookup_of_mem h.combined_sorted hp]

/-- After any operations on a new object, iteration and lookup agree. -/
theorem iteration_agrees {init : Init} {h : Headers} (hnew : new init = .ok h)
    (ops : List HeaderList.Op) : IterationAgrees (run h ops) := by
  have hs : AllNormal (run h ops) := HeaderList.run_normal (HeaderList.new_normal hnew) ops
  generalize run h ops = t at hs
  refine ⟨?_,?_,?_,?_,?_,?_,fun callback => HeadersIterator.forOf_eq _ _⟩
  · rw [entries_yields]
    exact t.combined_sorted
  · rw [entries_yields]
    exact fun n hn => normalizeName_combined hs hn
  · rw [entries_yields]
    exact t.has_iff
  · rw [entries_yields]
    exact fun p hp => get_combined hs hp
  · rw [entries_yields]
    exact yields_make _
  · rw [entries_yields]
    exact yields_make _

theorem iteration_agrees_sample :
    ∃ h, new (.iterable [.text (js "ba"),.items [js "A",js " 1 "],.items [js "B",js "2"]]) = .ok h ∧
      IterationAgrees (run h [.append (js "a") (js "3"),.delete (js "x")]) := by
  have hnew : new (.iterable [.text (js "ba"),.items [js "A",js " 1 "],.items [js "B",js "2"]]) =
      .ok { list := [(js "b",js "a"),(js "a",js "1"),(js "b",js "2")] } := by decide +kernel
  exact ⟨_,hnew,iteration_agrees hnew _⟩

end Headers
end AsioQuickjs
