import Mathlib.Data.List.TakeWhile
import AsioQuickjs.HeaderIteration

/-! What `set`, `append` and `delete` of `Headers` do to the entries of one name and to those
of the others. -/
namespace AsioQuickjs
namespace HeaderList

open Headers (normalizeName normalizeValue isToken toLowerCase valuesOf joined extend
  isForbiddenRequestHeader Guard)

section

variable (n v : JsString)

theorem replace_found (next ps : List (JsString × JsString)) :
    replace n v (true,next) ps = (true,next++ps.filter (·.1 ≠ n)) := by
  induction ps generalizing next with
  | nil => rw [replace,List.filter_nil,List.append_nil]
  | cons p ps ih =>
    rw [replace]
    by_cases hp : p.1 = n
    · rw [if_pos hp,if_pos rfl,ih,List.filter_cons_of_neg (by simpa using hp)]
    · rw [if_neg hp,ih,List.filter_cons_of_pos (by simpa using hp),List.append_assoc]
      rfl

theorem replace_list (next ps : List (JsString × JsString)) :
    (let r := replace n v (false,next) ps
      if r.1 then r.2 else r.2++[(n,v)]) =
      next++ps.takeWhile (·.1 ≠ n)++(n,v)::(ps.dropWhile (·.1 ≠ n)).filter (·.1 ≠ n) := by
  induction ps generalizing next with
  | nil => simp [replace]
  | cons p ps ih =>
    rw [replace]
    by_cases hp : p.1 = n
    · rw [if_pos hp,if_neg Bool.false_ne_true,replace_found]
      simp [hp]
    · rw [if_neg hp,ih]
      simp [hp]

end

/-- One entry for the name, where its first one was or at the end. -/
structure SetLaw (h t : Headers) (n v : JsString) : Prop where
  single : t.list.filter (·.1 = n) = [(n,v)]
  position : t.list.findIdx (·.1 = n) = h.list.findIdx (·.1 = n)
  atEnd : (∀ p ∈ h.list, p.1 ≠ n) → t.list = h.list++[(n,v)]
  others : t.list.filter (·.1 ≠ n) = h.list.filter (·.1 ≠ n)
  guard : t.guard = h.guard
  get : ∀ name, normalizeName name = .ok n → t.get name = .ok (some v)

/-- The value of the name is extended. -/
structure AppendLaw (h t : Headers) (n v : JsString) : Prop where
  others : t.list.filter (·.1 ≠ n) = h.list.filter (·.1 ≠ n)
  guard : t.guard = h.guard
  get : ∀ name, normalizeName name = .ok n →
    ∃ former, h.get name = .ok former ∧ t.get name = .ok (some (extend former v))

theorem get_of_normalize {name n : JsString} (hn : normalizeName name = .ok n) (h : Headers) :
    h.get name = .ok (if (valuesOf n h.list).length = 0 then none
      else some (joined (valuesOf n h.list))) := by
  rw [Headers.get,hn]
  rfl

section

variable {h : Headers} {name value n v : JsString}

theorem append_ok (hg : h.guard ≠ .immutable) (hn : normalizeName name = .ok n)
    (hv : normalizeValue value = .ok v) :
    append name value h = .ok () { h with list := h.list++[(n,v)] } := by
  rw [append_eq,Headers.append,if_neg hg,hn,hv]
  simp only [Except.bind,forbiddenOrNoCors_eq,Bool.false_eq_true,if_false]

theorem set_ok (hg : h.guard ≠ .immutable) (hn : normalizeName name = .ok n)
    (hv : normalizeValue value = .ok v) :
    set name value h = .ok () { h with list := h.list.takeWhile (·.1 ≠ n)++
      (n,v)::(h.list.dropWhile (·.1 ≠ n)).filter (·.1 ≠ n) } := by
  have hrest := ensureMutable_bind h fun _ => call (normalizeName name) >>= fun n =>
    call (normalizeValue value) >>= fun v => do
      if !(← get).forbiddenOrNoCors n v then
        modify fun h =>
          let r := replace n v (false,[]) h.list
          { h with list := if r.1 then r.2 else r.2++[(n,v)] }
  rw [if_neg hg,call_bind] at hrest
  refine hrest.trans ?_
  rw [hn]
  simp only [call_bind,hv]
  rw [edit_eq,forbiddenOrNoCors_eq,if_neg Bool.false_ne_true]
  exact congrArg (fun list => EStateM.Result.ok () { h with list := list })
    (replace_list n v [] h.list)

end

theorem valuesOf_concat (n v : JsString) (ps : List (JsString × JsString)) :
    valuesOf n (ps++[(n,v)]) = valuesOf n ps++[v] := by
  simp [valuesOf]

theorem joined_concat {vs : List JsString} (hvs : vs.length ≠ 0) (v : JsString) :
    joined (vs++[v]) = joined vs++js ", "++v := by
  induction vs with
  | nil => exact absurd rfl hvs
  | cons w ws ih =>
    cases ws with
    | nil => simp [joined,List.intercalate_cons_cons]
    | cons u us =>
      have hrest := ih (by simp)
      simp only [joined] at hrest
      rw [joined,joined,List.cons_append,List.cons_append,List.intercalate_cons_cons,
        List.intercalate_cons_cons,← List.cons_append,hrest]
      simp only [List.append_assoc]

section

variable (h : Headers) (n v : JsString)

theorem append_law : AppendLaw h { h with list := h.list++[(n,v)] } n v := by
  refine ⟨by simp,rfl,fun name hn => ⟨_,get_of_normalize hn h,?_⟩⟩
  rw [get_of_normalize hn,valuesOf_concat,if_neg (by simp)]
  by_cases hv : (valuesOf n h.list).length = 0
  · rw [if_pos hv,List.length_eq_zero_iff.mp hv]
    simp [joined,extend]
  · rw [if_neg hv,joined_concat hv]
    rfl

theorem findIdx_takeWhile (ps qs : List (JsString × JsString)) :
    (ps.takeWhile (·.1 ≠ n)++(n,v)::qs).findIdx (·.1 = n) = ps.findIdx (·.1 = n) := by
  induction ps with
  | nil => simp [List.findIdx_cons]
  | cons p ps ih =>
    by_cases hp : p.1 = n
    · simp [List.findIdx_cons,hp]
    · simp only [List.findIdx_cons,hp,ne_eq,not_false_eq_true,decide_true,List.takeWhile_cons_of_pos,
        List.cons_append,decide_false,cond_false]
      exact congrArg (·+1) ih

/-- Taking the list apart at the first entry of the name loses nothing of the others. -/
theorem others_split (ps : List (JsString × JsString)) :
    ps.takeWhile (·.1 ≠ n)++(ps.dropWhile (·.1 ≠ n)).filter (·.1 ≠ n) =
      ps.filter (·.1 ≠ n) := by
  induction ps with
  | nil => rfl
  | cons p ps ih =>
    by_cases hp : p.1 = n
    · simp [hp]
    · simpa [hp] using ih

theorem set_law :
    SetLaw h { h with list := h.list.takeWhile (·.1 ≠ n)++
      (n,v)::(h.list.dropWhile (·.1 ≠ n)).filter (·.1 ≠ n) } n v := by
  have hpass : ∀ p ∈ h.list.takeWhile (·.1 ≠ n), p.1 ≠ n := fun p hp => by
    simpa using List.mem_takeWhile_imp hp
  have hfront : (h.list.takeWhile (·.1 ≠ n)).filter (·.1 = n) = [] :=
    List.filter_eq_nil_iff.mpr fun p hp => by simpa using hpass p hp
  have hsingle : (h.list.takeWhile (·.1 ≠ n)++
      (n,v)::(h.list.dropWhile (·.1 ≠ n)).filter (·.1 ≠ n)).filter (·.1 = n) = [(n,v)] := by
    rw [List.filter_append,hfront]
    simp [List.filter_filter]
  refine ⟨hsingle,findIdx_takeWhile n v h.list _,fun hnone => ?_,?_,rfl,fun name hn => ?_⟩
  · have hall : ∀ p ∈ h.list, (decide (p.1 ≠ n)) = true := fun p hp => decide_eq_true (hnone p hp)
    rw [List.takeWhile_eq_self_iff.mpr hall,List.dropWhile_eq_nil_iff.mpr hall]
    rfl
  · have hn : (decide ((n,v).1 ≠ n)) = false := decide_eq_false fun hne => hne rfl
    rw [← others_split n h.list,List.filter_append,List.filter_cons_of_neg (by rw [hn]; simp),
      List.filter_filter]
    simp only [Bool.and_self]
    rw [List.filter_eq_self.mpr fun p hp => decide_eq_true (hpass p hp)]
  · rw [get_of_normalize hn,valuesOf,hsingle]
    simp [joined]

end

theorem isToken_lower (c : ℕ) : isToken (if 65 ≤ c ∧ c ≤ 90 then c+32 else c) = isToken c := by
  by_cases hc : 65 ≤ c ∧ c ≤ 90
  · have hup : isToken c = true := by simp [isToken,hc]
    rw [hup]
    exact Headers.isToken_toLowerCase hup
  · rw [if_neg hc]

theorem normalizeName_of_case {name name' : JsString}
    (h : toLowerCase name' = toLowerCase name) : normalizeName name' = normalizeName name := by
  have hempty : name' = [] ↔ name = [] := by
    rw [← List.map_eq_nil_iff (l := name'),← List.map_eq_nil_iff (l := name)]
    exact iff_of_eq (congrArg (· = []) h)
  have hall (s : JsString) : s.all isToken = (toLowerCase s).all isToken := by
    rw [toLowerCase,List.all_map]
    exact congrArg (s.all ·) (funext fun c => (isToken_lower c).symm)
  simp only [normalizeName,hempty,hall name',hall name,h]

/-- `set` leaves one entry with the new value, `append` extends the value, both leave the entries
of other names alone, and letter case does not matter. -/
theorem set_append_laws {h : Headers} {name value n v : JsString} (hg : h.guard ≠ .immutable)
    (hn : normalizeName name = .ok n) (hv : normalizeValue value = .ok v) :
    (∃ t, set name value h = .ok () t ∧ SetLaw h t n v) ∧
      (∃ t, append name value h = .ok () t ∧ AppendLaw h t n v) ∧
      ∀ name', toLowerCase name' = toLowerCase name →
        set name' value h = set name value h ∧ append name' value h = append name value h ∧
          delete name' h = delete name h ∧ h.get name' = h.get name ∧
          h.has name' = h.has name := by
  refine ⟨⟨_,set_ok hg hn hv,set_law h n v⟩,⟨_,append_ok hg hn hv,append_law h n v⟩,?_⟩
  intro name' hcase
  have hname := normalizeName_of_case hcase
  simp only [set,append,delete,Headers.get,Headers.has,hname,and_self]

def sampleHeaders : Headers := { list := [(js "b",js "1"),(js "a",js "2"),(js "a",js "4")] }

theorem set_append_laws_sample :
    (∃ t, set (js "A") (js " 3 ") sampleHeaders = .ok () t ∧
        SetLaw sampleHeaders t (js "a") (js "3")) ∧
      (∃ t, append (js "A") (js " 3 ") sampleHeaders = .ok () t ∧
        AppendLaw sampleHeaders t (js "a") (js "3")) ∧
      set (js "a") (js " 3 ") sampleHeaders = set (js "A") (js " 3 ") sampleHeaders := by
  have hn : normalizeName (js "A") = .ok (js "a") := by decide +kernel
  have hv : normalizeValue (js " 3 ") = .ok (js "3") := by decide +kernel
  have hg : sampleHeaders.guard ≠ .immutable := by decide
  obtain ⟨hset,happend,hcase⟩ := set_append_laws hg hn hv
  exact ⟨hset,happend,(hcase (js "a") (by decide)).1⟩

/-- The name is gone and the other entries are as they were. -/
def DeleteLaw (h : Headers) (name n : JsString) : Prop :=
  ∃ t, delete name h = .ok () t ∧ t.has name = .ok false ∧ t.get name = .ok none ∧
    t.list.filter (·.1 ≠ n) = h.list.filter (·.1 ≠ n) ∧ t.guard = h.guard

theorem has_of_normalize {name n : JsString} (hn : normalizeName name = .ok n) (h : Headers) :
    h.has name = .ok (h.list.any (·.1 = n)) := by
  rw [Headers.has,hn]
  rfl

section

variable {h : Headers} {name n : JsString}

theorem delete_ok (hg : h.guard ≠ .immutable) (hn : normalizeName name = .ok n) :
    delete name h = .ok ()
      (if h.guard = .requestNoCors ∧ n ∉ deletable then h
      else { h with list := h.list.filter (·.1 ≠ n) }) := by
  have hrest := ensureMutable_bind h fun _ => call (normalizeName name) >>= fun n => do
    let guard := (← get).guard
    if guard = .request ∧ isForbiddenRequestHeader n then return
    if guard = .requestNoCors ∧ isForbiddenRequestHeader n then return
    if guard = .requestNoCors ∧ !deletable.contains n then return
    modify fun h => { h with list := h.list.filter (·.1 ≠ n) }
  rw [if_neg hg,call_bind] at hrest
  refine hrest.trans ?_
  rw [hn]
  simp only [get_bind,isForbiddenRequestHeader,Bool.false_eq_true,and_false,if_false,
    List.contains_eq_mem,Bool.not_eq_true',decide_eq_false_iff_not]
  split <;> rfl

theorem deleted_law (hn : normalizeName name = .ok n)
    (hd : delete name h = .ok () { h with list := h.list.filter (·.1 ≠ n) }) :
    DeleteLaw h name n := by
  refine ⟨_,hd,?_,?_,?_,rfl⟩
  · rw [has_of_normalize hn]
    simp
  · rw [get_of_normalize hn]
    simp [valuesOf,List.filter_filter]
  · rw [List.filter_filter]
    simp only [Bool.and_self]

/-- Under `request-no-cors` the entries of a name can be deleted only if the name is one of
four, or if there are none. -/
theorem delete_law_iff (hg : h.guard ≠ .immutable) (hn : normalizeName name = .ok n) :
    DeleteLaw h name n ↔
      (h.guard = .requestNoCors → n ∈ deletable ∨ ∀ p ∈ h.list, p.1 ≠ n) := by
  have hdelete := delete_ok hg hn
  by_cases hkeep : h.guard = .requestNoCors ∧ n ∉ deletable
  · rw [if_pos hkeep] at hdelete
    have hlist : (∀ p ∈ h.list, p.1 ≠ n) ↔ h.list.any (·.1 = n) = false := by simp
    constructor
    · rintro ⟨t,ht,hhas,-⟩ -
      cases hdelete.symm.trans ht
      rw [has_of_normalize hn] at hhas
      exact .inr (hlist.mpr (Except.ok.inj hhas))
    · intro hcond
      have hnone := (hcond hkeep.1).resolve_left hkeep.2
      refine deleted_law hn ?_
      rw [hdelete,List.filter_eq_self.mpr fun p hp => decide_eq_true (hnone p hp)]
  · rw [if_neg hkeep] at hdelete
    refine iff_of_true (deleted_law hn hdelete) fun hcors => ?_
    by_contra hnot
    exact hkeep ⟨hcors,fun hmem => hnot (.inl hmem)⟩

theorem delete_law_iff_of_mem (hg : h.guard ≠ .immutable) (hn : normalizeName name = .ok n)
    {v : JsString} (hmem : (n,v) ∈ h.list) :
    DeleteLaw h name n ↔ (h.guard = .requestNoCors → n ∈ deletable) := by
  rw [delete_law_iff hg hn]
  exact forall_congr' fun _ => or_iff_left fun hnone => hnone _ hmem rfl

end

/-- In whatever state, `delete` removes a name, and what `append` and `set` have added, unless the
guard is `request-no-cors` and the name is not one of four. -/
theorem delete_removes_iff {h : Headers} (hg : h.guard ≠ .immutable) {name n : JsString}
    (hn : normalizeName name = .ok n) :
    (DeleteLaw h name n ↔
      (h.guard = .requestNoCors → n ∈ deletable ∨ ∀ p ∈ h.list, p.1 ≠ n)) ∧
    ∀ value v, normalizeValue value = .ok v →
      (DeleteLaw (after (append name value) h) name n ↔
        (h.guard = .requestNoCors → n ∈ deletable)) ∧
      (DeleteLaw (after (set name value) h) name n ↔
        (h.guard = .requestNoCors → n ∈ deletable)) := by
  refine ⟨delete_law_iff hg hn,fun value v hv => ⟨?_,?_⟩⟩
  · rw [after_ok (append_ok hg hn hv)]
    exact delete_law_iff_of_mem (v := v) hg hn (by simp)
  · rw [after_ok (set_ok hg hn hv)]
    exact delete_law_iff_of_mem (v := v) hg hn (by simp)

theorem delete_removes_iff_sample :
    DeleteLaw (run {} [.append (js "X-A") (js "1")]) (js "x-a") (js "x-a") := by
  have hn : normalizeName (js "x-a") = .ok (js "x-a") := by decide +kernel
  exact (delete_removes_iff (by decide +kernel) hn).1.mpr (by decide +kernel)

def noCorsOps : List Op := [.setGuard (some .requestNoCors),.append (js "X-A") (js "1")]

/-- Under `request-no-cors` a header that was added stays. -/
theorem added_not_removed :
    new .undefined = .ok {} ∧ (run {} noCorsOps).guard ≠ .immutable ∧
      normalizeName (js "X-A") = .ok (js "x-a") ∧
      (js "x-a",js "1") ∈ (run {} noCorsOps).list ∧
      ¬ DeleteLaw (run {} noCorsOps) (js "X-A") (js "x-a") := by
  have hn : normalizeName (js "X-A") = .ok (js "x-a") := by decide +kernel
  have hg : (run {} noCorsOps).guard ≠ .immutable := by decide +kernel
  have hmem : (js "x-a",js "1") ∈ (run {} noCorsOps).list := by decide +kernel
  refine ⟨rfl,hg,hn,hmem,fun hlaw => ?_⟩
  have hdeletable := (delete_law_iff_of_mem hg hn hmem).mp hlaw (by decide +kernel)
  exact absurd hdeletable (by decide)

end HeaderList
end AsioQuickjs
