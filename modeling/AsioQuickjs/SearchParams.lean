import AsioQuickjs.HeaderIteration
import AsioQuickjs.StableSort

/-! The entries of a `URLSearchParams` of `src/js/whatwg-url-polyfill.js`, its methods on them, and
the multimap that they are. -/
namespace AsioQuickjs
namespace SearchParams

open StableSort (Sorts insertion)

/-- Keys and values, in order. -/
abbrev Entries := List (JsString × JsString)

section

variable {α : Type}

/-- `comparefn` gives 1 or -1. The loops work on slices of the array. -/
def arraySort (comparefn : α → α → ℤ) (array : List α) : List α :=
  if array.length < 8 then insertion (fun a b => comparefn a b ≤ 0) array
  else
    (arraySort comparefn (array.take (array.length/2))).merge
      (arraySort comparefn (array.drop (array.length/2))) fun a b => comparefn a b ≤ 0
termination_by array.length
decreasing_by
  all_goals
    simp only [List.length_take,List.length_drop]
    omega

theorem sorts_arraySort {comparefn : α → α → ℤ}
    (htrans : ∀ a b c, decide (comparefn a b ≤ 0) = true → decide (comparefn b c ≤ 0) = true →
      decide (comparefn a c ≤ 0) = true)
    (htotal : ∀ a b, (decide (comparefn a b ≤ 0) || decide (comparefn b a ≤ 0)) = true)
    (array : List α) :
    Sorts (fun a b => comparefn a b ≤ 0) array (arraySort comparefn array) := by
  induction array using arraySort.induct with
  | case1 array h =>
    rw [arraySort,if_pos h]
    exact StableSort.sorts_insertion htrans htotal array
  | case2 array h ihleft ihright =>
    have hmerge := StableSort.sorts_merge htrans htotal ihleft ihright
    rw [List.take_append_drop] at hmerge
    rw [arraySort,if_neg h]
    exact hmerge

end

def append (entries : Entries) (key value : JsString) : Entries := entries++[(key,value)]

/-- The loop of `delete`, which goes on at the same index behind a `splice`. -/
def delete (key : JsString) (value : Option JsString) : Entries → Entries
  | [] => []
  | entry::entries =>
    if entry.1 = key ∧ (value = none ∨ value = some entry.2) then delete key value entries
    else entry::delete key value entries

def get (entries : Entries) (key : JsString) : Option JsString :=
  match entries with
  | [] => none
  | entry::entries => if entry.1 = key then some entry.2 else get entries key

def getAll (entries : Entries) (key : JsString) : List JsString :=
  entries.foldl (fun result entry => if entry.1 = key then result++[entry.2] else result) []

def has (entries : Entries) (key : JsString) (value : Option JsString) : Bool :=
  match entries with
  | [] => false
  | entry::entries =>
    if entry.1 = key ∧ (value = none ∨ value = some entry.2) then true else has entries key value

/-- The loop of `set`; all but the first entry found are spliced out. -/
def setLoop (key value : JsString) : Bool → Entries → Bool × Entries
  | found, [] => (found,[])
  | found, entry::entries =>
    if entry.1 = key then
      if found then setLoop key value found entries
      else
        let rest := setLoop key value true entries
        (rest.1,(entry.1,value)::rest.2)
    else
      let rest := setLoop key value found entries
      (rest.1,entry::rest.2)

def set (entries : Entries) (key value : JsString) : Entries :=
  let r := setLoop key value false entries
  if r.1 then r.2 else r.2++[(key,value)]

/-- The comparison of `sort`. -/
def compareKeys (a b : JsString × JsString) : ℤ := if b.1 < a.1 then 1 else -1

def sort (entries : Entries) : Entries := arraySort compareKeys entries

/-- The methods that change the entries, as a script calls them. -/
inductive Op
  | append (key value : JsString)
  | delete (key : JsString) (value : Option JsString)
  | set (key value : JsString)
  | sort

def Op.on (entries : Entries) : Op → Entries
  | .append key value => SearchParams.append entries key value
  | .delete key value => SearchParams.delete key value entries
  | .set key value => SearchParams.set entries key value
  | .sort => SearchParams.sort entries

def run (entries : Entries) (ops : List Op) : Entries := ops.foldl Op.on entries

/-- What each key leads to. -/
abbrev Multimap := JsString → List JsString

def Op.means (m : Multimap) : Op → Multimap
  | .append key value => Function.update m key (m key++[value])
  | .delete key value =>
    Function.update m key ((m key).filter fun v => !(value = none ∨ value = some v : Bool))
  | .set key value => Function.update m key [value]
  | .sort => m

def Op.key : Op → Option JsString
  | .append key _ => some key
  | .delete key _ => some key
  | .set key _ => some key
  | .sort => none

theorem getAll_eq (entries : Entries) (key : JsString) :
    getAll entries key = Headers.valuesOf key entries := by
  have hfold (result : List JsString) :
      entries.foldl (fun result entry => if entry.1 = key then result++[entry.2] else result)
        result = result++Headers.valuesOf key entries := by
    induction entries generalizing result with
    | nil => simp [Headers.valuesOf]
    | cons entry entries ih =>
      rw [List.foldl_cons,ih]
      by_cases h : entry.1 = key <;> simp [Headers.valuesOf,h]
  exact hfold []

theorem getAll_cons (entry : JsString × JsString) (entries : Entries) (key : JsString) :
    getAll (entry::entries) key =
      if entry.1 = key then entry.2::getAll entries key else getAll entries key := by
  rw [getAll_eq,getAll_eq]
  by_cases h : entry.1 = key <;> simp [Headers.valuesOf,h]

theorem getAll_append (entries entries' : Entries) (key : JsString) :
    getAll (entries++entries') key = getAll entries key++getAll entries' key := by
  simp only [getAll_eq,Headers.valuesOf,List.filter_append,List.map_append]

theorem getAll_delete (key : JsString) (value : Option JsString) (entries : Entries)
    (k : JsString) : getAll (delete key value entries) k =
      if k = key then (getAll entries k).filter fun v => !(value = none ∨ value = some v : Bool)
      else getAll entries k := by
  induction entries with
  | nil => simp [delete,getAll]
  | cons entry entries ih =>
    rw [delete,getAll_cons]
    by_cases hk : k = key
    · subst hk
      rw [if_pos rfl] at ih ⊢
      by_cases he : entry.1 = k
      · by_cases hv : value = none ∨ value = some entry.2
        · rw [if_pos ⟨he,hv⟩,ih,if_pos he,
            List.filter_cons_of_neg (by rw [decide_eq_true hv]; decide)]
        · rw [if_neg (fun h => hv h.2),getAll_cons,if_pos he,ih,if_pos he,
            List.filter_cons_of_pos (by rw [decide_eq_false hv]; rfl)]
      · rw [if_neg (fun h => he h.1),getAll_cons,if_neg he,ih,if_neg he]
    · rw [if_neg hk] at ih ⊢
      split
      · next h => rw [ih,if_neg fun he => hk (he.symm.trans h.1)]
      · rw [getAll_cons,ih]

theorem setLoop_spec (key value : JsString) (found : Bool) (entries : Entries) :
    ((setLoop key value found entries).1 = (found || has entries key none)) ∧
    ∀ k, getAll (setLoop key value found entries).2 k =
      if k = key then (if found = false ∧ has entries key none = true then [value] else [])
      else getAll entries k := by
  induction entries generalizing found with
  | nil => simp [setLoop,has,getAll]
  | cons entry entries ih =>
    rw [setLoop]
    by_cases he : entry.1 = key
    · have hhas : has (entry::entries) key none = true := by simp [has,he]
      rw [if_pos he,hhas]
      cases found with
      | true =>
        obtain ⟨hfound,hall⟩ := ih true
        rw [if_pos rfl]
        refine ⟨by simpa using hfound,fun k => ?_⟩
        rw [hall,getAll_cons,he]
        by_cases hk : k = key
        · simp [hk]
        · simp [hk,Ne.symm hk]
      | false =>
        obtain ⟨hfound,hall⟩ := ih true
        rw [if_neg (by simp)]
        refine ⟨by simpa using hfound,fun k => ?_⟩
        rw [getAll_cons,getAll_cons,hall,he]
        by_cases hk : k = key
        · simp [hk]
        · simp [hk,Ne.symm hk]
    · have hhas : has (entry::entries) key none = has entries key none := by simp [has,he]
      obtain ⟨hfound,hall⟩ := ih found
      rw [if_neg he,hhas]
      refine ⟨hfound,fun k => ?_⟩
      rw [getAll_cons,getAll_cons,hall]
      by_cases hk : k = key
      · rw [if_neg (fun h => he (h.trans hk)),if_pos hk,if_pos hk]
      · rw [if_neg hk,if_neg hk]

theorem getAll_set (entries : Entries) (key value k : JsString) :
    getAll (set entries key value) k = if k = key then [value] else getAll entries k := by
  obtain ⟨hfound,hall⟩ := setLoop_spec key value false entries
  rw [Bool.false_or] at hfound
  simp only [set,hfound]
  cases hhas : has entries key none with
  | true => simp [hall,hhas]
  | false =>
    rw [if_neg (by simp),getAll_append,hall,getAll_cons]
    by_cases hk : k = key
    · simp [hk,hhas,getAll]
    · simp [hk,Ne.symm hk,getAll]

theorem compareKeys_iff (a b : JsString × JsString) :
    decide (compareKeys a b ≤ 0) = !decide (b.1 < a.1) := by
  rw [compareKeys]
  by_cases h : b.1 < a.1 <;> simp [h]

def keysLe (a b : JsString × JsString) : Bool := !decide (b.1 < a.1)

theorem sorts_sort (entries : Entries) : Sorts keysLe entries (sort entries) := by
  have hle : (fun a b => decide (compareKeys a b ≤ 0)) = keysLe := by
    funext a b
    exact compareKeys_iff a b
  have h := @sorts_arraySort _ compareKeys (fun a b c => ?_) (fun a b => ?_) entries
  · rwa [hle] at h
  · simp only [compareKeys_iff]
    exact Headers.not_lt_trans a b c
  · simp only [compareKeys_iff]
    exact Headers.not_lt_total a b

theorem alike_keys (a b : JsString × JsString) :
    StableSort.alike keysLe a b = decide (b.1 = a.1) := by
  rw [Bool.eq_iff_iff,StableSort.alike_iff,decide_eq_true_iff]
  simp only [keysLe,Bool.not_eq_true',decide_eq_false_iff_not,List.not_lt]
  constructor
  · exact fun h => List.le_antisymm h.2 h.1
  · intro h
    rw [h]
    exact ⟨List.le_refl _,List.le_refl _⟩

theorem getAll_sort (entries : Entries) (k : JsString) :
    getAll (sort entries) k = getAll entries k := by
  have hkept := (sorts_sort entries).kept (k,[])
  have halike : StableSort.alike keysLe (k,[]) = fun e => decide (e.1 = k) := by
    funext e
    exact alike_keys (k,[]) e
  rw [halike] at hkept
  rw [getAll_eq,getAll_eq,Headers.valuesOf,hkept,Headers.valuesOf]

theorem getAll_on (op : Op) (entries : Entries) :
    getAll (op.on entries) = op.means (getAll entries) := by
  funext k
  cases op with
  | append key value =>
    rw [Op.on,append,getAll_append,Op.means,Function.update_apply,getAll_cons]
    by_cases hk : k = key
    · simp [hk,getAll]
    · simp [hk,Ne.symm hk,getAll]
  | delete key value =>
    rw [Op.on,getAll_delete,Op.means,Function.update_apply]
    by_cases hk : k = key
    · rw [if_pos hk,if_pos hk,hk]
    · rw [if_neg hk,if_neg hk]
  | set key value =>
    rw [Op.on,getAll_set,Op.means,Function.update_apply]
  | sort => exact getAll_sort entries k

theorem getAll_run (entries : Entries) (ops : List Op) :
    getAll (run entries ops) = ops.foldl Op.means (getAll entries) := by
  induction ops generalizing entries with
  | nil => rfl
  | cons op ops ih =>
    rw [List.foldl_cons,← getAll_on]
    exact ih (op.on entries)

theorem get_eq (entries : Entries) (key : JsString) :
    get entries key = (getAll entries key).head? := by
  induction entries with
  | nil => rfl
  | cons entry entries ih =>
    rw [get,getAll_cons]
    split
    · rfl
    · exact ih

theorem has_iff (entries : Entries) (key : JsString) (value : Option JsString) :
    has entries key value = true ↔ ∃ v ∈ getAll entries key, value = none ∨ value = some v := by
  induction entries with
  | nil => simp [has,getAll]
  | cons entry entries ih =>
    rw [has,getAll_cons]
    by_cases he : entry.1 = key
    · rw [if_pos he]
      by_cases hv : value = none ∨ value = some entry.2
      · simp [he,hv]
      · rw [if_neg (fun h => hv h.2),ih]
        simp [hv]
    · rw [if_neg (fun h => he h.1),if_neg he,ih]

theorem others_on {op : Op} {key : JsString} (h : op.key = some key) (entries : Entries) :
    (op.on entries).filter (·.1 ≠ key) = entries.filter (·.1 ≠ key) := by
  cases op with
  | append k value =>
    obtain rfl := Option.some.inj h
    simp [Op.on,append]
  | delete k value =>
    obtain rfl := Option.some.inj h
    rw [Op.on]
    induction entries with
    | nil => rfl
    | cons entry entries ih =>
      rw [delete]
      split
      · next he => rw [ih,List.filter_cons_of_neg (by simpa using he.1)]
      · rw [List.filter_cons,List.filter_cons,ih]
  | set k value =>
    obtain rfl := Option.some.inj h
    have hloop (found : Bool) : (setLoop k value found entries).2.filter (·.1 ≠ k) =
        entries.filter (·.1 ≠ k) := by
      induction entries generalizing found with
      | nil => rfl
      | cons entry entries ih =>
        rw [setLoop]
        by_cases he : entry.1 = k
        · rw [if_pos he]
          cases found <;> simpa [he] using ih true
        · rw [if_neg he]
          simpa [he] using ih found
    simp only [Op.on,set]
    split
    · exact hloop false
    · rw [List.filter_append,hloop]
      simp
  | sort => cases h

/-- Whatever a script does with the entries, they are the multimap that it has built, as all the
methods that read them see it. What works on one key leaves the entries of the others in order,
and `sort` gives the one stable order by keys, however long the list is. -/
theorem search_params_multimap (entries : Entries) (ops : List Op) :
    getAll (run entries ops) = ops.foldl Op.means (getAll entries) ∧
    (∀ key, get (run entries ops) key = (getAll (run entries ops) key).head?) ∧
    (∀ key value, has (run entries ops) key value = true ↔
      ∃ v ∈ getAll (run entries ops) key, value = none ∨ value = some v) ∧
    (∀ op key, Op.key op = some key →
      (op.on (run entries ops)).filter (·.1 ≠ key) = (run entries ops).filter (·.1 ≠ key)) ∧
    ∀ s, Sorts keysLe (run entries ops) s ↔ s = sort (run entries ops) := by
  refine ⟨getAll_run entries ops,get_eq _,has_iff _,fun op key h => others_on h _,fun s => ?_⟩
  constructor
  · exact fun h => h.unique Headers.not_lt_total (sorts_sort _)
  · intro h
    rw [h]
    exact sorts_sort _

end SearchParams
end AsioQuickjs
