import AsioQuickjs.Bytes

/-! The `Headers` class of `src/js/headers.js`. Strings of scripts are lists of code
units, and what throws in the script is an error here. -/
namespace AsioQuickjs

abbrev JsString := List ℕ

def js (s : String) : JsString := s.toList.map Char.toNat

inductive JsError
  | typeError (message : JsString)
  | rangeError (message : JsString)
  deriving DecidableEq

namespace Headers

/-- The characters of `/^[!#$%&'*+\-.^_|~0-9A-Za-z]+$/`, and the backquote. -/
def isToken (c : ℕ) : Bool :=
  (48 ≤ c && c ≤ 57) || (65 ≤ c && c ≤ 90) || (97 ≤ c && c ≤ 122) ||
    [33,35,36,37,38,39,42,43,45,46,94,95,96,124,126].contains c

def toLowerCase (s : JsString) : JsString := s.map fun c => if 65 ≤ c ∧ c ≤ 90 then c+32 else c

def normalizeName (name : JsString) : Except JsError JsString :=
  if name = [] then .error (.typeError (js "Invalid header name"))
  else if name.all isToken then .ok (toLowerCase name)
  else .error (.typeError (js "Invalid header name"))

def isBlank (c : ℕ) : Bool := [9,10,13,32].contains c

/-- `value.replace(/^[\t\n\r ]+|[\t\n\r ]+$/g, '')`. -/
def trim (value : JsString) : JsString :=
  ((value.dropWhile isBlank).reverse.dropWhile isBlank).reverse

def normalizeValue (value : JsString) : Except JsError JsString :=
  if value.any (0xff < ·) then .error (.typeError (js "Invalid header value"))
  else if (trim value).any ([0,13,10].contains ·) then
    .error (.typeError (js "Invalid header value"))
  else .ok (trim value)

inductive Guard
  | none
  | immutable
  | request
  | requestNoCors
  | response
  deriving DecidableEq

def isForbiddenRequestHeader (_ : JsString) : Bool := false

def isNoCorsSafelistedRequestHeader (_ _ : JsString) : Bool := true

end Headers

open Headers in
structure Headers where
  list : List (JsString × JsString) := []
  guard : Guard := .none
  deriving DecidableEq

namespace Headers

def forbiddenOrNoCors (h : Headers) (name value : JsString) : Bool :=
  match h.guard with
  | .request => isForbiddenRequestHeader name
  | .requestNoCors =>
    isForbiddenRequestHeader name || !isNoCorsSafelistedRequestHeader name value
  | _ => false

def append (h : Headers) (name value : JsString) : Except JsError Headers :=
  if h.guard = .immutable then .error (.typeError (js "Headers are immutable"))
  else
    (normalizeName name).bind fun n =>
      (normalizeValue value).bind fun v =>
        if h.forbiddenOrNoCors n v then .ok h else .ok { h with list := h.list++[(n,v)] }

/-- The entries with the values of one name joined, as a `Map` keeps them. -/
def joinInto : List (JsString × JsString) → JsString × JsString → List (JsString × JsString)
  | [], p => [p]
  | q::qs, p => if q.1 = p.1 then (q.1,q.2++js ", "++p.2)::qs else q::joinInto qs p

/-- `_combined`, the entries in the order that iteration has. -/
def combined (h : Headers) : List (JsString × JsString) :=
  (h.list.mergeSort fun a b => !decide (b.1 < a.1)).foldl joinInto []

/-- `new Headers(pairs)` for a sequence of pairs. -/
def ofPairs (pairs : List (JsString × JsString)) : Except JsError Headers :=
  pairs.foldlM (fun h p => h.append p.1 p.2) {}

/-- `new Headers(headers)`, which iterates the other's entries. -/
def ofHeaders (h : Headers) : Except JsError Headers := ofPairs h.combined

def has (h : Headers) (name : JsString) : Except JsError Bool :=
  (normalizeName name).map fun n => h.list.any (·.1 = n)

/-- A name and a value that `append` takes without throwing. -/
structure Valid (p : JsString × JsString) : Prop where
  nonempty : p.1 ≠ []
  token : ∀ c ∈ p.1, isToken c = true
  value : ∀ c ∈ p.2, c ≤ 0xff ∧ c ≠ 0 ∧ c ≠ 13 ∧ c ≠ 10

theorem isToken_toLowerCase {c : ℕ} (h : isToken c = true) :
    isToken (if 65 ≤ c ∧ c ≤ 90 then c+32 else c) = true := by
  split
  · have hlow : 97 ≤ c+32 ∧ c+32 ≤ 122 := by omega
    simp [isToken,hlow]
  · exact h

theorem normalizeName_ok {name n : JsString} (h : normalizeName name = .ok n) :
    n ≠ [] ∧ ∀ c ∈ n, isToken c = true := by
  simp only [normalizeName] at h
  split at h
  · cases h
  · next hne =>
    split at h
    · next hall =>
      cases h
      refine ⟨by simpa [toLowerCase] using hne,fun c hc => ?_⟩
      obtain ⟨d,hd,rfl⟩ := List.mem_map.mp hc
      exact isToken_toLowerCase (List.all_eq_true.mp hall d hd)
    · cases h

theorem mem_of_mem_trim {c : ℕ} {value : JsString} (h : c ∈ trim value) : c ∈ value := by
  have hback := (List.dropWhile_suffix isBlank).subset (List.mem_reverse.mp h)
  exact (List.dropWhile_suffix isBlank).subset (List.mem_reverse.mp hback)

theorem normalizeValue_ok {value v : JsString} (h : normalizeValue value = .ok v) :
    ∀ c ∈ v, c ≤ 0xff ∧ c ≠ 0 ∧ c ≠ 13 ∧ c ≠ 10 := by
  simp only [normalizeValue] at h
  split at h
  · cases h
  · next hwide =>
    split at h
    · cases h
    · next hctl =>
      cases h
      intro c hc
      have hc' := mem_of_mem_trim hc
      simp only [List.any_eq_true,decide_eq_true_eq,not_exists,not_and,Nat.not_lt] at hwide
      simp only [List.any_eq_true,List.contains_eq_mem,List.mem_cons,List.not_mem_nil,or_false,
        decide_eq_true_eq,not_exists,not_and,not_or] at hctl
      exact ⟨hwide c hc',hctl c hc⟩

theorem append_valid {h t : Headers} {name value : JsString} (hs : ∀ p ∈ h.list, Valid p)
    (ht : h.append name value = .ok t) : ∀ p ∈ t.list, Valid p := by
  simp only [append] at ht
  split at ht
  · cases ht
  · cases hn : normalizeName name with
    | error e => simp [hn,Except.bind] at ht
    | ok n =>
      cases hv : normalizeValue value with
      | error e => simp [hn,hv,Except.bind] at ht
      | ok v =>
        simp only [hn,hv,Except.bind] at ht
        split at ht
        · cases ht
          exact hs
        · cases ht
          intro p hp
          rcases List.mem_append.mp hp with hp | hp
          · exact hs p hp
          · obtain rfl : p = (n,v) := by simpa using hp
            exact ⟨(normalizeName_ok hn).1,(normalizeName_ok hn).2,normalizeValue_ok hv⟩

theorem normalizeName_of_valid {p : JsString × JsString} (hp : Valid p) :
    normalizeName p.1 = .ok (toLowerCase p.1) := by
  rw [normalizeName,if_neg hp.nonempty,if_pos (List.all_eq_true.mpr hp.token)]

theorem normalizeValue_of_valid {p : JsString × JsString} (hp : Valid p) :
    normalizeValue p.2 = .ok (trim p.2) := by
  have hwide : ¬ p.2.any (0xff < ·) = true := by
    simp only [List.any_eq_true,decide_eq_true_eq,not_exists,not_and,Nat.not_lt]
    exact fun c hc => (hp.value c hc).1
  have hctl : ¬ (trim p.2).any ([0,13,10].contains ·) = true := by
    simp only [List.any_eq_true,List.contains_eq_mem,List.mem_cons,List.not_mem_nil,or_false,
      decide_eq_true_eq,not_exists,not_and,not_or]
    exact fun c hc => (hp.value c (mem_of_mem_trim hc)).2
  rw [normalizeValue,if_neg hwide,if_neg hctl]

theorem append_of_valid {h : Headers} {p : JsString × JsString} (hg : h.guard = .none)
    (hp : Valid p) : ∃ t, h.append p.1 p.2 = .ok t ∧ t.guard = .none := by
  refine ⟨{ h with list := h.list++[(toLowerCase p.1,trim p.2)] },?_,hg⟩
  rw [append,if_neg (by simp [hg]),normalizeName_of_valid hp,normalizeValue_of_valid hp]
  simp [Except.bind,forbiddenOrNoCors,hg]

theorem ofPairs_of_valid {pairs : List (JsString × JsString)} (hs : ∀ p ∈ pairs, Valid p) :
    ∃ h, ofPairs pairs = .ok h := by
  have hfold (h : Headers) (hg : h.guard = .none) :
      ∃ t, pairs.foldlM (fun h p => h.append p.1 p.2) h = Except.ok t := by
    induction pairs generalizing h with
    | nil => exact ⟨h,rfl⟩
    | cons p pairs ih =>
      obtain ⟨t,ht,htg⟩ := append_of_valid hg (hs p (by simp))
      obtain ⟨u,hu⟩ := ih (fun q hq => hs q (by simp [hq])) t htg
      exact ⟨u,by rw [List.foldlM_cons,ht]; exact hu⟩
  exact hfold {} rfl

theorem joinInto_valid {qs : List (JsString × JsString)} {p : JsString × JsString}
    (hs : ∀ q ∈ qs, Valid q) (hp : Valid p) : ∀ q ∈ joinInto qs p, Valid q := by
  induction qs with
  | nil => simpa [joinInto] using hp
  | cons q qs ih =>
    have hq := hs q (by simp)
    rw [joinInto]
    split
    · have hjoined : Valid (q.1,q.2++js ", "++p.2) := by
        refine ⟨hq.nonempty,hq.token,fun c hc => ?_⟩
        have hsep : ∀ c ∈ js ", ", c ≤ 0xff ∧ c ≠ 0 ∧ c ≠ 13 ∧ c ≠ 10 := by decide
        rcases List.mem_append.mp hc with hc | hc
        · rcases List.mem_append.mp hc with hc | hc
          · exact hq.value c hc
          · exact hsep c hc
        · exact hp.value c hc
      intro r hr
      rcases List.mem_cons.mp hr with rfl | hr
      · exact hjoined
      · exact hs r (by simp [hr])
    · intro r hr
      rcases List.mem_cons.mp hr with rfl | hr
      · exact hq
      · exact ih (fun s hs' => hs s (by simp [hs'])) r hr

theorem combined_valid {h : Headers} (hs : ∀ p ∈ h.list, Valid p) :
    ∀ p ∈ h.combined, Valid p := by
  have hfold (ps acc : List (JsString × JsString)) (hps : ∀ p ∈ ps, Valid p)
      (hacc : ∀ p ∈ acc, Valid p) : ∀ p ∈ ps.foldl joinInto acc, Valid p := by
    induction ps generalizing acc with
    | nil => exact hacc
    | cons q ps ih =>
      exact ih (joinInto acc q) (fun p hp => hps p (by simp [hp]))
        (joinInto_valid hacc (hps q (by simp)))
  refine hfold _ [] (fun p hp => hs p ?_) (by simp)
  exact (List.mergeSort_perm ..).subset hp

theorem ofHeaders_of_valid {h : Headers} (hs : ∀ p ∈ h.list, Valid p) :
    ∃ t, ofHeaders h = .ok t :=
  ofPairs_of_valid (combined_valid hs)

end Headers
end AsioQuickjs
