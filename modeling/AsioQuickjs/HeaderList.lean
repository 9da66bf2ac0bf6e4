import AsioQuickjs.Headers

/-! The operations of `Headers` on one object, as the script runs them: what throws leaves the
object in the state it had got to. Every string that reaches the list has been normalized. -/
namespace AsioQuickjs
namespace HeaderList

open Headers (Guard Valid normalizeName normalizeValue isForbiddenRequestHeader isToken isBlank
  toLowerCase trim)

/-- A method of `Headers`, on `this`. -/
abbrev Method := EStateM JsError Headers

def throwTypeError (message : String) : Method Unit := throw (.typeError (js message))

/-- What a function that does not touch the object returns or throws. -/
def call {α : Type} : Except JsError α → Method α
  | .ok a => pure a
  | .error e => throw e

def ensureMutable : Method Unit := do
  if (← get).guard = .immutable then throwTypeError "Headers are immutable"

def append (name value : JsString) : Method Unit := do
  ensureMutable
  let n ← call (normalizeName name)
  let v ← call (normalizeValue value)
  if !(← get).forbiddenOrNoCors n v then
    modify fun h => { h with list := h.list++[(n,v)] }

/-- The names that can be deleted under `request-no-cors`. -/
def deletable : List JsString :=
  [js "accept",js "accept-language",js "content-language",js "content-type"]

def delete (name : JsString) : Method Unit := do
  ensureMutable
  let n ← call (normalizeName name)
  let guard := (← get).guard
  if guard = .request ∧ isForbiddenRequestHeader n then return
  if guard = .requestNoCors ∧ isForbiddenRequestHeader n then return
  if guard = .requestNoCors ∧ !deletable.contains n then return
  modify fun h => { h with list := h.list.filter (·.1 ≠ n) }

/-- The loop of `set`: whether the name was found so far, and `next`. -/
def replace (n v : JsString) : Bool × List (JsString × JsString) →
    List (JsString × JsString) → Bool × List (JsString × JsString)
  | acc, [] => acc
  | (found,next), p::ps =>
    if p.1 = n then replace n v (if found then (found,next) else (true,next++[(n,v)])) ps
    else replace n v (found,next++[p]) ps

def set (name value : JsString) : Method Unit := do
  ensureMutable
  let n ← call (normalizeName name)
  let v ← call (normalizeValue value)
  if !(← get).forbiddenOrNoCors n v then
    modify fun h =>
      let (found,next) := replace n v (false,[]) h.list
      { h with list := if found then next else next++[(n,v)] }

/-- Without an argument the guard is `none`. -/
def setGuard (guard : Option Guard) : Method Unit := do
  modify fun h => { h with guard := guard.getD .none }
  if (← get).guard = .request ∨ (← get).guard = .requestNoCors then
    modify fun h => { h with list := h.list.filter fun p => !h.forbiddenOrNoCors p.1 p.2 }

/-- `assignGuard` is the bare assignment that `Request` and `Response` make. -/
inductive Op
  | append (name value : JsString)
  | set (name value : JsString)
  | delete (name : JsString)
  | setGuard (guard : Option Guard)
  | assignGuard (guard : Guard)

def Op.method : Op → Method Unit
  | .append name value => HeaderList.append name value
  | .set name value => HeaderList.set name value
  | .delete name => HeaderList.delete name
  | .setGuard g => HeaderList.setGuard g
  | .assignGuard g => modify fun h => { h with guard := g }

/-- `Array.from` of a string: its code points, a pair of surrogates being one. -/
def codePoints : JsString → List JsString
  | c::d::cs =>
    if 0xd800 ≤ c ∧ c < 0xdc00 ∧ 0xdc00 ≤ d ∧ d < 0xe000 then [c,d]::codePoints cs
    else [c]::codePoints (d::cs)
  | [c] => [[c]]
  | [] => []

/-- What stands for a pair in an iterable `init`. -/
inductive Pair
  | notIterable
  | text (s : JsString)
  | items (parts : List JsString)

inductive Init
  | undefined
  | notAnObject
  | iterable (pairs : List Pair)
  | keys (entries : List (JsString × JsString))

def Pair.parts : Pair → Option (List JsString)
  | .notIterable => none
  | .text s => some (codePoints s)
  | .items parts => some parts

def appendPair (pair : Pair) : Method Unit :=
  match pair.parts with
  | none => throwTypeError "Invalid headers sequence"
  | some [name,value] => append name value
  | some _ => throwTypeError "Invalid headers sequence pair"

def construct : Init → Method Unit
  | .undefined => pure ()
  | .notAnObject => throwTypeError "Failed to construct 'Headers': parameter is not an object"
  | .iterable pairs => pairs.forM appendPair
  | .keys entries => entries.forM fun p => append p.1 p.2

/-- What is left of an object whose construction threw cannot be reached. -/
def constructed : EStateM.Result JsError Headers Unit → Except JsError Headers
  | .ok _ h => .ok h
  | .error e _ => .error e

/-- `new Headers(init)`. -/
def new (init : Init) : Except JsError Headers := constructed (construct init {})

def after (m : Method Unit) (h : Headers) : Headers :=
  match m h with
  | .ok _ t => t
  | .error _ t => t

def Throws (m : Method Unit) (h : Headers) : Prop := ∃ e t, m h = .error e t

/-- One operation after the other; what throws is caught by the caller. -/
def run (h : Headers) (ops : List Op) : Headers := ops.foldl (fun h op => after op.method h) h

/-- A lower-case token and a value without blanks at its ends, which `normalizeValue` leaves as
it is. -/
structure Normal (p : JsString × JsString) : Prop where
  nonempty : p.1 ≠ []
  token : ∀ c ∈ p.1, isToken c = true ∧ ¬ (65 ≤ c ∧ c ≤ 90)
  value : ∀ c ∈ p.2, c ≤ 0xff ∧ c ≠ 0 ∧ c ≠ 13 ∧ c ≠ 10
  first : ∀ c, p.2.head? = some c → isBlank c = false
  last : ∀ c, p.2.getLast? = some c → isBlank c = false
  fixed : normalizeValue p.2 = .ok p.2

theorem toLowerCase_lower {s : JsString} {c : ℕ} (h : c ∈ toLowerCase s) :
    ¬ (65 ≤ c ∧ c ≤ 90) := by
  obtain ⟨d,-,rfl⟩ := List.mem_map.mp h
  split <;> omega

section

variable {α : Type*} {q : α → Bool} {l : List α}

theorem head_dropWhile {c : α} (h : (l.dropWhile q).head? = some c) : q c = false := by
  have hnot := List.head?_dropWhile_not q l
  rwa [h] at hnot

theorem dropWhile_of_head (h : ∀ c, l.head? = some c → q c = false) : l.dropWhile q = l := by
  cases l with
  | nil => rfl
  | cons c cs => exact List.dropWhile_cons_of_neg (by simp [h c rfl])

end

theorem head_trim {value : JsString} {c : ℕ} (h : (trim value).head? = some c) :
    isBlank c = false := by
  obtain ⟨front,hfront⟩ := List.dropWhile_suffix (l := (value.dropWhile isBlank).reverse) isBlank
  have happend : trim value++front.reverse = value.dropWhile isBlank := by
    rw [trim,← List.reverse_append,hfront,List.reverse_reverse]
  refine head_dropWhile (l := value) ?_
  rw [← happend,List.head?_append,h]
  rfl

theorem last_trim {value : JsString} {c : ℕ} (h : (trim value).getLast? = some c) :
    isBlank c = false := by
  rw [trim,List.getLast?_reverse] at h
  exact head_dropWhile h

theorem trim_of_ends {value : JsString} (hfirst : ∀ c, value.head? = some c → isBlank c = false)
    (hlast : ∀ c, value.getLast? = some c → isBlank c = false) : trim value = value := by
  rw [trim,dropWhile_of_head hfirst,dropWhile_of_head (by simpa using hlast),List.reverse_reverse]

theorem trim_trim (value : JsString) : trim (trim value) = trim value :=
  trim_of_ends (fun _ h => head_trim h) fun _ h => last_trim h

theorem normalizeName_eq {name n : JsString} (h : normalizeName name = .ok n) :
    n = toLowerCase name := by
  simp only [normalizeName] at h
  split at h
  · cases h
  · split at h <;> cases h
    rfl

theorem normalizeValue_eq {value v : JsString} (h : normalizeValue value = .ok v) :
    v = trim value := by
  simp only [normalizeValue] at h
  split at h
  · cases h
  · split at h <;> cases h
    rfl

theorem normal_of_ok {name value n v : JsString} (hn : normalizeName name = .ok n)
    (hv : normalizeValue value = .ok v) : Normal (n,v) := by
  have hname := Headers.normalizeName_ok hn
  have hvalue := Headers.normalizeValue_ok hv
  have hvalid : Valid (n,v) := ⟨hname.1,hname.2,hvalue⟩
  have htrim := normalizeValue_eq hv
  have hfixed := Headers.normalizeValue_of_valid hvalid
  simp only at hfixed
  rw [show trim v = v by rw [htrim,trim_trim]] at hfixed
  refine ⟨hname.1,fun c hc => ⟨hname.2 c hc,?_⟩,hvalue,fun c hc => ?_,fun c hc => ?_,hfixed⟩
  · rw [normalizeName_eq hn] at hc
    exact toLowerCase_lower hc
  · rw [htrim] at hc
    exact head_trim hc
  · rw [htrim] at hc
    exact last_trim hc

theorem Normal.valid {p : JsString × JsString} (h : Normal p) : Valid p :=
  ⟨h.nonempty,fun c hc => (h.token c hc).1,h.value⟩

section

variable (h : Headers) (name value : JsString)

theorem get_bind (k : Headers → Method Unit) : (get >>= k) h = k h h := rfl

theorem call_bind {α : Type} (y : Except JsError α) (k : α → Method Unit) :
    (call y >>= k) h = match y with
      | .ok a => k a h
      | .error e => .error e h := by
  cases y <;> rfl

theorem ensureMutable_bind (k : Unit → Method Unit) :
    (ensureMutable >>= k) h =
      if h.guard = .immutable then .error (.typeError (js "Headers are immutable")) h
      else k () h := by
  have hget : ensureMutable h =
    (if h.guard = .immutable then throwTypeError "Headers are immutable" else pure ()) h := rfl
  simp only [bind,EStateM.bind,hget]
  by_cases hg : h.guard = .immutable
  · rw [if_pos hg,if_pos hg]
    rfl
  · rw [if_neg hg,if_neg hg]
    rfl

/-- What the methods begin with: they throw and leave the object alone, or go on with a name. -/
theorem checkName (k : JsString → Method Unit) :
    (∃ e, (ensureMutable >>= fun _ => call (normalizeName name) >>= k) h = .error e h) ∨
      h.guard ≠ .immutable ∧ ∃ n, normalizeName name = .ok n ∧
        (ensureMutable >>= fun _ => call (normalizeName name) >>= k) h = k n h := by
  rw [ensureMutable_bind,call_bind]
  split
  · exact .inl ⟨_,rfl⟩
  · next hg =>
    cases hn : normalizeName name with
    | error e => exact .inl ⟨e,rfl⟩
    | ok n => exact .inr ⟨hg,n,rfl,rfl⟩

theorem checkValue (k : JsString → JsString → Method Unit) :
    (∃ e, (ensureMutable >>= fun _ => call (normalizeName name) >>= fun n =>
        call (normalizeValue value) >>= k n) h = .error e h) ∨
      h.guard ≠ .immutable ∧ ∃ n v, normalizeName name = .ok n ∧ normalizeValue value = .ok v ∧
        (ensureMutable >>= fun _ => call (normalizeName name) >>= fun n =>
          call (normalizeValue value) >>= k n) h = k n v h := by
  rcases checkName h name fun n => call (normalizeValue value) >>= k n with
    ⟨e,he⟩ | ⟨hg,n,hn,he⟩
  · exact .inl ⟨e,he⟩
  · rw [he,call_bind]
    cases hv : normalizeValue value with
    | error e => exact .inl ⟨e,rfl⟩
    | ok v => exact .inr ⟨hg,n,v,hn,rfl,rfl⟩

theorem forbiddenOrNoCors_eq : h.forbiddenOrNoCors name value = false := by
  rw [Headers.forbiddenOrNoCors]
  cases h.guard <;> rfl

/-- What is left of `append` and of `set`: a change of the list, unless the guard forbids it. -/
theorem edit_eq (n v : JsString) (f : Headers → Headers) :
    (do if !(← get).forbiddenOrNoCors n v then modify f : Method Unit) h =
      .ok () (if h.forbiddenOrNoCors n v then h else f h) := by
  rw [get_bind]
  cases h.forbiddenOrNoCors n v <;> rfl

theorem append_cases :
    (∃ e, append name value h = .error e h) ∨
      h.guard ≠ .immutable ∧ ∃ n v, normalizeName name = .ok n ∧ normalizeValue value = .ok v ∧
        append name value h = .ok ()
          (if h.forbiddenOrNoCors n v then h else { h with list := h.list++[(n,v)] }) := by
  rcases checkValue h name value _ with ⟨e,he⟩ | ⟨hg,n,v,hn,hv,he⟩
  · exact .inl ⟨e,he⟩
  · exact .inr ⟨hg,n,v,hn,hv,he.trans (edit_eq h n v _)⟩

/-- The method does what `Headers.append` says, and throws with the object as it was. -/
theorem append_eq :
    append name value h = match h.append name value with
      | .ok t => .ok () t
      | .error e => .error e h := by
  have hbind := ensureMutable_bind h fun _ => call (normalizeName name) >>= fun n =>
    call (normalizeValue value) >>= fun v => do
      if !(← get).forbiddenOrNoCors n v then
        modify fun h => { h with list := h.list++[(n,v)] }
  rw [call_bind] at hbind
  refine hbind.trans ?_
  rw [Headers.append]
  split
  · rfl
  · cases hn : normalizeName name with
    | error e => rfl
    | ok n =>
      simp only [call_bind]
      cases hv : normalizeValue value with
      | error e => rfl
      | ok v =>
        simp only [Except.bind,forbiddenOrNoCors_eq]
        rfl

theorem set_cases :
    (∃ e, set name value h = .error e h) ∨
      h.guard ≠ .immutable ∧ ∃ n v, normalizeName name = .ok n ∧ normalizeValue value = .ok v ∧
        set name value h = .ok ()
          (if h.forbiddenOrNoCors n v then h
          else { h with list :=
            let r := replace n v (false,[]) h.list
            if r.1 then r.2 else r.2++[(n,v)] }) := by
  rcases checkValue h name value _ with ⟨e,he⟩ | ⟨hg,n,v,hn,hv,he⟩
  · exact .inl ⟨e,he⟩
  · exact .inr ⟨hg,n,v,hn,hv,he.trans (edit_eq h n v _)⟩

theorem delete_cases :
    (∃ e, delete name h = .error e h) ∨
      h.guard ≠ .immutable ∧ ∃ n, normalizeName name = .ok n ∧
        (delete name h = .ok () h ∨
          delete name h = .ok () { h with list := h.list.filter (·.1 ≠ n) }) := by
  rcases checkName h name _ with ⟨e,he⟩ | ⟨hg,n,hn,he⟩
  · exact .inl ⟨e,he⟩
  · refine .inr ⟨hg,n,hn,?_⟩
    by_cases hd : h.guard = .requestNoCors ∧ (!deletable.contains n) = true
    · refine .inl (he.trans ?_)
      simp only [get_bind,isForbiddenRequestHeader,Bool.false_eq_true,and_false,if_false,if_pos hd]
      rfl
    · refine .inr (he.trans ?_)
      simp only [get_bind,isForbiddenRequestHeader,Bool.false_eq_true,and_false,if_false,if_neg hd]
      rfl

theorem setGuard_eq (g : Option Guard) :
    setGuard g h = .ok () { h with guard := g.getD .none } := by
  have hkeep : ∀ t : Headers, t.list.filter (fun p => !t.forbiddenOrNoCors p.1 p.2) = t.list :=
    fun t => List.filter_eq_self.mpr fun p _ => by rw [forbiddenOrNoCors_eq]; rfl
  let t : Headers := { h with guard := g.getD .none }
  have hrest : setGuard g h = (if t.guard = .request ∨ t.guard = .requestNoCors then
      modify fun h => { h with list := h.list.filter fun p => !h.forbiddenOrNoCors p.1 p.2 }
      else pure () : Method Unit) t := rfl
  rw [hrest]
  split
  · change EStateM.Result.ok () { t with list := t.list.filter _ } = _
    rw [hkeep]
  · rfl

end

/-- All entries are normal. -/
def AllNormal (h : Headers) : Prop := ∀ p ∈ h.list, Normal p

theorem mem_replace {n v : JsString} {acc : Bool × List (JsString × JsString)}
    {ps : List (JsString × JsString)} {p : JsString × JsString}
    (hp : p ∈ (replace n v acc ps).2) : p ∈ acc.2 ∨ p ∈ ps ∨ p = (n,v) := by
  induction ps generalizing acc with
  | nil => exact .inl hp
  | cons q ps ih =>
    obtain ⟨found,next⟩ := acc
    rw [replace] at hp
    split at hp
    · rcases ih hp with h | h | h
      · cases found with
        | true => exact .inl (by simpa using h)
        | false =>
          rcases List.mem_append.mp (show p ∈ next++[(n,v)] by simpa using h) with h | h
          · exact .inl h
          · exact .inr (.inr (List.mem_singleton.mp h))
      · exact .inr (.inl (List.mem_cons_of_mem _ h))
      · exact .inr (.inr h)
    · rcases ih hp with h | h | h
      · rcases List.mem_append.mp h with h | h
        · exact .inl h
        · exact .inr (.inl (by simp [List.mem_singleton.mp h]))
      · exact .inr (.inl (List.mem_cons_of_mem _ h))
      · exact .inr (.inr h)

theorem after_error {m : Method Unit} {h t : Headers} {e : JsError} (hm : m h = .error e t) :
    after m h = t := by rw [after,hm]

theorem after_ok {m : Method Unit} {h t : Headers} (hm : m h = .ok () t) : after m h = t := by
  rw [after,hm]

theorem append_normal {h : Headers} (hs : AllNormal h) (name value : JsString) :
    AllNormal (after (append name value) h) := by
  rcases append_cases h name value with ⟨e,he⟩ | ⟨-,n,v,hn,hv,he⟩
  · rwa [after_error he]
  · rw [after_ok he,forbiddenOrNoCors_eq,if_neg Bool.false_ne_true]
    intro p hp
    rcases List.mem_append.mp hp with hp | hp
    · exact hs p hp
    · rw [List.mem_singleton.mp hp]
      exact normal_of_ok hn hv

theorem set_normal {h : Headers} (hs : AllNormal h) (name value : JsString) :
    AllNormal (after (set name value) h) := by
  rcases set_cases h name value with ⟨e,he⟩ | ⟨-,n,v,hn,hv,he⟩
  · rwa [after_error he]
  · rw [after_ok he,forbiddenOrNoCors_eq,if_neg Bool.false_ne_true]
    have hreplaced : ∀ p ∈ (replace n v (false,[]) h.list).2, Normal p := fun p hp => by
      rcases mem_replace hp with hp | hp | rfl
      · cases hp
      · exact hs p hp
      · exact normal_of_ok hn hv
    intro p hp
    simp only at hp
    split at hp
    · exact hreplaced p hp
    · rcases List.mem_append.mp hp with hp | hp
      · exact hreplaced p hp
      · rw [List.mem_singleton.mp hp]
        exact normal_of_ok hn hv

theorem delete_normal {h : Headers} (hs : AllNormal h) (name : JsString) :
    AllNormal (after (delete name) h) := by
  rcases delete_cases h name with ⟨e,he⟩ | ⟨-,n,-,he | he⟩
  · rwa [after_error he]
  · rwa [after_ok he]
  · rw [after_ok he]
    exact fun p hp => hs p (List.mem_of_mem_filter hp)

theorem op_normal {h : Headers} (hs : AllNormal h) (op : Op) : AllNormal (after op.method h) := by
  cases op with
  | append name value => exact append_normal hs name value
  | set name value => exact set_normal hs name value
  | delete name => exact delete_normal hs name
  | setGuard g => rwa [Op.method,after_ok (setGuard_eq h g)]
  | assignGuard g => exact hs

theorem run_normal {h : Headers} (hs : AllNormal h) (ops : List Op) : AllNormal (run h ops) := by
  induction ops generalizing h with
  | nil => exact hs
  | cons op ops ih => exact ih (op_normal hs op)

theorem forM_normal {β : Type} {f : β → Method Unit}
    (hf : ∀ b h, AllNormal h → AllNormal (after (f b) h)) (bs : List β) {h : Headers}
    (hs : AllNormal h) : AllNormal (after (bs.forM f) h) := by
  induction bs generalizing h with
  | nil => exact hs
  | cons b bs ih =>
    have hb := hf b h hs
    have hcons : (b::bs).forM f h = (f b >>= fun _ => bs.forM f) h := rfl
    cases hfb : f b h with
    | ok u t =>
      rw [after_ok hfb] at hb
      have hrest : (b::bs).forM f h = bs.forM f t := by
        rw [hcons]
        simp only [bind,EStateM.bind,hfb]
      rw [after,hrest,← after]
      exact ih hb
    | error e t =>
      rw [after_error hfb] at hb
      have hstop : (b::bs).forM f h = .error e t := by
        rw [hcons]
        simp only [bind,EStateM.bind,hfb]
      rwa [after_error hstop]

theorem appendPair_normal (pair : Pair) (h : Headers) (hs : AllNormal h) :
    AllNormal (after (appendPair pair) h) := by
  rw [appendPair]
  split
  · exact hs
  · next name value _ => exact append_normal hs name value
  · exact hs

theorem construct_normal (init : Init) : AllNormal (after (construct init) {}) := by
  have hempty : AllNormal {} := fun p hp => by cases hp
  cases init with
  | undefined | notAnObject => exact hempty
  | iterable pairs => exact forM_normal appendPair_normal pairs hempty
  | keys entries => exact forM_normal (fun p h hs => append_normal hs p.1 p.2) entries hempty

theorem new_pairs (pairs : List (JsString × JsString)) :
    new (.iterable (pairs.map fun p => .items [p.1,p.2])) = Headers.ofPairs pairs := by
  have hloop (h : Headers) : constructed ((pairs.map fun p => Pair.items [p.1,p.2]).forM
      appendPair h) = pairs.foldlM (fun h p => h.append p.1 p.2) h := by
    induction pairs generalizing h with
    | nil => rfl
    | cons p ps ih =>
      have hcons : ((p::ps).map fun p => Pair.items [p.1,p.2]).forM appendPair h =
        (append p.1 p.2 >>= fun _ =>
          (ps.map fun p => Pair.items [p.1,p.2]).forM appendPair) h := rfl
      rw [hcons,List.foldlM_cons]
      simp only [bind,EStateM.bind,append_eq]
      cases h.append p.1 p.2 with
      | ok t => exact ih t
      | error e => rfl
  exact hloop {}

theorem new_normal {init : Init} {h : Headers} (hnew : new init = .ok h) : AllNormal h := by
  have hinit := construct_normal init
  rw [new] at hnew
  cases hc : construct init {} with
  | ok u t =>
    rw [hc] at hnew
    cases hnew
    rwa [after_ok hc] at hinit
  | error e t =>
    rw [hc] at hnew
    cases hnew

theorem after_of_throws {op : Op} {h : Headers} (ht : Throws op.method h) :
    after op.method h = h := by
  obtain ⟨e,t,ht⟩ := ht
  rw [after_error ht]
  cases op with
  | append name value =>
    rcases append_cases h name value with ⟨e,he⟩ | ⟨-,n,v,-,-,he⟩
    · cases ht.symm.trans he
      rfl
    · cases ht.symm.trans he
  | set name value =>
    rcases set_cases h name value with ⟨e,he⟩ | ⟨-,n,v,-,-,he⟩
    · cases ht.symm.trans he
      rfl
    · cases ht.symm.trans he
  | delete name =>
    rcases delete_cases h name with ⟨e,he⟩ | ⟨-,n,-,he | he⟩
    · cases ht.symm.trans he
      rfl
    · cases ht.symm.trans he
    · cases ht.symm.trans he
  | setGuard g => cases ht.symm.trans (setGuard_eq h g)
  | assignGuard g => cases ht

theorem after_of_immutable {h : Headers} (hg : h.guard = .immutable) (op : Op) :
    (after op.method h).list = h.list := by
  cases op with
  | append name value =>
    rcases append_cases h name value with ⟨e,he⟩ | ⟨hne,-⟩
    · rw [Op.method,after_error he]
    · exact absurd hg hne
  | set name value =>
    rcases set_cases h name value with ⟨e,he⟩ | ⟨hne,-⟩
    · rw [Op.method,after_error he]
    · exact absurd hg hne
  | delete name =>
    rcases delete_cases h name with ⟨e,he⟩ | ⟨hne,-⟩
    · rw [Op.method,after_error he]
    · exact absurd hg hne
  | setGuard g => rw [Op.method,after_ok (setGuard_eq h g)]
  | assignGuard g => rfl

/-- After any operations on a new object its entries are normal, an operation that throws
leaves the list as it is, and so does every operation under the guard `immutable`. -/
theorem list_invariant {init : Init} {h : Headers} (hnew : new init = .ok h) (ops : List Op) :
    AllNormal (run h ops) ∧
      (∀ op : Op, Throws op.method (run h ops) →
        (after op.method (run h ops)).list = (run h ops).list) ∧
      ((run h ops).guard = .immutable →
        ∀ op : Op, (after op.method (run h ops)).list = (run h ops).list) :=
  ⟨run_normal (new_normal hnew) ops,fun _ ht => by rw [after_of_throws ht],after_of_immutable⟩

def sampleInit : Init := .iterable [.text (js "ab"),.items [js "X-A",js " 1 "]]

def sampleOps : List Op := [.set (js "A") (js "2"),.setGuard (some .immutable)]

theorem list_invariant_sample :
    ∃ h, new sampleInit = .ok h ∧ AllNormal (run h sampleOps) ∧
      (∀ op : Op, Throws op.method (run h sampleOps) →
        (after op.method (run h sampleOps)).list = (run h sampleOps).list) ∧
      ((run h sampleOps).guard = .immutable →
        ∀ op : Op, (after op.method (run h sampleOps)).list = (run h sampleOps).list) := by
  have hnew : new sampleInit = .ok { list := [(js "a",js "b"),(js "x-a",js "1")] } := by
    decide +kernel
  exact ⟨_,hnew,list_invariant hnew _⟩

theorem copies {init : Init} {h : Headers} (hnew : new init = .ok h) (ops : List Op) :
    ∃ t, Headers.ofHeaders (run h ops) = .ok t :=
  Headers.ofHeaders_of_valid fun p hp => (run_normal (new_normal hnew) ops p hp).valid

end HeaderList
end AsioQuickjs
