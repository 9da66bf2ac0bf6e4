import AsioQuickjs.HostJob
import Mathlib.Algebra.Ring.Int.Defs
import Mathlib.Data.List.TakeWhile

/-! The arguments of a job on their way into JavaScript and its result on the way out:
`decode_args` and `encode_result` around a function that hands back what it is given. -/
namespace AsioQuickjs
namespace JobWire

open HostJob

/-- What a JSON text has at its leaves, once parsed: of numbers, those that `JS_ParseJSON`
makes of a numeral, infinities and negative zero among them. -/
inductive Leaf (D : Type)
  | null
  | boolean (b : Bool)
  | number (d : D)
  | infinity (negative : Bool)
  | negativeZero
  | string (units : List UInt16)

inductive Tree (D : Type)
  | leaf (l : Leaf D)
  | array (items : List (Tree D))
  | object (members : List (List UInt16 × Tree D))

variable {D : Type}

def Tree.IsContainer : Tree D → Prop
  | .leaf _ => False
  | .array _ => True
  | .object _ => True

/-- A number that `JSON.stringify` gives a numeral of its own, or no number. -/
def Leaf.Plain : Leaf D → Prop
  | .infinity _ => False
  | .negativeZero => False
  | _ => True

/-- The leaf that the text made by `JSON.stringify` stands for. -/
def Leaf.written [Zero D] : Leaf D → Leaf D
  | .infinity _ => .null
  | .negativeZero => .number 0
  | l => l

section trees

variable [Zero D]

mutual

def Tree.written : Tree D → Tree D
  | .leaf l => .leaf l.written
  | .array items => .array (writtenItems items)
  | .object members => .object (writtenMembers members)

def writtenItems : List (Tree D) → List (Tree D)
  | [] => []
  | v::vs => v.written::writtenItems vs

def writtenMembers : List (List UInt16 × Tree D) → List (List UInt16 × Tree D)
  | [] => []
  | (name,v)::ms => (name,v.written)::writtenMembers ms

end

end trees

mutual

def Tree.leaves : Tree D → List (Leaf D)
  | .leaf l => [l]
  | .array items => leavesItems items
  | .object members => leavesMembers members

def leavesItems : List (Tree D) → List (Leaf D)
  | [] => []
  | v::vs => v.leaves++leavesItems vs

def leavesMembers : List (List UInt16 × Tree D) → List (Leaf D)
  | [] => []
  | (_,v)::ms => v.leaves++leavesMembers ms

end

/-- A value of the engine. `structured` are the objects, arrays, numbers and booleans that
`JS_ParseJSON` makes. -/
inductive Val (D : Type)
  | undefined | null
  | string (s : String)
  | uint8Array (data : List UInt8)
  | structured (v : Tree D)

/-- The engine: `JS_ParseJSON`, `JS_JSONStringify`, and whether `JS_GetUint8Array` gives a
pointer for an array made over the memory of an empty `std::vector`, whose `data()` may be
null. A text written by `JS_JSONStringify` has its control characters escaped. -/
structure Engine (D : Type) [Zero D] where
  parse : String → Option (Val D)
  stringify : Tree D → String
  emptyView : Bool
  parse_stringify : ∀ t v, parse t = some (.structured v) → v.IsContainer →
    parse (stringify v) = some (.structured v.written)
  escaped : ∀ v, '\x00' ∉ (stringify v).toList

/-- `Value::to_std_string` of a string: `JS_ToCString`, read up to its NUL. -/
def toStdString (s : String) : String := .ofList (s.toList.takeWhile (· ≠ '\x00'))

variable [Zero D] (e : Engine D)

/-- `is_uint8_array`. -/
def isUint8Array (data : List UInt8) : Bool := !data.isEmpty || e.emptyView

/-- What `encode_result` reads of a value. An array that does not pass for a binary view is
an object without keys to `JS_JSONStringify`. -/
def Val.read : Val D → JsValue
  | .undefined => .undefined
  | .null => .null
  | .string s => .string (some (toStdString s))
  | .uint8Array data =>
    if isUint8Array e data then .binary .uint8Array data
    else .structured (some (some "\x7b\x7d"))
  | .structured v => .structured (some (some (toStdString (e.stringify v))))

/-- `decode_args`; `JS_NewStringLen` takes the length and so every character. -/
def decodeArgs (args : Args) : Except String (Val D) :=
  match args.kind with
  | .none => .ok .undefined
  | .string => .ok (.string args.str)
  | .object =>
    match e.parse args.str with
    | none => .error "job args Object: JSON.parse failed"
    | some v => .ok v
  | .bytes => .ok (.uint8Array args.bytes)

/-- `execute_job` of the identity function, which gives no promise. -/
def executeIdentity (args : Args) : Result :=
  match decodeArgs e args with
  | .error what => makeErr what
  | .ok v => encodeResult (v.read e)

def makeString (s : String) : Args := { kind := .string, str := s }
def makeObjectJson (t : String) : Args := { kind := .object, str := t }
def makeBytes (b : List UInt8) : Args := { kind := .bytes, bytes := b }

theorem toStdString_eq_iff (s : String) : toStdString s = s ↔ '\x00' ∉ s.toList := by
  rw [toStdString,← String.toList_inj,String.toList_ofList,List.takeWhile_eq_self_iff]
  constructor
  · intro hall hmem
    simpa using hall _ hmem
  · intro hnot c hc
    simp only [decide_eq_true_eq]
    rintro rfl
    exact hnot hc

theorem Leaf.written_eq_iff {l : Leaf D} : l.written = l ↔ l.Plain := by
  cases l <;> simp [Leaf.written,Leaf.Plain]

mutual

theorem Tree.written_eq_iff (v : Tree D) : v.written = v ↔ ∀ l ∈ v.leaves, l.Plain := by
  cases v with
  | leaf l => simp [Tree.written,Tree.leaves,Leaf.written_eq_iff]
  | array items => simp [Tree.written,Tree.leaves,writtenItems_eq_iff items]
  | object members => simp [Tree.written,Tree.leaves,writtenMembers_eq_iff members]

theorem writtenItems_eq_iff (vs : List (Tree D)) :
    writtenItems vs = vs ↔ ∀ l ∈ leavesItems vs, l.Plain := by
  cases vs with
  | nil => simp [writtenItems,leavesItems]
  | cons v vs =>
    rw [writtenItems,leavesItems,List.cons.injEq,v.written_eq_iff,writtenItems_eq_iff vs,
      List.forall_mem_append]

theorem writtenMembers_eq_iff (ms : List (List UInt16 × Tree D)) :
    writtenMembers ms = ms ↔ ∀ l ∈ leavesMembers ms, l.Plain := by
  cases ms with
  | nil => simp [writtenMembers,leavesMembers]
  | cons m ms =>
    obtain ⟨name,v⟩ := m
    rw [writtenMembers,leavesMembers,List.cons.injEq,Prod.mk.injEq,v.written_eq_iff,
      writtenMembers_eq_iff ms,List.forall_mem_append,eq_self,true_and]

end

theorem executeIdentity_string (s : String) :
    executeIdentity e (makeString s) = makeOkString (toStdString s) := rfl

theorem executeIdentity_bytes (b : List UInt8) :
    executeIdentity e (makeBytes b) =
      if isUint8Array e b then makeOkBytes b else makeOkString "\x7b\x7d" := by
  change encodeResult (Val.read e (.uint8Array b)) = _
  rw [Val.read]
  split
  · simp [encodeResult]
  · rfl

theorem executeIdentity_object {t : String} {v : Tree D} (h : e.parse t = some (.structured v)) :
    executeIdentity e (makeObjectJson t) = makeOkString (e.stringify v) := by
  have hclean := (toStdString_eq_iff _).mpr (e.escaped v)
  simp [executeIdentity,decodeArgs,makeObjectJson,h,Val.read,encodeResult,hclean]

/-- A string comes back exactly if it has no U+0000, bytes exactly if there are any or the
engine gives a pointer for none, and an object or array comes back as a text for it exactly
if it has no infinite number and no negative zero. -/
theorem round_trip_iff :
    (∀ s, executeIdentity e (makeString s) = makeOkString s ↔ '\x00' ∉ s.toList) ∧
    (∀ b, executeIdentity e (makeBytes b) = makeOkBytes b ↔ b ≠ [] ∨ e.emptyView = true) ∧
    ∀ t v, e.parse t = some (.structured v) → v.IsContainer →
      ((∃ r, executeIdentity e (makeObjectJson t) = makeOkString r ∧
        e.parse r = some (.structured v)) ↔ ∀ l ∈ v.leaves, l.Plain) := by
  refine ⟨?_,?_,?_⟩
  · intro s
    rw [executeIdentity_string,← toStdString_eq_iff]
    simp [makeOkString]
  · intro b
    have hview : isUint8Array e b = true ↔ b ≠ [] ∨ e.emptyView = true := by
      simp [isUint8Array]
    rw [executeIdentity_bytes,← hview]
    split
    · next h => simp [h]
    · next h => simp [h,makeOkString,makeOkBytes]
  · intro t v h hv
    have hback := e.parse_stringify t v h hv
    rw [← v.written_eq_iff,executeIdentity_object e h]
    constructor
    · rintro ⟨r,hr,hparse⟩
      obtain rfl : e.stringify v = r := congrArg Result.str hr
      exact Val.structured.inj (Option.some.inj (hback.symm.trans hparse))
    · intro hsame
      exact ⟨_,rfl,by rw [hback,hsame]⟩

/-- An engine that knows a few texts, one with numbers that JSON cannot render. -/
def sampleEngine : Engine ℤ where
  parse t :=
    if t = "\x7b\"a\":[true,7]\x7d" then
      some (.structured (.object [([97],.array [.leaf (.boolean true),.leaf (.number 7)])]))
    else if t = "[1e999,-0]" then
      some (.structured (.array [.leaf (.infinity false),.leaf .negativeZero]))
    else if t = "[null,0]" then some (.structured (.array [.leaf .null,.leaf (.number 0)]))
    else none
  stringify
    | .object _ => "\x7b\"a\":[true,7]\x7d"
    | _ => "[null,0]"
  emptyView := true
  parse_stringify t v h hv := by
    split at h
    · obtain rfl := Val.structured.inj (Option.some.inj h)
      rfl
    · split at h
      · obtain rfl := Val.structured.inj (Option.some.inj h)
        rfl
      · split at h
        · obtain rfl := Val.structured.inj (Option.some.inj h)
          rfl
        · cases h
  escaped v := by
    have htexts : '\x00' ∉ "\x7b\"a\":[true,7]\x7d".toList ∧ '\x00' ∉ "[null,0]".toList := by
      decide
    cases v with
    | object members => exact htexts.1
    | leaf l => exact htexts.2
    | array items => exact htexts.2

theorem round_trip_iff_sample :
    (∃ r, executeIdentity sampleEngine (makeObjectJson "\x7b\"a\":[true,7]\x7d") =
        makeOkString r ∧ sampleEngine.parse r =
        some (.structured (.object [([97],.array [.leaf (.boolean true),.leaf (.number 7)])]))) ∧
    ¬ ∃ r, executeIdentity sampleEngine (makeObjectJson "[1e999,-0]") = makeOkString r ∧
      sampleEngine.parse r =
        some (.structured (.array [.leaf (.infinity false),.leaf .negativeZero])) :=
  have hplain := (round_trip_iff sampleEngine).2.2 "\x7b\"a\":[true,7]\x7d"
    (.object [([97],.array [.leaf (.boolean true),.leaf (.number 7)])]) rfl trivial
  have hlossy := (round_trip_iff sampleEngine).2.2 "[1e999,-0]"
    (.array [.leaf (.infinity false),.leaf .negativeZero]) rfl trivial
  ⟨hplain.mpr (by simp [Tree.leaves,leavesItems,leavesMembers,Leaf.Plain]),
    hlossy.not.mpr (by simp [Tree.leaves,leavesItems,Leaf.Plain])⟩

/-- The submitted text ends at its U+0000 when it comes back. -/
theorem text_cut_at_nul :
    executeIdentity sampleEngine (makeString "a\x00b") = makeOkString "a" ∧
      ¬ ∀ s, executeIdentity sampleEngine (makeString s) = makeOkString s := by
  have hcut : executeIdentity sampleEngine (makeString "a\x00b") = makeOkString "a" := by decide
  refine ⟨hcut,fun hall => ?_⟩
  exact absurd (hcut.symm.trans (hall "a\x00b")) (by decide)

end JobWire
end AsioQuickjs
