import AsioQuickjs.Crypto

/-! The two error channels of a native function: what it throws in C++, and the exception that
is pending in the context. `trampoline` calls a function bound with `Value::fn`, `native_call`
one of the registry. -/
namespace AsioQuickjs
namespace Trampoline

/-- A thrown JavaScript value: an error that is made by a native, or any value. -/
inductive Exn (V : Type)
  | typeError (message : String) | internalError (message : String) | error (message : String)
  | value (v : V)

/-- `JS_EXCEPTION`, or a value. -/
inductive JSValue (V : Type)
  | exception
  | value (v : V)

/-- The C++ exceptions of natives. -/
inductive Thrown
  | convertError
  | runtimeError (what : String)

/-- The exception that is pending in a context. -/
abbrev Pending (V : Type) := Option (Exn V)

/-- C++ code in a context: it returns or throws, and leaves an exception pending or none. -/
abbrev Code (V α : Type) := Pending V → Except Thrown α × Pending V

variable {V F α β : Type}

namespace Code

def ret (x : α) : Code V α := fun p => (.ok x,p)

def bind (x : Code V α) (f : α → Code V β) : Code V β := fun p =>
  match x p with
  | (.ok a,p) => f a p
  | (.error t,p) => (.error t,p)

/-- Sets a JavaScript exception and throws `ConvertError`. -/
def raise (e : Exn V) : Code V α := fun _ => (.error .convertError,some e)

/-- Throws `ConvertError` if the engine, which then has thrown, has no answer. -/
def ask (answer : Except (Exn V) α) (f : α → Code V β) : Code V β :=
  match answer with
  | .ok a => f a
  | .error e => raise e

end Code

/-- An argument, with the answers of the engine to whatever it is asked about it. The pointer
to the bytes of an array is null if the engine throws, and may be if the array is empty. -/
structure Argument (V F : Type) where
  value : V
  isUndefined : Bool
  isNull : Bool
  isArrayBuffer : Bool
  getArrayBuffer : Except (Exn V) (Option Bytes)
  getUint8Array : Except (Exn V) (Option Bytes)
  toCString : Except (Exn V) Bytes
  toBool : Bool
  toFloat64 : Except (Exn V) F
  toInt32 : Except (Exn V) Int32
  toInt64 : Except (Exn V) Int64

def Argument.bytes (a : Argument V F) : Except (Exn V) (Option Bytes) :=
  if a.isArrayBuffer then a.getArrayBuffer else a.getUint8Array

/-- The `JsValueType`s. -/
inductive ValueType
  | value | string | span | vector | bool | floating | int32 | uint32 | int64

/-- The `JsArgType`s; `host` is an `OpaquePtr`. -/
inductive Param
  | ctx | this | args | host
  | optional (t : ValueType)
  | plain (t : ValueType)

/-- What a C++ function is called with. -/
inductive Arg (V F : Type)
  | ctx | host | nullopt
  | this (v : V)
  | args (vs : List V)
  | value (v : V)
  | string (s : Bytes)
  | bytes (b : Bytes)
  | bool (b : Bool)
  | floating (x : F)
  | int32 (n : Int32)
  | uint32 (n : UInt32)
  | int64 (n : Int64)

/-- The test of the conversion to `uint32_t`. -/
def outsideUInt32 (n : Int64) : Bool := n < 0 || 4294967295 < n

def fromJs (a : Argument V F) : ValueType → Code V (Arg V F)
  | .value => .ret (.value a.value)
  | .string => .ask a.toCString fun s => .ret (.string (cStr s))
  | .span =>
    match a.bytes with
    | .ok (some b) => .ret (.bytes b)
    | _ => .raise (.typeError "expected ArrayBuffer or Uint8Array")
  | .vector => fun p =>
    -- what the engine throws where there are no bytes stays pending
    match a.bytes with
    | .ok (some b) => (.ok (.bytes b),p)
    | .ok none => readText p
    | .error e => readText (some e)
  | .bool => .ret (.bool a.toBool)
  | .floating => .ask a.toFloat64 fun x => .ret (.floating x)
  | .int32 => .ask a.toInt32 fun n => .ret (.int32 n)
  | .uint32 => .ask a.toInt64 fun n p =>
    if outsideUInt32 n then (.error .convertError,p) else (.ok (.uint32 n.toUInt64.toUInt32),p)
  | .int64 => .ask a.toInt64 fun n => .ret (.int64 n)
where
  readText (p : Pending V) : Except Thrown (Arg V F) × Pending V :=
    match a.toCString with
    | .ok s => (.ok (.bytes (cStr s)),p)
    | .error _ =>
      (.error .convertError,some (.typeError "expected ArrayBuffer, Uint8Array, or string"))

def fromJsOptional (a : Argument V F) (t : ValueType) : Code V (Arg V F) :=
  if a.isUndefined || a.isNull then .ret .nullopt else fromJs a t

/-- What a call brings: the pointer of the context, `this` and `argv`. -/
structure Call (V F : Type) where
  host : Bool
  this : V
  argv : List (Argument V F)

/-- `pull_arg`; the arguments that are left stand for `index`. -/
def pullArg (c : Call V F) (p : Param) (as : List (Argument V F)) :
    Code V (Arg V F × List (Argument V F)) :=
  match p with
  | .ctx => .ret (.ctx,as)
  | .this => .ret (.this c.this,as)
  | .args => .ret (.args (as.map Argument.value),[])
  | .host => if c.host then .ret (.host,as) else .raise (.internalError "context opaque is null")
  | .optional t =>
    match as with
    | [] => .ret (.nullopt,[])
    | a::as => (fromJsOptional a t).bind fun x => .ret (x,as)
  | .plain t =>
    match as with
    | [] => .raise (.typeError "not enough arguments")
    | a::as => (fromJs a t).bind fun x => .ret (x,as)

def pullArgs (c : Call V F) : List Param → List (Argument V F) → Code V (List (Arg V F))
  | [], _ => .ret []
  | p::ps, as => (pullArg c p as).bind fun (x,as) => (pullArgs c ps as).bind fun xs => .ret (x::xs)

/-- The `JsReturnType`s. -/
inductive Return (V F : Type)
  | void
  | value (v : JSValue V)
  | string (s : Bytes)
  | bool (b : Bool)
  | floating (x : F)
  | int32 (n : Int32)
  | uint32 (n : UInt32)
  | int64 (n : Int64)
  | bytes (b : Bytes)

/-- How the engine makes values, and the message of one. -/
structure Engine (V F : Type) where
  undefined : V
  newStringLen : Bytes → Except (Exn V) V
  newBool : Bool → V
  newFloat64 : F → V
  newInt32 : Int32 → V
  newInt64 : Int64 → V
  newBigInt64 : Int64 → Except (Exn V) V
  newUint8Array : Bytes → Except (Exn V) V
  message : V → Option String

variable (E : Engine V F)

def Engine.carries (m : String) : Exn V → Bool
  | .typeError s | .internalError s | .error s => s = m
  | .value v => E.message v = some m

/-- `to_js`, or what the engine throws in it. -/
def toJs : Return V F → Except (Exn V) (JSValue V)
  | .void => .ok (.value E.undefined)
  | .value v => .ok v
  | .string s => (E.newStringLen s).map .value
  | .bool b => .ok (.value (E.newBool b))
  | .floating x => .ok (.value (E.newFloat64 x))
  | .int32 n => .ok (.value (E.newInt32 n))
  | .uint32 n => .ok (.value (E.newInt64 n.toUInt64.toInt64))
  | .int64 n => (E.newBigInt64 n).map .value
  | .bytes b => (E.newUint8Array b).map .value

/-- A C++ function with its parameters. -/
structure Native (V F : Type) where
  params : List Param
  body : List (Arg V F) → Code V (Return V F)

def invokeImpl (f : Native V F) (c : Call V F) : Code V (JSValue V) :=
  (pullArgs c f.params c.argv).bind fun xs =>
    (f.body xs).bind fun r p =>
      match toJs E r with
      | .ok v => (.ok v,p)
      | .error e => (.ok .exception,some e)

def trampoline (f : Native V F) (c : Call V F) : JSValue V × Pending V :=
  match invokeImpl E f c none with
  | (.ok v,p) => (v,p)
  | (.error .convertError,p) => (.exception,p)
  | (.error (.runtimeError _),p) => (.exception,p)

def outcome : Except Thrown (Return V F) → JSValue V
  | .ok r =>
    match toJs E r with
    | .ok v => v
    | .error _ => .exception
  | .error _ => .exception

theorem trampoline_of_body {f : Native V F} {c : Call V F} {xs : List (Arg V F)}
    {p : Pending V} (h : pullArgs c f.params c.argv none = (.ok xs,p)) :
    (trampoline E f c).1 = outcome E (f.body xs p).1 := by
  rw [trampoline,invokeImpl,Code.bind,h]
  simp only [Code.bind]
  cases f.body xs p with
  | mk r q =>
    cases r with
    | ok r => cases hr : toJs E r <;> simp [outcome,hr]
    | error t => cases t <;> rfl

/-- A registered function returns a `qjs::Value`. -/
abbrev SyncFunction (V : Type) := List V → Code V (JSValue V)

/-- The rest of `native_call` for a name that is registered as an asynchronous function: the
promise, or none if there is no capability. -/
abbrev AsyncFunction (V : Type) := List V → Pending V → JSValue V × Pending V

structure Registry (V : Type) where
  findSyncFunction : Bytes → Option (SyncFunction V)
  findAsyncFunction : Bytes → Option (AsyncFunction V)
  print : Bytes → String

/-- `native_call`. -/
def nativeCall (r : Registry V) (name : Bytes) (vs : List V) : Pending V → JSValue V × Pending V :=
  fun p =>
    match r.findSyncFunction name with
    | some f =>
      match f vs p with
      | (.ok v,p) => (v,p)
      | (.error .convertError,p) => (.exception,p)
      | (.error (.runtimeError what),_) => (.exception,some (.error what))
    | none =>
      match r.findAsyncFunction name with
      | some f => f vs p
      | none => (.exception,some (.typeError ("call: function not registered: "++r.print name)))

/-- What `call` is bound to. -/
def callFn (r : Registry V) : Native V F where
  params := [.host,.plain .string,.args]
  body
    | [.host,.string name,.args vs] => fun p =>
      let (v,p) := nativeCall r name vs p
      (.ok (.value v),p)
    | _ => .ret .void

section aes

-- AES on one block, under each key.
variable (aes : Bytes → Equiv.Perm (BlockMode.Block 16))

/-- The functions of crypto.cpp throw without setting an exception. -/
def throwing (r : Except String Bytes) : Code V (Return V F) := fun p =>
  match r with
  | .ok b => (.ok (.bytes b),p)
  | .error what => (.error (.runtimeError what),p)

def aesEcbFn (f : Bytes → Bytes → Except String Bytes) : Native V F where
  params := [.plain .span,.plain .span]
  body
    | [.bytes input,.bytes key] => throwing (f input key)
    | _ => .ret .void

def aesCbcFn (f : Bytes → Bytes → Bytes → Except String Bytes) : Native V F where
  params := [.plain .span,.plain .span,.plain .span]
  body
    | [.bytes input,.bytes key,.bytes iv] => throwing (f input key iv)
    | _ => .ret .void

def aesEcbEncryptFn : Native V F := aesEcbFn (Crypto.aesEcbEncrypt aes)

def aesEcbDecryptFn : Native V F := aesEcbFn (Crypto.aesEcbDecrypt aes)

def aesCbcEncryptFn : Native V F := aesCbcFn (Crypto.aesCbcEncrypt aes)

def aesCbcDecryptFn : Native V F := aesCbcFn (Crypto.aesCbcDecrypt aes)

end aes

/-- The exception that a `std::vector<uint8_t>` leaves pending though it gets its bytes, from
the text of a value that is no array. -/
def refusal (a : Argument V F) : ValueType → Option (Exn V)
  | .vector =>
    match a.bytes,a.toCString with
    | .error e,.ok _ => some e
    | _,_ => none
  | _ => none

/-- A `uint32_t` gets a number that is none. -/
def outOfRange (a : Argument V F) : ValueType → Bool
  | .uint32 =>
    match a.toInt64 with
    | .ok n => outsideUInt32 n
    | .error _ => false
  | _ => false

/-- The code returns, and leaves `left` pending if there is such, or it throws `ConvertError`,
with an exception of its own pending unless it is `silent`. -/
structure Converts (x : Code V α) (left : Option (Exn V)) (silent : Bool) : Prop where
  cases : (∃ v, silent = false ∧ ∀ p, x p = (.ok v,left.or p)) ∨
    (left = none ∧ silent = true ∧ ∀ p, x p = (.error .convertError,p)) ∨
    ∃ e, left = none ∧ silent = false ∧ ∀ p, x p = (.error .convertError,some e)

theorem converts_ret (v : α) : Converts (Code.ret v : Code V α) none false :=
  ⟨.inl ⟨v,rfl,fun _ => rfl⟩⟩

theorem converts_raise (e : Exn V) : Converts (Code.raise e : Code V α) none false :=
  ⟨.inr (.inr ⟨e,rfl,rfl,fun _ => rfl⟩)⟩

theorem converts_ask (r : Except (Exn V) α) (f : α → β) :
    Converts (Code.ask r fun x => .ret (f x)) none false := by
  cases r with
  | ok x => exact converts_ret (f x)
  | error e => exact converts_raise e

theorem converts_fromJs (a : Argument V F) (t : ValueType) :
    Converts (fromJs a t) (refusal a t) (outOfRange a t) := by
  cases t with
  | value => exact converts_ret _
  | bool => exact converts_ret _
  | string => exact converts_ask a.toCString _
  | floating => exact converts_ask a.toFloat64 _
  | int32 => exact converts_ask a.toInt32 _
  | int64 => exact converts_ask a.toInt64 _
  | span =>
    simp only [fromJs]
    split
    · exact converts_ret _
    · exact converts_raise _
  | uint32 =>
    cases hn : a.toInt64 with
    | error e => exact ⟨.inr (.inr ⟨e,rfl,by simp [outOfRange,hn],fun p => by
          simp [fromJs,Code.ask,Code.raise,hn]⟩)⟩
    | ok n =>
      cases ho : outsideUInt32 n with
      | true => exact ⟨.inr (.inl ⟨rfl,by simp [outOfRange,hn,ho],fun p => by
          simp [fromJs,Code.ask,hn,ho]⟩)⟩
      | false => exact ⟨.inl ⟨.uint32 n.toUInt64.toUInt32,by simp [outOfRange,hn,ho],fun p => by
          simp [fromJs,Code.ask,hn,ho,refusal]⟩⟩
  | vector =>
    cases hs : a.toCString with
    | ok s =>
      rcases hb : a.bytes with e | _ | b
      · exact ⟨.inl ⟨.bytes (cStr s),rfl,fun p => by
          simp [fromJs,fromJs.readText,hb,hs,refusal]⟩⟩
      · exact ⟨.inl ⟨.bytes (cStr s),rfl,fun p => by
          simp [fromJs,fromJs.readText,hb,hs,refusal]⟩⟩
      · exact ⟨.inl ⟨.bytes b,rfl,fun p => by simp [fromJs,hb,refusal]⟩⟩
    | error e' =>
      rcases hb : a.bytes with e | _ | b
      · exact ⟨.inr (.inr ⟨_,by simp [refusal,hb,hs],rfl,fun p => by
          simp [fromJs,fromJs.readText,hb,hs]; rfl⟩)⟩
      · exact ⟨.inr (.inr ⟨_,by simp [refusal,hb],rfl,fun p => by
          simp [fromJs,fromJs.readText,hb,hs]; rfl⟩)⟩
      · exact ⟨.inl ⟨.bytes b,rfl,fun p => by simp [fromJs,hb,refusal]⟩⟩

/-- A parameter, and the arguments that are left when it is its turn. -/
structure Turn (V F : Type) where
  param : Param
  argv : List (Argument V F)

namespace Turn

def rest (t : Turn V F) : List (Argument V F) :=
  match t.param with
  | .args => []
  | .optional _ | .plain _ => t.argv.tail
  | _ => t.argv

def source (t : Turn V F) : Option (Argument V F × ValueType) :=
  match t.param,t.argv with
  | .plain v, a::_ => some (a,v)
  | .optional v, a::_ => if a.isUndefined || a.isNull then none else some (a,v)
  | _, _ => none

def refusal (t : Turn V F) : Option (Exn V) := t.source.bind fun (a,v) => Trampoline.refusal a v

def outOfRange (t : Turn V F) : Bool := t.source.any fun (a,v) => Trampoline.outOfRange a v

def value (c : Call V F) (t : Turn V F) : Option (Arg V F) :=
  match (pullArg c t.param t.argv none).1 with
  | .ok (x,_) => some x
  | .error _ => none

def fails (c : Call V F) (t : Turn V F) : Bool := (t.value c).isNone

end Turn

def turns : List Param → List (Argument V F) → List (Turn V F)
  | [], _ => []
  | p::ps, as => ⟨p,as⟩::turns ps (Turn.rest ⟨p,as⟩)

/-- The exception that is pending after the turns, none of which fails. -/
def leaves (ts : List (Turn V F)) (p : Pending V) : Pending V :=
  ts.foldl (fun p t => t.refusal.or p) p

theorem Converts.bind_ret {x : Code V α} {left : Option (Exn V)} {silent : Bool}
    (h : Converts x left silent) (f : α → β) :
    Converts (x.bind fun a => .ret (f a)) left silent := by
  rcases h.cases with ⟨v,hs,hx⟩ | ⟨hl,hs,hx⟩ | ⟨e,hl,hs,hx⟩
  · exact ⟨.inl ⟨f v,hs,fun p => by simp [Code.bind,Code.ret,hx]⟩⟩
  · exact ⟨.inr (.inl ⟨hl,hs,fun p => by simp [Code.bind,hx]⟩)⟩
  · exact ⟨.inr (.inr ⟨e,hl,hs,fun p => by simp [Code.bind,hx]⟩)⟩

theorem converts_pullArg (c : Call V F) (t : Turn V F) :
    Converts (pullArg c t.param t.argv) t.refusal t.outOfRange := by
  obtain ⟨p,as⟩ := t
  cases p with
  | ctx => exact converts_ret _
  | this => exact converts_ret _
  | args => exact converts_ret _
  | host =>
    simp only [pullArg]
    split
    · exact converts_ret _
    · exact converts_raise _
  | plain v =>
    cases as with
    | nil => exact converts_raise _
    | cons a as =>
      simpa [pullArg,Turn.refusal,Turn.outOfRange,Turn.source] using (converts_fromJs a v).bind_ret _
  | optional v =>
    cases as with
    | nil => exact converts_ret _
    | cons a as =>
      have hconverts : Converts (fromJsOptional a v) (Turn.refusal ⟨.optional v,a::as⟩)
          (Turn.outOfRange ⟨.optional v,a::as⟩) := by
        by_cases hnull : a.isUndefined || a.isNull
        · simpa [fromJsOptional,Turn.refusal,Turn.outOfRange,Turn.source,hnull] using converts_ret _
        · simpa [fromJsOptional,Turn.refusal,Turn.outOfRange,Turn.source,hnull] using
            converts_fromJs a v
      exact hconverts.bind_ret _

theorem pullArg_rest {c : Call V F} {t : Turn V F} {p q : Pending V} {x : Arg V F}
    {as : List (Argument V F)} (h : pullArg c t.param t.argv p = (.ok (x,as),q)) : as = t.rest := by
  obtain ⟨param,argv⟩ := t
  have hbind : ∀ {y : Code V (Arg V F)} {bs : List (Argument V F)},
      (y.bind fun x => .ret (x,bs)) p = (.ok (x,as),q) → as = bs := by
    intro y bs hy
    simp only [Code.bind,Code.ret] at hy
    split at hy
    · simp only [Prod.mk.injEq,Except.ok.injEq] at hy
      exact hy.1.2.symm
    · simp at hy
  cases param with
  | host =>
    simp only [pullArg] at h
    split at h
    · simp only [Code.ret,Prod.mk.injEq,Except.ok.injEq] at h
      exact h.1.2.symm
    · simp [Code.raise] at h
  | plain v =>
    cases argv with
    | nil => simp [pullArg,Code.raise] at h
    | cons a as => exact hbind h
  | optional v =>
    cases argv with
    | nil =>
      simp only [pullArg,Code.ret,Prod.mk.injEq,Except.ok.injEq] at h
      exact h.1.2.symm
    | cons a as => exact hbind h
  | _ =>
    simp only [pullArg,Code.ret,Prod.mk.injEq,Except.ok.injEq] at h
    exact h.1.2.symm

theorem pullArg_of_value {c : Call V F} {t : Turn V F} {x : Arg V F} (h : t.value c = some x)
    (p : Pending V) : pullArg c t.param t.argv p = (.ok (x,t.rest),t.refusal.or p) := by
  rcases (converts_pullArg c t).cases with ⟨⟨y,as⟩,-,hpull⟩ | ⟨-,-,hpull⟩ | ⟨e,-,-,hpull⟩
  · obtain rfl : y = x := by simpa [Turn.value,hpull] using h
    rw [hpull,pullArg_rest (hpull p)]
  · simp [Turn.value,hpull] at h
  · simp [Turn.value,hpull] at h

theorem pullArg_of_fails {c : Call V F} {t : Turn V F} (h : t.fails c = true) (p : Pending V) :
    ∃ q, pullArg c t.param t.argv p = (.error .convertError,q) ∧
      (q.isSome ↔ t.outOfRange = false ∨ p.isSome) := by
  rcases (converts_pullArg c t).cases with ⟨v,-,hpull⟩ | ⟨-,hs,hpull⟩ | ⟨e,-,hs,hpull⟩
  · simp [Turn.fails,Turn.value,hpull] at h
  · exact ⟨p,hpull p,by simp [hs]⟩
  · exact ⟨some e,hpull p,by simp [hs]⟩

theorem value_of_not_fails {c : Call V F} {t : Turn V F} (h : t.fails c = false) :
    ∃ x, t.value c = some x := by
  simpa [Turn.fails,Option.isSome_iff_exists] using h

theorem leaves_isSome (ts : List (Turn V F)) (p : Pending V) :
    (leaves ts p).isSome ↔ p.isSome ∨ ∃ t ∈ ts, t.refusal.isSome := by
  induction ts generalizing p with
  | nil => simp [leaves]
  | cons t ts ih =>
    have hcons : leaves (t::ts) p = leaves ts (t.refusal.or p) := rfl
    rw [hcons,ih,List.exists_mem_cons_iff]
    cases t.refusal <;> simp

theorem pullArgs_of_all (c : Call V F) {ps : List Param} {as : List (Argument V F)}
    (h : (turns ps as).find? (Turn.fails c) = none) (p : Pending V) :
    pullArgs c ps as p =
      (.ok ((turns ps as).filterMap (Turn.value c)),leaves (turns ps as) p) := by
  induction ps generalizing as p with
  | nil => rfl
  | cons param ps ih =>
    simp only [turns,List.find?_cons] at h
    split at h
    · cases h
    · next hfirst =>
      obtain ⟨x,hx⟩ := value_of_not_fails hfirst
      have hpull := pullArg_of_value hx p
      dsimp only at hpull
      simp [pullArgs,Code.bind,hpull,ih h,turns,hx,leaves,Code.ret]

theorem pullArgs_of_first (c : Call V F) {ps : List Param} {as : List (Argument V F)}
    {t : Turn V F} (h : (turns ps as).find? (Turn.fails c) = some t) (p : Pending V) :
    ∃ q, pullArgs c ps as p = (.error .convertError,q) ∧
      (q.isSome ↔ t.outOfRange = false ∨
        (leaves ((turns ps as).takeWhile fun s => !s.fails c) p).isSome) := by
  induction ps generalizing as p with
  | nil => simp [turns] at h
  | cons param ps ih =>
    simp only [turns,List.find?_cons] at h
    split at h
    · next hfirst =>
      obtain rfl := Option.some.inj h
      obtain ⟨q,hpull,hq⟩ := pullArg_of_fails hfirst p
      refine ⟨q,?_,?_⟩
      · dsimp only at hpull
        simp [pullArgs,Code.bind,hpull]
      · simpa [turns,hfirst,leaves] using hq
    · next hfirst =>
      obtain ⟨x,hx⟩ := value_of_not_fails hfirst
      have hpull := pullArg_of_value hx p
      dsimp only at hpull
      obtain ⟨q,hrest,hq⟩ := ih h (Turn.refusal ⟨param,as⟩ |>.or p)
      refine ⟨q,?_,?_⟩
      · simp [pullArgs,Code.bind,hpull,hrest]
      · simpa [turns,hfirst,leaves] using hq

/-- `JS_EXCEPTION` comes with a pending exception and with nothing else, and what the function
throws as a `std::runtime_error` is the message of the exception. -/
def Transparent (f : Native V F) (c : Call V F) : Prop :=
  ((trampoline E f c).1 = .exception ↔ (trampoline E f c).2.isSome) ∧
  ∀ what p, invokeImpl E f c none = (.error (.runtimeError what),p) →
    ∃ e ∈ (trampoline E f c).2, E.carries what e

/-- What a function does is fit for `trampoline`: what it returns is `JS_EXCEPTION` exactly if it
leaves an exception pending, and it throws with one pending, which has the message. -/
def Fits : Except Thrown (Return V F) × Pending V → Prop
  | (.ok r,p) =>
    match toJs E r with
    | .ok .exception => p.isSome
    | .ok (.value _) => p = none
    | .error _ => True
  | (.error .convertError,p) => p.isSome
  | (.error (.runtimeError what),p) => ∃ e ∈ p, E.carries what e

/-- The first conversion that fails does so with an exception, or one is pending already, left by
a `std::vector<uint8_t>` parameter; if all succeed the function is called, with what they have
left pending, and what it does fits. -/
def Proper (f : Native V F) (c : Call V F) : Prop :=
  match (turns f.params c.argv).find? (Turn.fails c) with
  | some t => t.outOfRange = false ∨
      ∃ s ∈ (turns f.params c.argv).takeWhile fun s => !s.fails c, s.refusal.isSome
  | none => Fits E (f.body ((turns f.params c.argv).filterMap (Turn.value c))
      (leaves (turns f.params c.argv) none))

theorem transparent_of_first {f : Native V F} {c : Call V F} {t : Turn V F}
    (h : (turns f.params c.argv).find? (Turn.fails c) = some t) :
    Transparent E f c ↔ t.outOfRange = false ∨
      ∃ s ∈ (turns f.params c.argv).takeWhile fun s => !s.fails c, s.refusal.isSome := by
  obtain ⟨q,hpull,hq⟩ := pullArgs_of_first c h none
  have hinvoke : invokeImpl E f c none = (.error .convertError,q) := by
    simp [invokeImpl,Code.bind,hpull]
  rw [leaves_isSome] at hq
  simpa [Transparent,trampoline,hinvoke] using hq

theorem transparent_of_all {f : Native V F} {c : Call V F}
    (h : (turns f.params c.argv).find? (Turn.fails c) = none) :
    Transparent E f c ↔ Fits E (f.body ((turns f.params c.argv).filterMap (Turn.value c))
      (leaves (turns f.params c.argv) none)) := by
  have hpull := pullArgs_of_all c h none
  simp only [Transparent,trampoline,invokeImpl,Code.bind,hpull]
  generalize f.body _ _ = out
  rcases out with ⟨(_ | what) | r,p⟩
  · simp [Fits]
  · cases p <;> simp [Fits]
  · simp only [Fits]
    rcases toJs E r with e | _ | v <;> simp

/-- The channels agree in a call exactly if no conversion fails for a number outside the range of
`uint32_t` with nothing pending, and what the function does fits. -/
theorem transparent_iff (f : Native V F) (c : Call V F) : Transparent E f c ↔ Proper E f c := by
  unfold Proper
  split
  · next t h => exact transparent_of_first E h
  · next h => exact transparent_of_all E h

def sampleEngine : Engine Unit Unit where
  undefined := ()
  newStringLen _ := .ok ()
  newBool _ := ()
  newFloat64 _ := ()
  newInt32 _ := ()
  newInt64 _ := ()
  newBigInt64 _ := .ok ()
  newUint8Array _ := .ok ()
  message _ := none

/-- A `Uint8Array`. -/
def sampleArray (b : Bytes) : Argument Unit Unit where
  value := ()
  isUndefined := false
  isNull := false
  isArrayBuffer := false
  getArrayBuffer := .error (.typeError "not an ArrayBuffer")
  getUint8Array := .ok (some b)
  toCString := .ok (ascii "0")
  toBool := true
  toFloat64 := .ok ()
  toInt32 := .ok 0
  toInt64 := .ok 0

/-- A key of one byte: the call fails, and there is no exception. -/
theorem key_length_is_lost :
    ¬ Transparent sampleEngine (aesEcbEncryptFn fun _ => Equiv.refl _)
      ⟨true,(),[sampleArray [],sampleArray [0]]⟩ := by
  intro h
  have hpending := h.1.mp rfl
  exact absurd hpending (by decide)

theorem nativeCall_runtimeError {r : Registry V} {name : Bytes} {f : SyncFunction V} {vs : List V}
    {p q : Pending V} {what : String} (hf : r.findSyncFunction name = some f)
    (h : f vs p = (.error (.runtimeError what),q)) :
    nativeCall r name vs p = (.exception,some (.error what)) := by
  simp [nativeCall,hf,h]

/-- A registered function returns `JS_EXCEPTION` exactly if it leaves an exception pending, and
throws `ConvertError` with one pending only. -/
structure Registry.Sound (r : Registry V) : Prop where
  returns : ∀ name f vs v q, r.findSyncFunction name = some f → f vs none = (.ok v,q) →
    (v = .exception ↔ q.isSome)
  converts : ∀ name f vs q, r.findSyncFunction name = some f →
    f vs none = (.error .convertError,q) → q.isSome
  promises : ∀ name f vs, r.findAsyncFunction name = some f →
    ((f vs none).1 = .exception ↔ (f vs none).2.isSome)

theorem nativeCall_sound {r : Registry V} (hr : r.Sound) (name : Bytes) (vs : List V) :
    (nativeCall r name vs none).1 = .exception ↔ (nativeCall r name vs none).2.isSome := by
  unfold nativeCall
  split
  · next f hf =>
    split
    · next v q h => exact hr.returns name f vs v q hf h
    · next q h => exact iff_of_true rfl (hr.converts name f vs q hf h)
    · exact iff_of_true rfl rfl
  · split
    · next f hf => exact hr.promises name f vs hf
    · exact iff_of_true rfl rfl

theorem callFn_transparent {r : Registry V} (hr : r.Sound) (c : Call V F) :
    Transparent E (callFn r) c := by
  have hstill : ∀ t ∈ turns (callFn r : Native V F).params c.argv,
      t.refusal = none ∧ t.outOfRange = false := by
    intro t ht
    simp only [turns,callFn,List.mem_cons,List.not_mem_nil,or_false] at ht
    rcases ht with rfl | rfl | rfl
    · exact ⟨rfl,rfl⟩
    · cases c.argv <;> exact ⟨rfl,rfl⟩
    · exact ⟨rfl,rfl⟩
  cases hfind : (turns (callFn r).params c.argv).find? (Turn.fails c) with
  | some t =>
    exact (transparent_of_first E hfind).mpr (.inl (hstill t (List.mem_of_find?_eq_some hfind)).2)
  | none =>
    have hnone : leaves (turns (callFn r : Native V F).params c.argv) none = none := by
      rw [← Option.not_isSome_iff_eq_none,leaves_isSome]
      rintro (hsome | ⟨t,ht,hsome⟩)
      · cases hsome
      · rw [(hstill t ht).1] at hsome
        cases hsome
    rw [transparent_of_all E hfind,hnone]
    generalize List.filterMap (Turn.value c) _ = xs
    dsimp only [callFn]
    split
    · next name vs =>
      have hsound := nativeCall_sound hr name vs
      generalize nativeCall r name vs none = out at hsound
      obtain ⟨v,q⟩ := out
      cases v <;> simpa [Fits,toJs] using hsound
    · rfl

end Trampoline
end AsioQuickjs
