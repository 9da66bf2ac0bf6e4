import AsioQuickjs.FileContents

/-! The three ways in which a script reads a file: at once, with a callback, and by a promise.
The first two take an encoding, the third only the path. -/
namespace AsioQuickjs
namespace ReadVariants

open Trampoline FileContents

variable {S V F T : Type}

/-- What else the engine makes: a copy of bytes as an `ArrayBuffer`, an `Error` with a message,
and the capability of a promise or none. -/
structure Maker (V : Type) where
  newArrayBufferCopy : Bytes → Except (Exn V) V
  newError : Bytes → V
  newPromiseCapability : Bool

section natives

variable (E : Engine V F) (M : Maker V) (fs : FileSystem S) (referenceError : V)

def callbackParams : List Param := [.host,.plain .string,.optional .string,.plain .value]

/-- What `native_read_file` posts to the threads for files. -/
structure ReadJob (V : Type) where
  path : Bytes
  encStr : Bytes
  callback : V

/-- `encoding.value_or("")`. -/
def valueOr : Arg V F → Bytes
  | .string encoding => encoding
  | _ => []

def ReadJob.ofArgs : List (Arg V F) → Option (ReadJob V)
  | [.host,.string path,encoding,.value callback] => some ⟨path,valueOr encoding,callback⟩
  | _ => none

def nativeReadFile : Native V F where
  params := callbackParams
  body _ := .ret (.value (.value E.undefined))

def posted (c : Call V F) : Option (ReadJob V) :=
  match (pullArgs c callbackParams c.argv none).1 with
  | .ok xs => ReadJob.ofArgs xs
  | .error _ => none

/-- The error, unless it is undefined, and the data that the callback is called with. -/
def ReadJob.complete (job : ReadJob V) (data : Bytes) : Option V × JSValue V :=
  if data = [] then (some (M.newError (cStr job.path)),.value E.undefined)
  else if job.encStr = ascii "utf8" ∨ job.encStr = ascii "utf-8" then
    (none,made (E.newStringLen (cStr data)))
  else (none,made (M.newArrayBufferCopy data))

def promiseParams : List Param := [.host,.plain .string]

inductive Settlement (V : Type)
  | resolved (v : JSValue V)
  | rejected (v : V)

/-- The settlement of the promise, or none where there is no promise. -/
def nativePromisesReadFile (s : S) : List (Arg V F) → Code V (Option (Settlement V))
  | [.host,.string path] => fun p =>
    if M.newPromiseCapability then
      match (nativeReadFileSync E fs referenceError s).body [.host,.string path,.nullopt] p with
      | (.ok (.value v),p) => (.ok (some (.resolved v)),p)
      | (.ok _,p) => (.ok none,p)
      | (.error (.runtimeError what),p) => (.ok (some (.rejected (M.newError (ascii what)))),p)
      | (.error .convertError,p) => (.error .convertError,p)
    else (.ok none,p)
  | _ => .ret none

/-- A string, the bytes of an array or of an `ArrayBuffer`, or a failure. -/
inductive Delivered (T : Type)
  | failure
  | text (t : T)
  | bytes (b : Bytes)
  deriving DecidableEq

variable (this : V) (view : V → Delivered T)

def Delivered.ofJs : JSValue V → Delivered T
  | .exception => .failure
  | .value v => view v

def Delivered.told : Option V × JSValue V → Delivered T
  | (some _,_) => .failure
  | (none,v) => .ofJs view v

def bySync (s : S) (argv : List (Argument V F)) : Delivered T :=
  .ofJs view (readResult E fs referenceError this s argv)

def byCallback (s : S) (argv : List (Argument V F)) : Delivered T :=
  match posted ⟨true,this,argv⟩ with
  | none => .failure
  | some job => .told view (job.complete E M (fs.readFileSync s job.path))

def byPromise (s : S) (argv : List (Argument V F)) : Delivered T :=
  match ((pullArgs ⟨true,this,argv⟩ promiseParams argv).bind
      (nativePromisesReadFile E M fs referenceError s) none).1 with
  | .ok (some (.resolved v)) => .ofJs view v
  | _ => .failure

end natives

/-- How a script gives the encoding: not at all, as undefined or null, or by name. -/
inductive Encoding (V F : Type)
  | leftOut
  | undefined (a : Argument V F)
  | named (a : Argument V F)

namespace Encoding

def argv : Encoding V F → List (Argument V F)
  | .leftOut => []
  | .undefined a => [a]
  | .named a => [a]

def Valid : Encoding V F → Prop
  | .leftOut => True
  | .undefined a => (a.isUndefined || a.isNull) = true
  | .named a => NamesUtf8 a

def isUndefined : Encoding V F → Bool
  | .undefined _ => true
  | _ => false

def isNamed : Encoding V F → Bool
  | .named _ => true
  | _ => false

end Encoding

section agreement

variable {E : Engine V F} {M : Maker V} {fs : FileSystem S} {referenceError this : V}
variable {view : V → Delivered T} {decode : Bytes → T}
variable {s : S} {path callback : Argument V F} {encoding : Encoding V F} {p : Bytes}

/-- The engine makes what it is asked for, and the script sees what that is; of bytes it makes
the same text each time. -/
structure Sees (E : Engine V F) (M : Maker V) (view : V → Delivered T) (decode : Bytes → T) :
    Prop where
  newStringLen : ∀ b, ∃ v, E.newStringLen b = .ok v ∧ view v = .text (decode b)
  newUint8Array : ∀ b, ∃ v, E.newUint8Array b = .ok v ∧ view v = .bytes b
  newArrayBufferCopy : ∀ b, ∃ v, M.newArrayBufferCopy b = .ok v ∧ view v = .bytes b
  newPromiseCapability : M.newPromiseCapability = true

theorem ofJs_newStringLen (h : Sees E M view decode) (b : Bytes) :
    Delivered.ofJs view (made (E.newStringLen b)) = .text (decode b) := by
  obtain ⟨v,hv,hview⟩ := h.newStringLen b
  rw [hv]
  exact hview

theorem ofJs_newUint8Array (h : Sees E M view decode) (b : Bytes) :
    Delivered.ofJs view (made (E.newUint8Array b)) = .bytes b := by
  obtain ⟨v,hv,hview⟩ := h.newUint8Array b
  rw [hv]
  exact hview

theorem ofJs_newArrayBufferCopy (h : Sees E M view decode) (b : Bytes) :
    Delivered.ofJs view (made (M.newArrayBufferCopy b)) = .bytes b := by
  obtain ⟨v,hv,hview⟩ := h.newArrayBufferCopy b
  rw [hv]
  exact hview

theorem bySync_eq (h : Sees E M view decode) (hpath : path.toCString = .ok p)
    (hvalid : encoding.Valid) :
    bySync E fs referenceError this view s (path::encoding.argv) =
      if fs.readFileSync s (cStr p) = [] then .failure
      else if encoding.isNamed then .text (decode (fs.readFileSync s (cStr p)))
      else .bytes (fs.readFileSync s (cStr p)) := by
  have hbytes (a : List (Argument V F))
      (hargs : pullArgs ⟨true,this,path::a⟩ readParams (path::a) none =
        (.ok [.host,.string (cStr p),.nullopt],none)) :
      bySync E fs referenceError this view s (path::a) =
        if fs.readFileSync s (cStr p) = [] then .failure
        else .bytes (fs.readFileSync s (cStr p)) := by
    rw [bySync,readResult_eq hargs]
    split
    · rfl
    · exact ofJs_newUint8Array h _
  cases encoding with
  | leftOut =>
    exact hbytes [] (by
      simp [pullArgs,pullArg,readParams,Code.bind,Code.ret,fromJs,Code.ask,hpath])
  | undefined a =>
    refine hbytes [a] ?_
    have hnull : fromJsOptional a .string = .ret .nullopt := if_pos hvalid
    simp [pullArgs,pullArg,readParams,Code.bind,Code.ret,fromJs,Code.ask,hpath,hnull]
  | named a =>
    rw [bySync,Encoding.argv,readResult_text hpath hvalid]
    split
    · rfl
    · exact ofJs_newStringLen h _

theorem bind_returns {α β : Type} {x : Code V α} {f : α → Code V β} {b : β} {q r : Pending V}
    (h : x.bind f q = (.ok b,r)) : ∃ a q', x q = (.ok a,q') ∧ f a q' = (.ok b,r) := by
  rw [Code.bind] at h
  cases hx : x q with
  | mk y q' =>
    rw [hx] at h
    cases y with
    | ok a => exact ⟨a,q',rfl,h⟩
    | error t => cases h

/-- A parameter that is not an optional one is given the first argument that is left. -/
theorem pullArg_plain {c : Call V F} {t : ValueType} {as as' : List (Argument V F)}
    {x : Arg V F} {q r : Pending V} (h : pullArg c (.plain t) as q = (.ok (x,as'),r)) :
    ∃ a, as = a::as' ∧ fromJs a t q = (.ok x,r) := by
  cases as with
  | nil => cases h
  | cons a as =>
    obtain ⟨y,q',hy,hret⟩ := bind_returns h
    cases hret
    exact ⟨a,rfl,hy⟩

/-- What the arguments of the callback form are converted to. -/
theorem pullArgs_callback {c : Call V F} {as : List (Argument V F)} {xs : List (Arg V F)}
    {q r : Pending V} (h : pullArgs c callbackParams as q = (.ok xs,r)) :
    ∃ path encoding callback, xs = [.host,.string path,encoding,.value callback] := by
  obtain ⟨y,q₁,hhost,h⟩ := bind_returns h
  obtain ⟨ys,q₂,h,hret⟩ := bind_returns h
  obtain ⟨z,q₃,hpath,h⟩ := bind_returns h
  obtain ⟨zs,q₄,h,hret₁⟩ := bind_returns h
  obtain ⟨w,q₅,-,h⟩ := bind_returns h
  obtain ⟨ws,q₆,h,hret₂⟩ := bind_returns h
  obtain ⟨u,q₇,hcallback,h⟩ := bind_returns h
  obtain ⟨us,q₈,h,hret₃⟩ := bind_returns h
  cases h
  cases hret₃
  cases hret₂
  cases hret₁
  cases hret
  have hfirst : y.1 = .host := by
    rw [pullArg] at hhost
    split at hhost
    · cases hhost
      rfl
    · cases hhost
  obtain ⟨a,-,ha⟩ := pullArg_plain hpath
  have hsecond : ∃ path, z.1 = .string path := by
    rw [fromJs] at ha
    cases hs : a.toCString with
    | error e =>
      rw [hs] at ha
      cases ha
    | ok path =>
      rw [hs] at ha
      exact ⟨cStr path,(Except.ok.inj (Prod.mk.inj ha).1).symm⟩
  obtain ⟨path,hsecond⟩ := hsecond
  obtain ⟨b,-,hb⟩ := pullArg_plain hcallback
  have hlast : u.1 = .value b.value := (Except.ok.inj (Prod.mk.inj hb).1).symm
  exact ⟨path,w.1,b.value,by rw [hfirst,hsecond,hlast]⟩

/-- The call throws exactly if nothing is posted. -/
theorem nativeReadFile_throws_iff (c : Call V F) :
    (trampoline E (nativeReadFile E) c).1 = .exception ↔ posted c = none := by
  cases hpull : pullArgs c callbackParams c.argv none with
  | mk r q =>
    cases r with
    | error t => cases t <;> simp [posted,trampoline,invokeImpl,Code.bind,nativeReadFile,hpull]
    | ok xs =>
      obtain ⟨path,encoding,callback,rfl⟩ := pullArgs_callback hpull
      rw [trampoline_of_body E (f := nativeReadFile E) hpull]
      simp [posted,hpull,ReadJob.ofArgs,nativeReadFile,Code.ret,outcome,toJs]

theorem told_complete (h : Sees E M view decode) (job : ReadJob V) (data : Bytes) :
    Delivered.told view (job.complete E M data) =
      if data = [] then .failure
      else if job.encStr = ascii "utf8" ∨ job.encStr = ascii "utf-8" then
        .text (decode (cStr data))
      else .bytes data := by
  rw [ReadJob.complete]
  split
  · rfl
  · split
    · exact ofJs_newStringLen h _
    · exact ofJs_newArrayBufferCopy h _

/-- Read with a callback: an encoding that is left out takes the callback for the encoding, and
text ends at a NUL. -/
theorem byCallback_eq (h : Sees E M view decode) (hpath : path.toCString = .ok p)
    (hvalid : encoding.Valid) :
    byCallback E M fs this view s (path::(encoding.argv++[callback])) =
      if fs.readFileSync s (cStr p) = [] then .failure
      else if encoding.isNamed then .text (decode (cStr (fs.readFileSync s (cStr p))))
      else if encoding.isUndefined then .bytes (fs.readFileSync s (cStr p))
      else .failure := by
  cases encoding with
  | leftOut =>
    have hposted : posted ⟨true,this,[path,callback]⟩ = none := by
      cases hundefined : callback.isUndefined || callback.isNull <;>
        cases hstring : callback.toCString <;>
        simp [posted,pullArgs,pullArg,callbackParams,Code.bind,Code.ret,Code.raise,fromJs,
          fromJsOptional,Code.ask,hpath,hundefined,hstring]
    simp [byCallback,Encoding.argv,Encoding.isNamed,Encoding.isUndefined,hposted]
  | undefined a =>
    have hnull : fromJsOptional a .string = .ret .nullopt := if_pos hvalid
    have hposted : posted ⟨true,this,[path,a,callback]⟩ = some ⟨cStr p,[],callback.value⟩ := by
      simp [posted,pullArgs,pullArg,callbackParams,Code.bind,Code.ret,fromJs,Code.ask,hpath,
        hnull,ReadJob.ofArgs,valueOr]
    have hplain : ¬ (([] : Bytes) = ascii "utf8" ∨ ([] : Bytes) = ascii "utf-8") := by decide
    simp only [byCallback,Encoding.argv,List.cons_append,List.nil_append,hposted,
      told_complete h,if_neg hplain,Encoding.isNamed,Encoding.isUndefined,Bool.false_eq_true,
      if_true,if_false]
  | named a =>
    obtain ⟨hundefined,hnull,e,he,hname⟩ := hvalid
    have hposted : posted ⟨true,this,[path,a,callback]⟩ = some ⟨cStr p,cStr e,callback.value⟩ := by
      simp [posted,pullArgs,pullArg,callbackParams,Code.bind,Code.ret,fromJs,fromJsOptional,
        Code.ask,hpath,hundefined,hnull,he,ReadJob.ofArgs,valueOr]
    simp only [byCallback,Encoding.argv,List.cons_append,List.nil_append,hposted,
      told_complete h,if_pos hname,Encoding.isNamed,if_true]

theorem byPromise_eq (h : Sees E M view decode) (hpath : path.toCString = .ok p)
    (more : List (Argument V F)) :
    byPromise E M fs referenceError this view s (path::more) =
      if fs.readFileSync s (cStr p) = [] then .failure
      else .bytes (fs.readFileSync s (cStr p)) := by
  have hargs : pullArgs ⟨true,this,path::more⟩ promiseParams (path::more) none =
      (.ok [.host,.string (cStr p)],none) := by
    simp [pullArgs,pullArg,promiseParams,Code.bind,Code.ret,fromJs,Code.ask,hpath]
  obtain ⟨v,hv,hview⟩ := h.newUint8Array (fs.readFileSync s (cStr p))
  simp only [byPromise,Code.bind,hargs,nativePromisesReadFile,h.newPromiseCapability,if_true]
  by_cases hnil : fs.readFileSync s (cStr p) = []
  · simp [nativeReadFileSync,hnil,throwReferenceError]
  · simp [nativeReadFileSync,hnil,isUtf8,take,hv,Code.ret,Delivered.ofJs,hview]

def Agree (E : Engine V F) (M : Maker V) (fs : FileSystem S) (referenceError this : V)
    (view : V → Delivered T) (s : S) (path callback : Argument V F) (encoding : Encoding V F) :
    Prop :=
  bySync E fs referenceError this view s (path::encoding.argv) =
    byCallback E M fs this view s (path::(encoding.argv++[callback])) ∧
  bySync E fs referenceError this view s (path::encoding.argv) =
    byPromise E M fs referenceError this view s (path::encoding.argv)

/-- They agree exactly if there are no bytes or the encoding is undefined or null; and the two
that take the encoding agree about it exactly if what follows a NUL makes no difference. -/
theorem variants_agree_iff (h : Sees E M view decode) (hpath : path.toCString = .ok p)
    (hvalid : encoding.Valid) :
    (Agree E M fs referenceError this view s path callback encoding ↔
      fs.readFileSync s (cStr p) = [] ∨ encoding.isUndefined = true) ∧
    (encoding.isNamed = true →
      (bySync E fs referenceError this view s (path::encoding.argv) =
          byCallback E M fs this view s (path::(encoding.argv++[callback])) ↔
        fs.readFileSync s (cStr p) = [] ∨
          decode (fs.readFileSync s (cStr p)) = decode (cStr (fs.readFileSync s (cStr p))))) := by
  rw [Agree,bySync_eq h hpath hvalid,byCallback_eq h hpath hvalid,byPromise_eq h hpath]
  by_cases hnil : fs.readFileSync s (cStr p) = []
  · simp [hnil]
  · cases encoding <;> simp [hnil,Encoding.isNamed,Encoding.isUndefined]

end agreement

/-- What a string and an array show. -/
abbrev Seen := Delivered (Option (List ℕ))

def seenEngine : Engine Seen Unit where
  undefined := .failure
  newStringLen b := .ok (.text (Utf8.decode b))
  newBool _ := .failure
  newFloat64 _ := .failure
  newInt32 _ := .failure
  newInt64 _ := .failure
  newBigInt64 _ := .ok .failure
  newUint8Array b := .ok (.bytes b)
  message _ := none

def seenMaker : Maker Seen := ⟨fun b => .ok (.bytes b),fun _ => .failure,true⟩

theorem seenEngine_sees : Sees seenEngine seenMaker id Utf8.decode :=
  ⟨fun _ => ⟨_,rfl,rfl⟩,fun _ => ⟨_,rfl,rfl⟩,fun _ => ⟨_,rfl,rfl⟩,rfl⟩

def seenArgument (undefined : Bool) (s : Bytes) : Argument Seen Unit where
  value := .failure
  isUndefined := undefined
  isNull := false
  isArrayBuffer := false
  getArrayBuffer := .error (.typeError "not an ArrayBuffer")
  getUint8Array := .error (.typeError "not a Uint8Array")
  toCString := .ok s
  toBool := true
  toFloat64 := .ok ()
  toInt32 := .ok 0
  toInt64 := .ok 0

def nulFile : List (Bytes × Bytes) := [(ascii "/t",[97,0,98])]

def samplePath : Argument Seen Unit := seenArgument false (ascii "/t")

def sampleCallback : Argument Seen Unit := seenArgument false (ascii "() => 0")

def sampleUndefined : Encoding Seen Unit := .undefined (seenArgument true (ascii "undefined"))

def sampleUtf8 : Encoding Seen Unit := .named (seenArgument false (ascii "utf8"))

theorem sampleUtf8_valid : sampleUtf8.Valid := ⟨rfl,rfl,ascii "utf8",rfl,.inl (by decide)⟩

theorem variants_agree_iff_sample :
    Agree seenEngine seenMaker files .failure .failure id nulFile samplePath sampleCallback
      sampleUndefined := by
  have hvalid : sampleUndefined.Valid := rfl
  exact (variants_agree_iff (p := ascii "/t") seenEngine_sees rfl hvalid).1.mpr (.inr rfl)

/-- As utf8 the file is a string of three characters at once, and an array by the promise. -/
theorem promise_ignores_encoding :
    ¬ Agree seenEngine seenMaker files .failure .failure id nulFile samplePath sampleCallback
      sampleUtf8 := by
  rintro ⟨-,h⟩
  rw [bySync_eq (p := ascii "/t") seenEngine_sees rfl sampleUtf8_valid,
    byPromise_eq (p := ascii "/t") seenEngine_sees rfl] at h
  revert h
  decide

end ReadVariants
end AsioQuickjs
