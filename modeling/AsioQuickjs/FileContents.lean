import AsioQuickjs.Trampoline
import AsioQuickjs.Utf8

/-! Files as a script writes and reads them with `writeFileSync` and `readFileSync`. An array
without bytes is at once what the helper reads from an empty file and how it fails. -/
namespace AsioQuickjs
namespace FileContents

open Trampoline

/-- The file system under `std::filesystem` and the streams of a file: it gives back what was
written last. -/
structure FileSystem (S : Type) where
  parentPath : Bytes → Bytes
  createDirectories : S → Bytes → S
  openOut : S → Bytes → Option S
  write : S → Bytes → Bytes → S × Bool
  openIn : S → Bytes → Option Bytes
  openIn_write : ∀ {s t u : S} {path data : Bytes}, openOut s path = some t →
    write t path data = (u,true) → openIn u path = some data

variable {S V F : Type}

namespace FileSystem

variable (fs : FileSystem S)

def readFileSync (s : S) (path : Bytes) : Bytes :=
  match fs.openIn s path with
  | none => []
  | some data => if data.length ≤ 0 then [] else data

def writeFileSync (s : S) (path data : Bytes) : S × Bool :=
  let parent := fs.parentPath path
  let s := if parent = [] then s else fs.createDirectories s parent
  match fs.openOut s path with
  | none => (s,false)
  | some t => fs.write t path data

theorem readFileSync_eq {s : S} {path data : Bytes} (h : fs.openIn s path = some data) :
    fs.readFileSync s path = data := by
  simp only [readFileSync,h]
  split
  · next hlen => exact (List.eq_nil_of_length_eq_zero (Nat.le_zero.mp hlen)).symm
  · rfl

theorem readFileSync_writeFileSync {s : S} {path data : Bytes}
    (h : (fs.writeFileSync s path data).2 = true) :
    fs.readFileSync (fs.writeFileSync s path data).1 path = data := by
  revert h
  simp only [writeFileSync]
  split
  · intro h
    cases h
  · next t ht => exact fun h => fs.readFileSync_eq (fs.openIn_write ht (Prod.ext rfl h))

end FileSystem

section natives

variable (E : Engine V F) (fs : FileSystem S)

-- The error of `JS_ThrowReferenceError`, whose text is made from a `va_list`.
variable (referenceError : V)

/-- `Host::throw_reference_error`. -/
def throwReferenceError : Code V (Return V F) := fun _ =>
  (.error (.runtimeError "reference error"),some (.value referenceError))

/-- `Value::take` of what the engine has made. -/
def take : Except (Exn V) V → Code V (Return V F)
  | .ok v => .ret (.value (.value v))
  | .error e => fun _ => (.ok (.value .exception),some e)

def isUtf8 : Arg V F → Bool
  | .string encoding => encoding = ascii "utf8" || encoding = ascii "utf-8"
  | _ => false

def readParams : List Param := [.host,.plain .string,.optional .string]

def nativeReadFileSync (s : S) : Native V F where
  params := readParams
  body
    | [.host,.string path,encoding] =>
      let data := fs.readFileSync s path
      if data = [] then throwReferenceError referenceError
      else if isUtf8 encoding then take (E.newStringLen data)
      else take (E.newUint8Array data)
    | _ => .ret .void

def writeParams : List Param := [.host,.plain .string,.plain .vector]

def nativeWriteFileSync (s : S) : Native V F where
  params := writeParams
  body
    | [.host,.string path,.bytes data] =>
      if (fs.writeFileSync s path data).2 then .ret .void
      else throwReferenceError referenceError
    | _ => .ret .void

/-- The files after a call of `writeFileSync`, which writes if its arguments are converted. -/
def written (s : S) (c : Call V F) : S :=
  match (pullArgs c writeParams c.argv none).1 with
  | .ok [.host,.string path,.bytes data] => (fs.writeFileSync s path data).1
  | _ => s

end natives

/-- What a script writes: an array of bytes, or a well-formed string. -/
inductive Content
  | array (b : Bytes)
  | text (cs : List Char)

def Content.bytes : Content → Bytes
  | .array b => b
  | .text cs => Utf8.encode cs

/-- The argument is this content. The engine may have no pointer to the bytes of an empty
array, and has none to those of a string. -/
inductive Holds (a : Argument V F) : Content → Prop
  | array {b : Bytes} (h : a.bytes = .ok (some b)) : Holds a (.array b)
  | null {s : Bytes} (h : a.bytes = .ok none) (hs : a.toCString = .ok s) : Holds a (.array [])
  | text {cs : List Char} (h : ∀ b, a.bytes ≠ .ok (some b))
      (hs : a.toCString = .ok (Utf8.encode cs)) : Holds a (.text cs)

/-- The contents that come back: those that are not empty and have no U+0000. -/
def Content.Survives : Content → Prop
  | .array b => b ≠ []
  | .text cs => cs ≠ [] ∧ '\x00' ∉ cs

theorem encode_eq_nil {cs : List Char} : Utf8.encode cs = [] ↔ cs = [] := by
  constructor
  · intro h
    have htext := Utf8.text_encode cs
    rw [h,← show Utf8.encode [] = [] from rfl,Utf8.text_encode] at htext
    exact (Option.some.inj htext).symm
  · rintro rfl
    rfl

/-- The bytes that a `std::vector<uint8_t>` gets are the content, and some, exactly for the
contents that come back. -/
theorem fromJs_vector {a : Argument V F} {c : Content} (h : Holds a c) :
    ∃ b, (∀ p, ∃ q, fromJs a .vector p = (.ok (.bytes b),q)) ∧
      (b = c.bytes ∧ b ≠ [] ↔ c.Survives) := by
  cases h with
  | @array b h =>
    refine ⟨b,fun p => ⟨p,by simp [fromJs,h]⟩,?_⟩
    exact ⟨fun hb => hb.2,fun hb => ⟨rfl,hb⟩⟩
  | @null s h hs =>
    refine ⟨cStr s,fun p => ⟨p,by simp [fromJs,fromJs.readText,h,hs]⟩,?_⟩
    exact ⟨fun hb => absurd hb.1 hb.2,fun hb => absurd rfl hb⟩
  | @text cs h hs =>
    refine ⟨cStr (Utf8.encode cs),fun p => ?_,?_⟩
    · cases hb : a.bytes with
      | error e => exact ⟨some e,by simp [fromJs,fromJs.readText,hb,hs]⟩
      | ok o =>
        cases o with
        | none => exact ⟨p,by simp [fromJs,fromJs.readText,hb,hs]⟩
        | some b => exact absurd hb (h b)
    · have hcut := Utf8.cStr_encode_eq_iff cs
      constructor
      · rintro ⟨heq,hne⟩
        exact ⟨fun hcs => hne (by rw [heq]; exact encode_eq_nil.mpr hcs),hcut.mp heq⟩
      · rintro ⟨hne,hnul⟩
        have heq := hcut.mpr hnul
        exact ⟨heq,by rw [heq]; exact mt encode_eq_nil.mp hne⟩

section roundTrip

variable (E : Engine V F) (fs : FileSystem S) (referenceError this : V)

def writeCall (path content : Argument V F) : Call V F := ⟨true,this,[path,content]⟩

def writeResult (s : S) (path content : Argument V F) : JSValue V :=
  (trampoline E (nativeWriteFileSync fs referenceError s) (writeCall this path content)).1

def afterWrite (s : S) (path content : Argument V F) : S :=
  written fs s (writeCall this path content)

def readResult (s : S) (argv : List (Argument V F)) : JSValue V :=
  (trampoline E (nativeReadFileSync E fs referenceError s) ⟨true,this,argv⟩).1

/-- The script can tell what it is given: the bytes of an array, the characters of a string. -/
structure Reads (bytesOf : V → Option Bytes) (textOf : V → Option (List Char)) : Prop where
  newUint8Array : ∀ b, ∃ v, E.newUint8Array b = .ok v ∧ bytesOf v = some b
  newStringLen : ∀ cs, ∃ v, E.newStringLen (Utf8.encode cs) = .ok v ∧ textOf v = some cs

/-- An argument that names the encoding. -/
def NamesUtf8 (a : Argument V F) : Prop :=
  a.isUndefined = false ∧ a.isNull = false ∧
  ∃ s, a.toCString = .ok s ∧ (cStr s = ascii "utf8" ∨ cStr s = ascii "utf-8")

/-- After the write, a read gives the bytes, and one as text the string that was written. -/
def RoundTrip (bytesOf : V → Option Bytes) (textOf : V → Option (List Char)) (s : S)
    (path content : Argument V F) (c : Content) : Prop :=
  let s := afterWrite fs this s path content
  (∃ v, readResult E fs referenceError this s [path] = .value v ∧ bytesOf v = some c.bytes) ∧
  ∀ cs, c = .text cs → ∀ encoding, NamesUtf8 encoding →
    ∃ v, readResult E fs referenceError this s [path,encoding] = .value v ∧ textOf v = some cs

variable {E fs referenceError this}
variable {s : S} {path content : Argument V F} {p data : Bytes}

theorem pullArgs_write (this : V) (hpath : path.toCString = .ok p)
    (hdata : ∀ q, ∃ r, fromJs content .vector q = (.ok (.bytes data),r)) :
    ∃ r, pullArgs (writeCall this path content) writeParams [path,content] none =
      (.ok [.host,.string (cStr p),.bytes data],r) := by
  obtain ⟨r,hr⟩ := hdata none
  have hstring : fromJs path .string none = (.ok (.string (cStr p)),none) := by
    rw [fromJs,hpath]
    rfl
  exact ⟨r,by simp [pullArgs,pullArg,writeParams,writeCall,Code.bind,Code.ret,hstring,hr]⟩

theorem afterWrite_eq (hpath : path.toCString = .ok p)
    (hdata : ∀ q, ∃ r, fromJs content .vector q = (.ok (.bytes data),r)) :
    afterWrite fs this s path content = (fs.writeFileSync s (cStr p) data).1 := by
  obtain ⟨r,hr⟩ := pullArgs_write this hpath hdata
  have hargv : (writeCall this path content).argv = [path,content] := rfl
  rw [afterWrite,written,hargv,hr]

theorem writeResult_eq (hpath : path.toCString = .ok p)
    (hdata : ∀ q, ∃ r, fromJs content .vector q = (.ok (.bytes data),r)) :
    writeResult E fs referenceError this s path content ≠ .exception ↔
      (fs.writeFileSync s (cStr p) data).2 = true := by
  obtain ⟨r,hr⟩ := pullArgs_write this hpath hdata
  rw [writeResult,trampoline_of_body E (f := nativeWriteFileSync fs referenceError s) hr]
  by_cases hok : (fs.writeFileSync s (cStr p) data).2 = true
  · simp [nativeWriteFileSync,hok,Code.ret,outcome,toJs]
  · simp [nativeWriteFileSync,hok,throwReferenceError,outcome]

/-- `JS_EXCEPTION`, or what the engine has made. -/
def made : Except (Exn V) V → JSValue V
  | .ok v => .value v
  | .error _ => .exception

/-- A read throws if there are no bytes, and else makes a string or an array of them. -/
theorem readResult_eq {argv : List (Argument V F)} {e : Arg V F} {q : Pending V}
    (hargs : pullArgs ⟨true,this,argv⟩ readParams argv none = (.ok [.host,.string p,e],q)) :
    readResult E fs referenceError this s argv =
      if fs.readFileSync s p = [] then .exception
      else made (if isUtf8 e then E.newStringLen (fs.readFileSync s p)
        else E.newUint8Array (fs.readFileSync s p)) := by
  rw [readResult,trampoline_of_body E (f := nativeReadFileSync E fs referenceError s) hargs]
  by_cases hnil : fs.readFileSync s p = []
  · simp [nativeReadFileSync,throwReferenceError,hnil,outcome]
  · have htake : ∀ x : Except (Exn V) V,
        outcome E ((take x : Code V (Return V F)) q).1 = made x := by
      intro x
      cases x <;> rfl
    by_cases hutf8 : isUtf8 e = true
    · simp only [nativeReadFileSync,hnil,hutf8,if_true,if_false,htake]
    · simp only [nativeReadFileSync,hnil,hutf8,Bool.false_eq_true,if_false,htake]

theorem readResult_bytes (hpath : path.toCString = .ok p) :
    readResult E fs referenceError this s [path] =
      if fs.readFileSync s (cStr p) = [] then .exception
      else made (E.newUint8Array (fs.readFileSync s (cStr p))) :=
  readResult_eq (e := .nullopt) (q := none)
    (by simp [pullArgs,pullArg,readParams,Code.bind,Code.ret,fromJs,Code.ask,hpath])

theorem readResult_text {encoding : Argument V F} (hpath : path.toCString = .ok p)
    (henc : NamesUtf8 encoding) :
    readResult E fs referenceError this s [path,encoding] =
      if fs.readFileSync s (cStr p) = [] then .exception
      else made (E.newStringLen (fs.readFileSync s (cStr p))) := by
  obtain ⟨hundefined,hnull,e,he,hname⟩ := henc
  have hutf8 : isUtf8 (.string (cStr e) : Arg V F) = true := by
    rcases hname with h | h <;> simp [isUtf8,h]
  have hargs : pullArgs ⟨true,this,[path,encoding]⟩ readParams [path,encoding] none =
      (.ok [.host,.string (cStr p),.string (cStr e)],none) := by
    simp [pullArgs,pullArg,readParams,Code.bind,Code.ret,fromJsOptional,hundefined,hnull,
      fromJs,Code.ask,hpath,he]
  rw [readResult_eq hargs,if_pos hutf8]

/-- What was written successfully is read back exactly if it is neither empty nor a string
with U+0000. -/
theorem roundTrip_iff {bytesOf : V → Option Bytes} {textOf : V → Option (List Char)}
    {c : Content} (hE : Reads E bytesOf textOf) (hpath : path.toCString = .ok p)
    (hc : Holds content c)
    (hok : writeResult E fs referenceError this s path content ≠ .exception) :
    RoundTrip E fs referenceError this bytesOf textOf s path content c ↔ c.Survives := by
  obtain ⟨data,hdata,hsurvives⟩ := fromJs_vector hc
  have hread : fs.readFileSync (afterWrite fs this s path content) (cStr p) = data := by
    rw [afterWrite_eq hpath hdata]
    exact fs.readFileSync_writeFileSync ((writeResult_eq hpath hdata).mp hok)
  obtain ⟨v,hv,hbytes⟩ := hE.newUint8Array data
  rw [← hsurvives]
  constructor
  · rintro ⟨⟨w,hw,hwb⟩,-⟩
    rw [readResult_bytes hpath,hread] at hw
    split at hw
    · cases hw
    · next hne =>
      rw [hv] at hw
      obtain rfl : v = w := JSValue.value.inj hw
      exact ⟨Option.some.inj (hbytes.symm.trans hwb),hne⟩
  · rintro ⟨heq,hne⟩
    refine ⟨⟨v,?_,heq ▸ hbytes⟩,?_⟩
    · rw [readResult_bytes hpath,hread,if_neg hne,hv,made]
    · rintro cs rfl encoding henc
      obtain ⟨w,hw,htext⟩ := hE.newStringLen cs
      refine ⟨w,?_,htext⟩
      rw [readResult_text hpath henc,hread,if_neg hne,heq]
      rw [Content.bytes,hw,made]

end roundTrip

def bytesEngine : Engine Bytes Unit where
  undefined := []
  newStringLen b := .ok b
  newBool _ := []
  newFloat64 _ := []
  newInt32 _ := []
  newInt64 _ := []
  newBigInt64 _ := .ok []
  newUint8Array b := .ok b
  message _ := none

theorem bytesEngine_reads : Reads bytesEngine some Utf8.text where
  newUint8Array b := ⟨b,rfl,rfl⟩
  newStringLen cs := ⟨Utf8.encode cs,rfl,Utf8.text_encode cs⟩

def files : FileSystem (List (Bytes × Bytes)) where
  parentPath path := (path.reverse.dropWhile (· ≠ 47)).reverse
  createDirectories s _ := s
  openOut s _ := some s
  write s path data := ((path,data)::s,true)
  openIn s path := s.lookup path
  openIn_write h hw := by
    cases h
    cases hw
    simp

def argument (bytes : Except (Exn Bytes) (Option Bytes)) (s : Bytes) : Argument Bytes Unit where
  value := s
  isUndefined := false
  isNull := false
  isArrayBuffer := false
  getArrayBuffer := .error (.typeError "not an ArrayBuffer")
  getUint8Array := bytes
  toCString := .ok s
  toBool := true
  toFloat64 := .ok ()
  toInt32 := .ok 0
  toInt64 := .ok 0

def stringArgument (s : Bytes) : Argument Bytes Unit :=
  argument (.error (.typeError "not a Uint8Array")) s

def arrayArgument (b : Bytes) : Argument Bytes Unit := argument (.ok (some b)) []

theorem roundTrip_hello :
    RoundTrip bytesEngine files [] [] some Utf8.text [] (stringArgument (ascii "/t"))
      (stringArgument (Utf8.encode ['H','i'])) (.text ['H','i']) :=
  (roundTrip_iff bytesEngine_reads rfl (.text (fun _ h => by cases h) rfl)
    (by rw [writeResult_eq (p := ascii "/t") rfl fun q => ⟨_,rfl⟩]; rfl)).mpr ⟨by simp,by simp⟩

/-- The write of an empty array succeeds, and the read throws; what follows U+0000 in a string
is not written. -/
theorem not_roundTrip :
    (Holds (arrayArgument []) (.array []) ∧
      writeResult bytesEngine files [] [] [] (stringArgument (ascii "/t")) (arrayArgument []) ≠
        .exception ∧
      ¬ RoundTrip bytesEngine files [] [] some Utf8.text [] (stringArgument (ascii "/t"))
        (arrayArgument []) (.array [])) ∧
    Holds (stringArgument (Utf8.encode ['a','\x00','b'])) (.text ['a','\x00','b']) ∧
      writeResult bytesEngine files [] [] [] (stringArgument (ascii "/t"))
        (stringArgument (Utf8.encode ['a','\x00','b'])) ≠ .exception ∧
      ¬ RoundTrip bytesEngine files [] [] some Utf8.text [] (stringArgument (ascii "/t"))
        (stringArgument (Utf8.encode ['a','\x00','b'])) (.text ['a','\x00','b']) := by
  refine ⟨⟨.array rfl,?_,?_⟩,.text (fun _ h => by cases h) rfl,?_,?_⟩
  · intro h
    cases h
  · rintro ⟨⟨v,hv,-⟩,-⟩
    cases hv
  · intro h
    cases h
  · rintro ⟨⟨v,hv,hb⟩,-⟩
    cases hv
    exact absurd hb (by decide)

end FileContents
end AsioQuickjs
