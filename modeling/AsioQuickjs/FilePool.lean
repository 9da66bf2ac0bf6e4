import AsioQuickjs.GlobMatch
import AsioQuickjs.HandOff

/-! The natives of fs.cpp on the threads for files: what each hands over to them, and what becomes
of it where the file system fails. -/
namespace AsioQuickjs
namespace FilePool

open HandOff

/-- What a `std::exception` says. -/
abbrev FsError := String

inductive FileType
  | notFound | regular | directory | symlink | other
  deriving DecidableEq

/-- What functions of the pool and natives return. -/
inductive FsValue
  | void
  | bool (b : Bool)
  | int (n : ℤ)
  | size (n : ℕ)
  | path (p : Bytes)
  | bytes (b : Bytes)
  | names (ps : List Bytes)
  | status (t : FileType)
  | stat (t : FileType) (size : ℕ)
  | dir (path : Bytes)
  | space (capacity free available : ℕ)

def FsValue.isTrue : FsValue → Bool
  | .bool b => b
  | _ => false

def FsValue.data : FsValue → Bytes
  | .bytes b => b
  | _ => []

def FsValue.fileType : FsValue → FileType
  | .status t => t
  | _ => .other

def FsValue.fileSize : FsValue → ℕ
  | .size n => n
  | _ => 0

/-- An open `ifstream`: what `tellg` says at its end, and what there is to read from its
beginning. -/
structure Ifstream where
  size : ℤ
  content : Bytes

/-- An open `ofstream` that was written to: whether it is good then, and whether what it still
holds gets to the file when it is destroyed. -/
structure Ofstream where
  good : Bool
  flushed : Bool

def Ofstream.written (file : Ofstream) : Bool := file.good && file.flushed

/-- What a `recursive_directory_iterator` comes by, paths with their file names, and whether it
throws then. -/
structure Walk where
  entries : List (Bytes × Bytes)
  throws : Bool

/-- What the calls into `std::filesystem` return or throw, and what the streams do, at the time of
an operation. -/
structure Filesystem where
  parentPath : Bytes → Bytes
  join : Bytes → Bytes → Bytes
  exist : Bytes → Except FsError Bool
  remove : Bytes → Except FsError Bool
  removeAll : Bytes → Except FsError ℕ
  createDirectory : Bytes → Except FsError Bool
  createDirectories : Bytes → Except FsError Bool
  directoryEntries : Bytes → Except FsError (List Bytes)
  directoryIterator : Bytes → Except FsError Unit
  recursiveDirectoryIterator : Bytes → Walk
  copyFile : Bytes → Bytes → Except FsError Unit
  copy : Bytes → Bytes → Bool → Except FsError Unit
  rename : Bytes → Bytes → Except FsError Unit
  status : Bytes → Except FsError FileType
  symlinkStatus : Bytes → Except FsError FileType
  fileSize : Bytes → Except FsError ℕ
  permissions : Bytes → ℤ → Except FsError Unit
  canonical : Bytes → Except FsError Bytes
  tempDirectoryPath : Except FsError Bytes
  clock : Bytes
  createSymlink : Bytes → Bytes → Except FsError Unit
  createHardLink : Bytes → Bytes → Except FsError Unit
  readSymlink : Bytes → Except FsError Bytes
  resizeFile : Bytes → ℤ → Except FsError Unit
  lastWriteTime : Bytes → ℤ → Except FsError Unit
  space : Bytes → Except FsError (ℕ × ℕ × ℕ)
  ifstream : Bytes → Option Ifstream
  ofstream : Bytes → Bytes → Option Ofstream
  append : Bytes → Bytes → Option Ofstream
  create : Bytes → Bool
  openStream : Bytes → ℤ → Bool
  -- `std::vector<uint8_t>(n)`
  vector : ℕ → Except FsError Unit

abbrev FsProgram := Program FsError FsValue

section natives

variable (fs : Filesystem)

def ret (v : FsValue) : FsProgram := .done (.ok v)

/-- `Host::throw_reference_error`. -/
def throwReferenceError : FsProgram := .done (.error "reference error")

/-- `run_fs`, and the same written out. -/
def runFs {α : Type} (fn : Except FsError α) (value : α → FsValue) (rest : FsValue → FsProgram) :
    FsProgram :=
  .handOff (fn.map value) rest

def runVoid {α : Type} (fn : Except FsError α) : FsProgram :=
  runFs fn (fun _ => .void) fun _ => ret .void

def runIgnored (fn : Except FsError Bool) : FsProgram := runFs fn .bool fun _ => ret .void

def runChecked (fn : Except FsError Bool) : FsProgram :=
  runFs fn .bool fun ok => if ok.isTrue then ret .void else throwReferenceError

/-- `try { ..; set_value(true); } catch (...) { set_value(false); }` -/
def caught {α : Type} (fn : Except FsError α) : Except FsError Bool :=
  match fn with
  | .ok _ => .ok true
  | .error _ => .ok false

def readFileSync (path : Bytes) : Except FsError Bytes :=
  match fs.ifstream path with
  | none => .ok []
  | some file =>
    if file.size ≤ 0 then .ok []
    -- what `read` does not bring stays zero
    else (fs.vector file.size.toNat).map fun _ =>
      file.content.take file.size.toNat++
        List.replicate (file.size.toNat-file.content.length) 0

def writeFileSync (path data : Bytes) : Except FsError Bool :=
  if fs.parentPath path = [] then .ok ((fs.ofstream path data).any Ofstream.good)
  else (fs.createDirectories (fs.parentPath path)).map fun _ =>
    (fs.ofstream path data).any Ofstream.good

def nativeReadFileSync (path : Bytes) : FsProgram :=
  runFs (readFileSync fs path) .bytes fun data =>
    if data.data = [] then throwReferenceError else ret data

def nativeWriteFileSync (path data : Bytes) : FsProgram := runChecked (writeFileSync fs path data)

def nativeExistsSync (path : Bytes) : FsProgram := .done ((fs.exist path).map .bool)

def nativeUnlinkSync (path : Bytes) : FsProgram := runIgnored (fs.remove path)

def nativeMkdirSync (path : Bytes) (recursive : Bool) : FsProgram :=
  runChecked (if recursive then fs.createDirectories path else fs.createDirectory path)

def nativeReaddirSync (path : Bytes) : FsProgram := runFs (fs.directoryEntries path) .names ret

def nativeAppendFileSync (path data : Bytes) : FsProgram :=
  runIgnored (.ok ((fs.append path data).any Ofstream.good))

def nativeCopyFileSync (src dest : Bytes) : FsProgram := runVoid (fs.copyFile src dest)

def nativeRenameSync (oldPath newPath : Bytes) : FsProgram := runVoid (fs.rename oldPath newPath)

/-- What `stat` and `lstat` do with the status. -/
def runStat (status : Except FsError FileType) (path : Bytes) : FsProgram :=
  runFs status .status fun status =>
    if status.fileType = .notFound then throwReferenceError
    else if status.fileType = .regular then
      runFs (fs.fileSize path) .size fun size => ret (.stat status.fileType size.fileSize)
    else ret (.stat status.fileType 0)

def nativeStatSync (path : Bytes) : FsProgram := runStat fs (fs.status path) path

def nativeLstatSync (path : Bytes) : FsProgram := runStat fs (fs.symlinkStatus path) path

def nativeRmSync (path : Bytes) (recursive : Bool) : FsProgram :=
  runIgnored (if recursive then (fs.removeAll path).map fun n => decide (0 < n) else fs.remove path)

def nativeRmdirSync (path : Bytes) : FsProgram := runIgnored (fs.remove path)

def nativeChmodSync (path : Bytes) (mode : ℤ) : FsProgram := runVoid (fs.permissions path mode)

def nativeRealpathSync (path : Bytes) : FsProgram := runFs (fs.canonical path) .path ret

def nativeMkdtempSync (pre : Bytes) : FsProgram :=
  runFs (fs.tempDirectoryPath.bind fun tmp =>
    (fs.createDirectory (fs.join tmp (pre++fs.clock))).map fun _ =>
      fs.join tmp (pre++fs.clock)) .path ret

def nativeMkstempSync (pre : Bytes) : FsProgram :=
  runFs (fs.tempDirectoryPath.map fun tmp => fs.join tmp (pre++fs.clock)) .path ret

def nativeSymlinkSync (target path : Bytes) : FsProgram := runVoid (fs.createSymlink target path)

def nativeReadlinkSync (path : Bytes) : FsProgram := runFs (fs.readSymlink path) .path ret

def nativeAccessSync (path : Bytes) (mode : ℤ) : FsProgram :=
  runChecked (if mode = 0 then fs.exist path else .ok true)

def nativeTruncateSync (path : Bytes) (len : ℤ) : FsProgram :=
  runChecked (caught (fs.resizeFile path len))

def nativeUtimesSync (path : Bytes) (mtime : ℤ) : FsProgram :=
  runChecked (caught (fs.lastWriteTime path mtime))

def nativeOpenSync (path : Bytes) (flags : ℤ) : FsProgram :=
  runFs (.ok (if fs.openStream path flags then 3 else -1)) .int ret

def nativeLinkSync (existing newPath : Bytes) : FsProgram :=
  runVoid (fs.createHardLink existing newPath)

/-- What stands before the first `**`. -/
def beforeStars : Bytes → Option Bytes
  | [] => none
  | c::rest =>
    if c = GlobMatch.star ∧ rest.head? = some GlobMatch.star then some []
    else (beforeStars rest).map (c::·)

def globBase (pattern : Bytes) : Bytes :=
  match beforeStars pattern with
  | some before =>
    if GlobMatch.slash ∈ before then before.takeWhile (· ≠ GlobMatch.slash) else ascii "/tmp"
  | none => ascii "/tmp"

def globFiles (pattern : Bytes) : List Bytes :=
  ((fs.recursiveDirectoryIterator (globBase pattern)).entries.filter fun entry =>
    GlobMatch.globMatch pattern entry.2).map Prod.fst

/-- The walk over the directories is inside a `try`. -/
def nativeGlobSync (pattern : Bytes) : FsProgram := runFs (.ok (globFiles fs pattern)) .names ret

def nativeCpSync (src dest : Bytes) (recursive : Bool) : FsProgram :=
  runVoid (fs.copy src dest recursive)

def nativeChownSync : FsProgram := ret .void

def nativeStatfsSync (path : Bytes) : FsProgram :=
  runFs (fs.space path) (fun s => .space s.1 s.2.1 s.2.2) ret

def nativeOpendirSync (path : Bytes) : FsProgram :=
  runFs (fs.directoryIterator path) (fun _ => .dir path) ret

end natives

inductive Native
  | readFile (path : Bytes)
  | writeFile (path data : Bytes)
  | existsSync (path : Bytes)
  | unlink (path : Bytes)
  | mkdir (path : Bytes) (recursive : Bool)
  | readdir (path : Bytes)
  | appendFile (path data : Bytes)
  | copyFile (src dest : Bytes)
  | rename (oldPath newPath : Bytes)
  | stat (path : Bytes)
  | lstat (path : Bytes)
  | rm (path : Bytes) (recursive : Bool)
  | rmdir (path : Bytes)
  | chmod (path : Bytes) (mode : ℤ)
  | realpath (path : Bytes)
  | mkdtemp (pre : Bytes)
  | mkstemp (pre : Bytes)
  | symlink (target path : Bytes)
  | readlink (path : Bytes)
  | access (path : Bytes) (mode : ℤ)
  | truncate (path : Bytes) (len : ℤ)
  | utimes (path : Bytes) (mtime : ℤ)
  | openSync (path : Bytes) (flags : ℤ)
  | link (existing newPath : Bytes)
  | glob (pattern : Bytes)
  | cp (src dest : Bytes) (recursive : Bool)
  | chown
  | statfs (path : Bytes)
  | opendir (path : Bytes)

namespace Native

def program (fs : Filesystem) : Native → FsProgram
  | readFile path => nativeReadFileSync fs path
  | writeFile path data => nativeWriteFileSync fs path data
  | existsSync path => nativeExistsSync fs path
  | unlink path => nativeUnlinkSync fs path
  | mkdir path recursive => nativeMkdirSync fs path recursive
  | readdir path => nativeReaddirSync fs path
  | appendFile path data => nativeAppendFileSync fs path data
  | copyFile src dest => nativeCopyFileSync fs src dest
  | rename oldPath newPath => nativeRenameSync fs oldPath newPath
  | stat path => nativeStatSync fs path
  | lstat path => nativeLstatSync fs path
  | rm path recursive => nativeRmSync fs path recursive
  | rmdir path => nativeRmdirSync fs path
  | chmod path mode => nativeChmodSync fs path mode
  | realpath path => nativeRealpathSync fs path
  | mkdtemp pre => nativeMkdtempSync fs pre
  | mkstemp pre => nativeMkstempSync fs pre
  | symlink target path => nativeSymlinkSync fs target path
  | readlink path => nativeReadlinkSync fs path
  | access path mode => nativeAccessSync fs path mode
  | truncate path len => nativeTruncateSync fs path len
  | utimes path mtime => nativeUtimesSync fs path mtime
  | openSync path flags => nativeOpenSync fs path flags
  | link existing newPath => nativeLinkSync fs existing newPath
  | glob pattern => nativeGlobSync fs pattern
  | cp src dest recursive => nativeCpSync fs src dest recursive
  | chown => nativeChownSync
  | statfs path => nativeStatfsSync fs path
  | opendir path => nativeOpendirSync fs path

/-- The natives that `fs.promises` has too, `native_promises_*`: the native inside a `try`, its
result or the text of its exception for the promise. -/
def hasPromise : Native → Bool
  | existsSync _ => false
  | rmdir _ => false
  | mkstemp _ => false
  | truncate .. => false
  | openSync .. => false
  | link .. => false
  | glob _ => false
  | cp .. => false
  | statfs _ => false
  | _ => true

/-- Nothing that the native calls in a function of the pool throws, outside a `try` there. -/
def Returns (fs : Filesystem) : Native → Prop
  | readFile path => ∀ file, fs.ifstream path = some file → 0 < file.size →
    (fs.vector file.size.toNat).isOk = true
  | writeFile path _ =>
    fs.parentPath path ≠ [] → (fs.createDirectories (fs.parentPath path)).isOk = true
  | unlink path => (fs.remove path).isOk = true
  | mkdir path recursive =>
    (if recursive then fs.createDirectories path else fs.createDirectory path).isOk = true
  | readdir path => (fs.directoryEntries path).isOk = true
  | copyFile src dest => (fs.copyFile src dest).isOk = true
  | rename oldPath newPath => (fs.rename oldPath newPath).isOk = true
  | stat path =>
    (fs.status path).isOk = true ∧ (fs.status path = .ok .regular → (fs.fileSize path).isOk = true)
  | lstat path =>
    (fs.symlinkStatus path).isOk = true ∧
      (fs.symlinkStatus path = .ok .regular → (fs.fileSize path).isOk = true)
  | rm path recursive =>
    if recursive then (fs.removeAll path).isOk = true else (fs.remove path).isOk = true
  | rmdir path => (fs.remove path).isOk = true
  | chmod path mode => (fs.permissions path mode).isOk = true
  | realpath path => (fs.canonical path).isOk = true
  | mkdtemp pre => ∃ tmp, fs.tempDirectoryPath = .ok tmp ∧
    (fs.createDirectory (fs.join tmp (pre++fs.clock))).isOk = true
  | mkstemp _ => fs.tempDirectoryPath.isOk = true
  | symlink target path => (fs.createSymlink target path).isOk = true
  | readlink path => (fs.readSymlink path).isOk = true
  | access path mode => mode = 0 → (fs.exist path).isOk = true
  | link existing newPath => (fs.createHardLink existing newPath).isOk = true
  | cp src dest recursive => (fs.copy src dest recursive).isOk = true
  | statfs path => (fs.space path).isOk = true
  | opendir path => (fs.directoryIterator path).isOk = true
  | _ => True

def did (b : Bool) : Option FsValue := if b then some .void else none

def stated (fs : Filesystem) (path : Bytes) (status : Except FsError FileType) : Option FsValue :=
  match status with
  | .error _ => none
  | .ok .notFound => none
  | .ok .regular => (fs.fileSize path).toOption.map fun size => .stat .regular size
  | .ok t => some (.stat t 0)

/-- What the file system comes to: the result that the native is for, or a failure. Functions that
say with a boolean whether they did something have failed where it is false. -/
def outcome (fs : Filesystem) : Native → Option FsValue
  | readFile path => (fs.ifstream path).bind fun file =>
    if 0 ≤ file.size ∧ file.size.toNat ≤ file.content.length then
      some (.bytes (file.content.take file.size.toNat))
    else none
  | writeFile path data => did (((fs.parentPath path).isEmpty ||
      (fs.createDirectories (fs.parentPath path)).isOk) &&
    (fs.ofstream path data).any Ofstream.written)
  | existsSync path => (fs.exist path).toOption.map .bool
  | unlink path => did ((fs.remove path).toOption.any id)
  | mkdir path recursive =>
    did ((if recursive then fs.createDirectories path
      else fs.createDirectory path).toOption.any id)
  | readdir path => (fs.directoryEntries path).toOption.map .names
  | appendFile path data => did ((fs.append path data).any Ofstream.written)
  | copyFile src dest => did (fs.copyFile src dest).isOk
  | rename oldPath newPath => did (fs.rename oldPath newPath).isOk
  | stat path => stated fs path (fs.status path)
  | lstat path => stated fs path (fs.symlinkStatus path)
  | rm path recursive =>
    did (if recursive then (fs.removeAll path).toOption.any (0 < ·)
      else (fs.remove path).toOption.any id)
  | rmdir path => did ((fs.remove path).toOption.any id)
  | chmod path mode => did (fs.permissions path mode).isOk
  | realpath path => (fs.canonical path).toOption.map .path
  | mkdtemp pre => fs.tempDirectoryPath.toOption.bind fun tmp =>
    if (fs.createDirectory (fs.join tmp (pre++fs.clock))).toOption.any id then
      some (.path (fs.join tmp (pre++fs.clock)))
    else none
  | mkstemp pre => fs.tempDirectoryPath.toOption.bind fun tmp =>
    if fs.create (fs.join tmp (pre++fs.clock)) then
      some (.path (fs.join tmp (pre++fs.clock)))
    else none
  | symlink target path => did (fs.createSymlink target path).isOk
  | readlink path => (fs.readSymlink path).toOption.map .path
  | access path mode => did (mode ≠ 0 || (fs.exist path).toOption.any id)
  | truncate path len => did (fs.resizeFile path len).isOk
  | utimes path mtime => did (fs.lastWriteTime path mtime).isOk
  -- the number says whether the file was opened
  | openSync path flags => some (.int (if fs.openStream path flags then 3 else -1))
  | link existing newPath => did (fs.createHardLink existing newPath).isOk
  | glob pattern =>
    if (fs.recursiveDirectoryIterator (globBase pattern)).throws then none
    else some (.names (globFiles fs pattern))
  | cp src dest recursive => did (fs.copy src dest recursive).isOk
  | chown => some .void
  | statfs path => (fs.space path).toOption.map fun s => .space s.1 s.2.1 s.2.2
  | opendir path => (fs.directoryIterator path).toOption.map fun _ => .dir path

/-- The native lets no failure go by, and takes nothing else for one. -/
def Notices (fs : Filesystem) : Native → Prop
  | readFile path => ∀ file, fs.ifstream path = some file →
    file.size ≠ 0 ∧ file.size.toNat ≤ file.content.length
  | writeFile path data => ∀ file, fs.ofstream path data = some file →
    file.good = true → file.flushed = true
  | unlink path => fs.remove path ≠ .ok false
  | appendFile path data => (fs.append path data).any Ofstream.written = true
  | rm path recursive =>
    if recursive then fs.removeAll path ≠ .ok 0 else fs.remove path ≠ .ok false
  | rmdir path => fs.remove path ≠ .ok false
  | mkdtemp pre => ∀ tmp, fs.tempDirectoryPath = .ok tmp →
    fs.createDirectory (fs.join tmp (pre++fs.clock)) ≠ .ok false
  | mkstemp pre => ∀ tmp, fs.tempDirectoryPath = .ok tmp →
    fs.create (fs.join tmp (pre++fs.clock)) = true
  | glob pattern => (fs.recursiveDirectoryIterator (globBase pattern)).throws = false
  | _ => True

end Native

section quiet

variable {α : Type} {fs : Filesystem}

theorem runFs_quiet_iff (fn : Except FsError α) (value : α → FsValue)
    (rest : FsValue → FsProgram) :
    (runFs fn value rest).Quiet ↔ ∃ a, fn = .ok a ∧ (rest (value a)).Quiet := by
  cases fn <;> simp [runFs,Except.map,Program.Quiet]

theorem isOk_iff (fn : Except FsError α) : fn.isOk = true ↔ ∃ a, fn = .ok a := by
  cases fn <;> simp [Except.isOk,Except.toBool]

theorem runFs_ret_quiet_iff (fn : Except FsError α) (value : α → FsValue) :
    (runFs fn value ret).Quiet ↔ fn.isOk = true := by
  simp [runFs_quiet_iff,isOk_iff,ret,Program.Quiet]

theorem runVoid_quiet_iff (fn : Except FsError α) : (runVoid fn).Quiet ↔ fn.isOk = true := by
  simp [runVoid,runFs_quiet_iff,isOk_iff,ret,Program.Quiet]

theorem runIgnored_quiet_iff (fn : Except FsError Bool) :
    (runIgnored fn).Quiet ↔ fn.isOk = true := by
  simp [runIgnored,runFs_quiet_iff,isOk_iff,ret,Program.Quiet]

theorem runChecked_quiet_iff (fn : Except FsError Bool) :
    (runChecked fn).Quiet ↔ fn.isOk = true := by
  rw [runChecked,runFs_quiet_iff,isOk_iff]
  refine exists_congr fun b => and_iff_left_of_imp fun _ => ?_
  cases b <;> trivial

theorem isOk_caught (fn : Except FsError α) : (caught fn).isOk = true := by cases fn <;> rfl

theorem isOk_map {β : Type} (fn : Except FsError α) (f : α → β) :
    (fn.map f).isOk = fn.isOk := by
  cases fn <;> rfl

theorem runStat_quiet_iff (status : Except FsError FileType) (path : Bytes) :
    (runStat fs status path).Quiet ↔
      status.isOk = true ∧ (status = .ok .regular → (fs.fileSize path).isOk = true) := by
  rw [runStat,runFs_quiet_iff]
  cases status with
  | error e => simp [Except.isOk,Except.toBool]
  | ok t =>
    by_cases hregular : t = .regular
    · subst hregular
      simp [FsValue.fileType,runFs_quiet_iff,isOk_iff,ret,Program.Quiet]
    · have hrest : ∀ rest : FsProgram, rest.Quiet →
          (if t = .notFound then throwReferenceError else rest).Quiet := by
        intro rest h
        split
        · trivial
        · exact h
      simpa [FsValue.fileType,hregular,isOk_iff] using hrest (ret (.stat t 0)) trivial

theorem readFileSync_isOk_iff (path : Bytes) :
    (readFileSync fs path).isOk = true ↔ (Native.readFile path).Returns fs := by
  rw [readFileSync,Native.Returns]
  cases fs.ifstream path with
  | none => simp [Except.isOk,Except.toBool]
  | some file =>
    by_cases hsize : file.size ≤ 0
    · simp [hsize,Int.not_lt.mpr hsize,Except.isOk,Except.toBool]
    · simp [hsize,Int.not_le.mp hsize,isOk_map]

theorem nativeReadFileSync_quiet_iff (path : Bytes) :
    (nativeReadFileSync fs path).Quiet ↔ (readFileSync fs path).isOk = true := by
  rw [nativeReadFileSync,runFs_quiet_iff,isOk_iff]
  refine exists_congr fun data => and_iff_left_of_imp fun _ => ?_
  split <;> trivial

/-- A native is quiet exactly if nothing that it calls on the pool throws outside a `try`. -/
theorem quiet_iff_returns (n : Native) : (n.program fs).Quiet ↔ n.Returns fs := by
  cases n with
  | readFile path => exact (nativeReadFileSync_quiet_iff path).trans (readFileSync_isOk_iff path)
  | writeFile path data =>
    refine (runChecked_quiet_iff _).trans ?_
    rw [writeFileSync,Native.Returns]
    by_cases hparent : fs.parentPath path = []
    · simp [hparent,Except.isOk,Except.toBool]
    · simp [hparent,isOk_map]
  | existsSync path => exact Iff.rfl
  | unlink path => exact runIgnored_quiet_iff _
  | mkdir path recursive => exact runChecked_quiet_iff _
  | readdir path => exact runFs_ret_quiet_iff _ _
  | appendFile path data => exact iff_of_true ((runIgnored_quiet_iff _).mpr rfl) trivial
  | copyFile src dest => exact runVoid_quiet_iff _
  | rename oldPath newPath => exact runVoid_quiet_iff _
  | stat path => exact runStat_quiet_iff _ _
  | lstat path => exact runStat_quiet_iff _ _
  | rm path recursive =>
    refine (runIgnored_quiet_iff _).trans ?_
    cases recursive <;> simp [Native.Returns,isOk_map]
  | rmdir path => exact runIgnored_quiet_iff _
  | chmod path mode => exact runVoid_quiet_iff _
  | realpath path => exact runFs_ret_quiet_iff _ _
  | mkdtemp pre =>
    refine (runFs_ret_quiet_iff _ _).trans ?_
    rw [Native.Returns]
    cases htmp : fs.tempDirectoryPath with
    | error e => simp [Except.bind,Except.isOk,Except.toBool]
    | ok tmp => simp only [Except.bind,isOk_map,Except.ok.injEq,exists_eq_left']
  | mkstemp pre =>
    refine (runFs_ret_quiet_iff _ _).trans ?_
    rw [isOk_map,Native.Returns]
  | symlink target path => exact runVoid_quiet_iff _
  | readlink path => exact runFs_ret_quiet_iff _ _
  | access path mode =>
    refine (runChecked_quiet_iff _).trans ?_
    rw [Native.Returns]
    by_cases hmode : mode = 0
    · simp [hmode]
    · simp [hmode,Except.isOk,Except.toBool]
  | truncate path len => exact iff_of_true ((runChecked_quiet_iff _).mpr (isOk_caught _)) trivial
  | utimes path mtime => exact iff_of_true ((runChecked_quiet_iff _).mpr (isOk_caught _)) trivial
  | openSync path flags => exact iff_of_true ((runFs_ret_quiet_iff _ _).mpr rfl) trivial
  | link existing newPath => exact runVoid_quiet_iff _
  | glob pattern => exact iff_of_true ((runFs_ret_quiet_iff _ _).mpr rfl) trivial
  | cp src dest recursive => exact runVoid_quiet_iff _
  | chown => exact Iff.rfl
  | statfs path => exact runFs_ret_quiet_iff _ _
  | opendir path => exact runFs_ret_quiet_iff _ _

end quiet

section outcome

variable {α : Type} {fs : Filesystem}

theorem runFs_eval (fn : Except FsError α) (value : α → FsValue) (rest : FsValue → FsProgram) :
    (runFs fn value rest).eval.toOption =
      fn.toOption.bind fun a => (rest (value a)).eval.toOption := by
  cases fn <;> rfl

theorem runFs_ret_eval (fn : Except FsError α) (value : α → FsValue) :
    (runFs fn value ret).eval.toOption = fn.toOption.map value := by
  cases fn <;> rfl

theorem runVoid_eval (fn : Except FsError α) :
    (runVoid fn).eval.toOption = Native.did fn.isOk := by
  cases fn <;> rfl

theorem runChecked_eval (fn : Except FsError Bool) :
    (runChecked fn).eval.toOption = Native.did (fn.toOption.any id) := by
  cases fn with
  | error e => rfl
  | ok b => cases b <;> rfl

theorem runIgnored_eval_iff {fn : Except FsError Bool} (h : fn.isOk = true) :
    (runIgnored fn).eval.toOption = Native.did (fn.toOption.any id) ↔ fn ≠ .ok false := by
  obtain ⟨b,rfl⟩ := (isOk_iff fn).mp h
  cases b
  · simp [runIgnored,runFs,Native.did,ret,Program.eval,Except.map,Except.toOption]
  · simp [runIgnored,runFs,Native.did,ret,Program.eval,Except.map,Except.toOption]

theorem caught_eval (fn : Except FsError α) :
    (runChecked (caught fn)).eval.toOption = Native.did fn.isOk := by
  cases fn <;> rfl

theorem runStat_eval (status : Except FsError FileType) (path : Bytes) :
    (runStat fs status path).eval.toOption = Native.stated fs path status := by
  cases status with
  | error e => rfl
  | ok t =>
    cases t with
    | regular =>
      refine (runFs_eval (fs.fileSize path) .size _).trans ?_
      rw [Native.stated]
      cases fs.fileSize path <;> rfl
    | _ => rfl

theorem nativeReadFileSync_eval {path : Bytes} {file : Ifstream}
    (hopen : fs.ifstream path = some file) (hsize : 0 < file.size)
    (hvector : (fs.vector file.size.toNat).isOk = true) :
    (nativeReadFileSync fs path).eval.toOption = some (.bytes (file.content.take file.size.toNat++
      List.replicate (file.size.toNat-file.content.length) 0)) := by
  obtain ⟨_,hunit⟩ := (isOk_iff _).mp hvector
  have hne : file.content.take file.size.toNat++
      List.replicate (file.size.toNat-file.content.length) 0 ≠ [] := by
    rw [← List.length_pos_iff,List.length_append,List.length_take,List.length_replicate]
    omega
  rw [nativeReadFileSync,runFs_eval,readFileSync,hopen]
  simp only [Int.not_le.mpr hsize,if_false,hunit,Except.map,Except.toOption,Option.bind_some,
    FsValue.data,hne,ret,Program.eval]

theorem nativeReadFileSync_eval_none {path : Bytes} (h : readFileSync fs path = .ok []) :
    (nativeReadFileSync fs path).eval.toOption = none := by
  rw [nativeReadFileSync,runFs_eval,h]
  rfl

theorem readFile_iff {path : Bytes} (h : (Native.readFile path).Returns fs) :
    (nativeReadFileSync fs path).eval.toOption = (Native.readFile path).outcome fs ↔
      (Native.readFile path).Notices fs := by
  cases hopen : fs.ifstream path with
  | none =>
    rw [nativeReadFileSync_eval_none (by rw [readFileSync,hopen])]
    simp [Native.outcome,Native.Notices,hopen]
  | some file =>
    rcases Int.lt_trichotomy file.size 0 with hsize | hsize | hsize
    · have hle := Int.le_of_lt hsize
      rw [nativeReadFileSync_eval_none (by simp [readFileSync,hopen,hle])]
      simp only [Native.outcome,Native.Notices,hopen,Option.bind_some,Int.not_le.mpr hsize,
        false_and,if_false,Option.some.injEq,forall_eq',Int.toNat_of_nonpos hle,true_iff]
      exact ⟨Int.ne_of_lt hsize,Nat.zero_le _⟩
    · rw [nativeReadFileSync_eval_none (by simp [readFileSync,hopen,hsize])]
      simp [Native.outcome,Native.Notices,hopen,hsize]
    · have hle := Int.le_of_lt hsize
      rw [nativeReadFileSync_eval hopen hsize (h file hopen hsize),Native.outcome,Native.Notices]
      by_cases hread : file.size.toNat ≤ file.content.length
      · simp only [hopen,Option.bind_some,hle,hread,and_self,if_true,Option.some.injEq,
          Nat.sub_eq_zero_of_le hread,List.replicate_zero,List.append_nil,forall_eq',true_iff]
        exact ⟨Int.ne_of_gt hsize,trivial⟩
      · simp only [hopen,Option.bind_some,hread,and_false,if_false,Option.some.injEq,reduceCtorEq,
          forall_eq']

theorem written_iff (file : Option Ofstream) :
    Native.did (file.any Ofstream.good) = Native.did (file.any Ofstream.written) ↔
      ∀ f, file = some f → f.good = true → f.flushed = true := by
  cases file with
  | none => simp
  | some f => cases hgood : f.good <;> cases hflushed : f.flushed <;>
      simp [Native.did,Ofstream.written,hgood,hflushed]

theorem writeFile_iff {path data : Bytes} (h : (Native.writeFile path data).Returns fs) :
    (nativeWriteFileSync fs path data).eval.toOption = (Native.writeFile path data).outcome fs ↔
      (Native.writeFile path data).Notices fs := by
  have hparent : (fs.parentPath path).isEmpty = true ∨
      (fs.createDirectories (fs.parentPath path)).isOk = true := by
    by_cases hparent : fs.parentPath path = []
    · exact .inl (by rw [hparent]; rfl)
    · exact .inr (h hparent)
  have heval : (nativeWriteFileSync fs path data).eval.toOption =
      Native.did ((fs.ofstream path data).any Ofstream.good) := by
    rw [nativeWriteFileSync,runChecked_eval,writeFileSync]
    split
    · rfl
    · next hne =>
      obtain ⟨b,hb⟩ := (isOk_iff _).mp (h hne)
      rw [hb]
      rfl
  have hdone : ((fs.parentPath path).isEmpty ||
      (fs.createDirectories (fs.parentPath path)).isOk) = true := by
    rcases hparent with hparent | hparent
    · rw [hparent,Bool.true_or]
    · rw [hparent,Bool.or_true]
  rw [heval,Native.outcome,hdone,Bool.true_and]
  exact written_iff _

theorem mkdtemp_iff {pre : Bytes} (h : (Native.mkdtemp pre).Returns fs) :
    (nativeMkdtempSync fs pre).eval.toOption = (Native.mkdtemp pre).outcome fs ↔
      (Native.mkdtemp pre).Notices fs := by
  obtain ⟨tmp,htmp,hcreate⟩ := h
  obtain ⟨b,hb⟩ := (isOk_iff _).mp hcreate
  rw [nativeMkdtempSync,runFs_ret_eval]
  cases b <;> simp [Native.outcome,Native.Notices,htmp,hb,Except.bind,Except.map,Except.toOption]

theorem mkstemp_iff {pre : Bytes} (h : (Native.mkstemp pre).Returns fs) :
    (nativeMkstempSync fs pre).eval.toOption = (Native.mkstemp pre).outcome fs ↔
      (Native.mkstemp pre).Notices fs := by
  obtain ⟨tmp,htmp⟩ := (isOk_iff _).mp h
  rw [nativeMkstempSync,runFs_ret_eval]
  cases hcreate : fs.create (fs.join tmp (pre++fs.clock)) <;>
    simp [Native.outcome,Native.Notices,htmp,hcreate,Except.map,Except.toOption]

/-- A native that throws nothing on the pool comes to its outcome exactly if it lets no failure
go by. -/
theorem outcome_iff_notices {n : Native} (h : n.Returns fs) :
    (n.program fs).eval.toOption = n.outcome fs ↔ n.Notices fs := by
  cases n with
  | readFile path => exact readFile_iff h
  | writeFile path data => exact writeFile_iff h
  | existsSync path =>
    refine iff_of_true ?_ trivial
    rw [Native.outcome]
    cases hexist : fs.exist path <;>
      simp [Native.program,nativeExistsSync,hexist,Program.eval,Except.map,Except.toOption]
  | unlink path => exact runIgnored_eval_iff h
  | mkdir path recursive => exact iff_of_true (runChecked_eval _) trivial
  | readdir path => exact iff_of_true (runFs_ret_eval _ _) trivial
  | appendFile path data =>
    rw [Native.outcome,Native.Notices]
    cases (fs.append path data).any Ofstream.written <;>
      simp [Native.program,nativeAppendFileSync,runIgnored,runFs,ret,Native.did,Program.eval,
        Except.map,Except.toOption]
  | copyFile src dest => exact iff_of_true (runVoid_eval _) trivial
  | rename oldPath newPath => exact iff_of_true (runVoid_eval _) trivial
  | stat path => exact iff_of_true (runStat_eval _ _) trivial
  | lstat path => exact iff_of_true (runStat_eval _ _) trivial
  | rm path recursive =>
    cases recursive with
    | false => exact runIgnored_eval_iff h
    | true =>
      obtain ⟨n,hn⟩ := (isOk_iff _).mp h
      have hall := @runIgnored_eval_iff ((fs.removeAll path).map fun n => decide (0 < n))
        ((isOk_map _ _).trans h)
      simpa [Native.program,nativeRmSync,Native.outcome,Native.Notices,hn,Except.map,
        Except.toOption] using hall
  | rmdir path => exact runIgnored_eval_iff h
  | chmod path mode => exact iff_of_true (runVoid_eval _) trivial
  | realpath path => exact iff_of_true (runFs_ret_eval _ _) trivial
  | mkdtemp pre => exact mkdtemp_iff h
  | mkstemp pre => exact mkstemp_iff h
  | symlink target path => exact iff_of_true (runVoid_eval _) trivial
  | readlink path => exact iff_of_true (runFs_ret_eval _ _) trivial
  | access path mode =>
    refine iff_of_true ((runChecked_eval _).trans ?_) trivial
    by_cases hmode : mode = 0
    · simp [hmode,Native.outcome]
    · simp [hmode,Native.outcome,Except.toOption]
  | truncate path len => exact iff_of_true (caught_eval _) trivial
  | utimes path mtime => exact iff_of_true (caught_eval _) trivial
  | openSync path flags => exact iff_of_true (runFs_ret_eval _ _) trivial
  | link existing newPath => exact iff_of_true (runVoid_eval _) trivial
  | glob pattern =>
    refine (Eq.congr_left (runFs_ret_eval _ _)).trans ?_
    cases hthrows : (fs.recursiveDirectoryIterator (globBase pattern)).throws <;>
      simp [Native.outcome,Native.Notices,hthrows,Except.toOption]
  | cp src dest recursive => exact iff_of_true (runVoid_eval _) trivial
  | chown => exact iff_of_true rfl trivial
  | statfs path => exact iff_of_true (runFs_ret_eval _ _) trivial
  | opendir path => exact iff_of_true (runFs_ret_eval _ _) trivial

end outcome

/-- What a script does with files, and how the file system takes it: a native called at once or
through `fs.promises`, or a job with a callback, which is posted and not waited for. -/
inductive Operation
  | sync (fs : Filesystem) (n : Native)
  | promises (fs : Filesystem) (n : Native) (h : n.hasPromise = true)
  | readFile (fs : Filesystem) (path : Bytes)
  | writeFile (fs : Filesystem) (path data : Bytes)
  | opendir (fs : Filesystem) (path : Bytes)

namespace Operation

def action : Operation → Action FsError FsValue
  | sync fs n => .call ⟨false,n.program fs,n.outcome fs⟩
  | promises fs n _ => .call ⟨true,n.program fs,n.outcome fs⟩
  | readFile fs path => .post ((readFileSync fs path).map .bytes)
  | writeFile fs path data => .post ((writeFileSync fs path data).map .bool)
  | opendir fs path => .post ((caught (fs.directoryIterator path)).map .bool)

/-- Nothing throws on the pool outside a `try`, and no failure is let go by. -/
def Reported : Operation → Prop
  | sync fs n => n.Returns fs ∧ n.Notices fs
  | promises fs n _ => n.Returns fs ∧ n.Notices fs
  | readFile fs path => (Native.readFile path).Returns fs
  | writeFile fs path data => (Native.writeFile path data).Returns fs
  | opendir _ _ => True

theorem answers_action (o : Operation) : o.action.answers = false := by cases o <;> rfl

theorem call_harmless_iff (fs : Filesystem) (n : Native) :
    (n.program fs).Quiet ∧ (n.program fs).eval.toOption = n.outcome fs ↔
      n.Returns fs ∧ n.Notices fs := by
  rw [quiet_iff_returns]
  exact and_congr_right outcome_iff_notices

theorem harmless_iff_reported (o : Operation) : Harmless o.action ↔ o.Reported := by
  cases o with
  | sync fs n => exact call_harmless_iff fs n
  | promises fs n _ => exact call_harmless_iff fs n
  | readFile fs path =>
    rw [Reported,← readFileSync_isOk_iff,← isOk_map _ FsValue.bytes,isOk_iff]
    rfl
  | writeFile fs path data =>
    rw [Reported,← quiet_iff_returns,Native.program,nativeWriteFileSync,runChecked_quiet_iff,
      ← isOk_map _ FsValue.bool,isOk_iff]
    rfl
  | opendir fs path =>
    exact iff_of_true ((isOk_iff _).mp ((isOk_map _ _).trans (isOk_caught _))) trivial

end Operation

/-- In all runs made of these operations results and failures reach the caller, every promise is
settled and the process lives, exactly if none of them has the file system throw on the pool and
none lets a failure go by. -/
theorem failures_reach_iff (C : Operation → Prop) :
    (∀ as s, (∀ a ∈ as, a.answers = true ∨ ∃ o, C o ∧ a = o.action) →
      Trace.run step Sys.init as = some s → Reaches s) ↔
    ∀ o, C o → o.Reported := by
  rw [reaches_iff_harmless fun a => ∃ o, C o ∧ a = o.action]
  constructor
  · intro h o ho
    exact o.harmless_iff_reported.mp (h o.action o.answers_action ⟨o,ho,rfl⟩)
  · rintro h a - ⟨o,ho,rfl⟩
    exact o.harmless_iff_reported.mpr (h o ho)

def emptyFilesystem : Filesystem where
  parentPath path := (path.reverse.dropWhile (· ≠ 47)).reverse
  join dir path := dir++ascii "/"++path
  exist _ := .ok false
  remove _ := .ok false
  removeAll _ := .ok 0
  createDirectory _ := .error "cannot create directory"
  createDirectories _ := .error "cannot create directories"
  directoryEntries _ := .error "cannot open directory"
  directoryIterator _ := .error "cannot open directory"
  recursiveDirectoryIterator _ := ⟨[],true⟩
  copyFile _ _ := .error "cannot copy file"
  copy _ _ _ := .error "cannot copy"
  rename _ _ := .error "cannot rename"
  status _ := .ok .notFound
  symlinkStatus _ := .ok .notFound
  fileSize _ := .error "cannot get file size"
  permissions _ _ := .error "cannot set permissions"
  canonical _ := .error "cannot make canonical path"
  tempDirectoryPath := .error "temp_directory_path"
  clock := []
  createSymlink _ _ := .error "cannot create symlink"
  createHardLink _ _ := .error "cannot create hard link"
  readSymlink _ := .error "cannot read symlink"
  resizeFile _ _ := .error "cannot resize file"
  lastWriteTime _ _ := .error "cannot set file time"
  space _ := .error "cannot get free space"
  ifstream _ := none
  ofstream _ _ := none
  append _ _ := none
  create _ := false
  openStream _ _ := false
  vector _ := .ok ()

/-- `fs.promises.rename` of a file that is missing: the process ends, and no promise is
settled. -/
theorem missing_file_terminates :
    ∃ s, Trace.run step Sys.init
        [(Operation.promises emptyFilesystem (.rename (ascii "/a") (ascii "/b")) rfl).action,
          .take,.finish 0] = some s ∧
      s.terminated = true ∧ s.answers.length = 0 ∧ ¬ Reaches s :=
  ⟨_,rfl,rfl,rfl,fun h => nomatch h.alive⟩

end FilePool
end AsioQuickjs
