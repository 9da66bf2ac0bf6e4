import Mathlib.Data.List.Basic

/-! What travels between a submitter and a host: arguments, results and the
oneshot they come back on, with the encoding of a JavaScript result. -/
namespace AsioQuickjs
namespace HostJob

inductive ArgsKind
  | none | string | object | bytes
  deriving DecidableEq

structure Args where
  kind : ArgsKind := .none
  str : String := ""
  bytes : List UInt8 := []
  deriving DecidableEq

inductive ResultKind
  | okString | okBytes | err | cancelled
  deriving DecidableEq

structure Result where
  kind : ResultKind := .err
  str : String := ""
  bytes : List UInt8 := []
  deriving DecidableEq

def makeOkString (s : String) : Result := { kind := .okString, str := s }
def makeOkBytes (b : List UInt8) : Result := { kind := .okBytes, bytes := b }
def makeErr (msg : String) : Result := { kind := .err, str := msg }
def makeCancelled : Result := { kind := .cancelled }

/-- The binary values of JavaScript: an `ArrayBuffer`, a `Uint8Array`, another view. -/
inductive Binary
  | arrayBuffer | uint8Array | otherView
  deriving DecidableEq

/-- A JavaScript value, with what reading it gives. Reading a string can fail;
stringifying throws (`none`), gives something that is no text (`some none`) or text. -/
inductive JsValue
  | exception (text : Option String)
  | undefined | null
  | binary (kind : Binary) (span : List UInt8)
  | string (raw : Option String)
  | structured (json : Option (Option String))
  | other (text : Option String)
  deriving DecidableEq

def encodeResult : JsValue → Result
  | .exception text => makeErr (text.getD "js exception")
  | .undefined => makeOkString ""
  | .null => makeOkString ""
  | .binary kind span =>
    if span = [] ∧ kind = .otherView then makeErr "failed to read binary result"
    else makeOkBytes span
  | .string raw => makeOkString (raw.getD "")
  | .structured none => makeErr "JSON.stringify failed"
  | .structured (some none) => makeErr "JSON.stringify produced non-string"
  | .structured (some (some s)) => makeOkString s
  | .other (some s) => makeOkString s
  | .other none => makeErr "unsupported js return type"

/-- How a call ends for `execute_job`: with a value (an exception included), with
a rejected promise, or with a C++ exception (`none` if it is no `std::exception`). -/
inductive Outcome
  | value (v : JsValue)
  | rejected (reason : Option String)
  | raised (what : Option String)
  deriving DecidableEq

/-- The reply `execute_job` makes of it. -/
def Outcome.answer : Outcome → Result
  | .value v => encodeResult v
  | .rejected reason => makeErr (reason.getD "promise rejected")
  | .raised what => makeErr (what.getD "unknown error in job")

theorem answer_kind (o : Outcome) : o.answer.kind ≠ .cancelled := by
  cases o with
  | value v =>
    simp only [Outcome.answer]
    fun_cases encodeResult v <;> simp [makeErr,makeOkString,makeOkBytes]
  | rejected reason => simp [Outcome.answer,makeErr]
  | raised what => simp [Outcome.answer,makeErr]

/-- The oneshot as its sender holds it. -/
structure Reply where
  attached : Bool := true
  value : Option Result := none
  sent : Bool := false
  closed : Bool := false
  deriving DecidableEq

def Reply.send (p : Reply) (r : Result) : Bool × Reply :=
  if p.attached = false then (false,p)
  else if p.sent ∨ p.closed then (false,p)
  else (true,{ p with attached := false, value := some r, sent := true })

def Reply.close (p : Reply) : Reply :=
  if p.attached = false then p
  else if p.closed ∨ p.sent then { p with attached := false }
  else { p with attached := false, closed := true }

/-- Nothing sent and nothing closed. -/
def Reply.Open (p : Reply) : Prop := p = {}

/-- Holds the result `r` for its receiver, and always will. -/
def Reply.Holds (p : Reply) (r : Result) : Prop :=
  p.attached = false ∧ p.value = some r ∧ p.sent = true ∧ p.closed = false

theorem send_open {p : Reply} (h : p.Open) (r : Result) :
    (p.send r).1 = true ∧ (p.send r).2.Holds r := by
  rw [Reply.Open] at h
  subst h
  simp [Reply.send,Reply.Holds]

theorem close_holds {p : Reply} {r : Result} (h : p.Holds r) : p.close = p := by
  simp [Reply.close,h.1]

end HostJob
end AsioQuickjs
