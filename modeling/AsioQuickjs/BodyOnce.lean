import AsioQuickjs.Trace
import Mathlib.Data.List.Infix
import Mathlib.Logic.Function.Basic

/-! The readers of a `Request` and of a `Response`: `text`, `json`, `arrayBuffer`, `blob`,
`bytes` and `formData`, each with its own test of `bodyUsed` and its own mark, and `clone`. -/
namespace AsioQuickjs
namespace BodyOnce

inductive Consumer
  | text | json | arrayBuffer | blob | bytes | formData
  deriving DecidableEq

/-- What a reader rejects with or throws: an error of its own, the reason of the abort signal,
or what a conversion throws. -/
inductive Failure (E : Type)
  | alreadyRead | unexpectedEnd | notFormData | invalidStatus | invalidStatusText | nullBodyStatus
  | aborted (reason : E) | conversion (e : E)
  deriving DecidableEq

/-- What a call comes to. -/
inductive Outcome (V E : Type)
  | fulfilled (v : V)
  | rejected (f : Failure E)
  | thrown (f : Failure E)
  deriving DecidableEq

variable {C V E : Type}

/-- The conversions behind the readers, from a content `C` to values `V`. Those that can throw
are `encodeURIComponent`, `JSON.parse` and `decodeURIComponent`. -/
structure Codec (C V E : Type) where
  emptyString : C
  isString : C → Bool
  text : C → V
  raw : C → V
  arrayBuffer : C → Except E V
  blob : V → V
  bytes : V → V
  parse : V → Except E V
  form : C → Except E V
  ofNull : Consumer → V

inductive Kind
  | request | response
  deriving DecidableEq

/-- `body` is `none` for `null`, `contentType` is the header, and the last three fields are
those of a response: its `_abortSignal`, `status` and `statusText`. -/
structure Body (C : Type) where
  kind : Kind
  body : Option C
  bodyUsed : Bool := false
  contentType : Option String := none
  signal : Option ℕ := none
  status : ℤ := 200
  statusText : String := ""

namespace Body

/-- The test for `application/x-www-form-urlencoded`. -/
def isForm (b : Body C) : Bool :=
  decide ("application/x-www-form-urlencoded".toList <:+:
    (b.contentType.getD "").toList.map Char.toLower)

def setBodyUsed (b : Body C) : Body C := { b with bodyUsed := true }

/-- A script sets the header, `status` and `statusText`. -/
def write (b : Body C) (contentType : Option String) (status : ℤ) (statusText : String) : Body C :=
  { b with contentType := contentType, status := status, statusText := statusText }

def settle (p : Except (Failure E) V) : Outcome V E :=
  match p with
  | .ok v => .fulfilled v
  | .error f => .rejected f

/-- `_consume`. -/
def consume (b : Body C) : Body C × Except (Failure E) (Option C) :=
  if b.bodyUsed then (b,.error .alreadyRead)
  else
    match b.body with
    | none => (b,.ok none)
    | some c => (b.setBodyUsed,.ok (some c))

section request

variable (k : Codec C V E) (b : Body C)

def requestText : Body C × Except (Failure E) V :=
  let (b,p) := b.consume
  (b,p.map fun s => k.text (s.getD k.emptyString))

def requestArrayBuffer : Body C × Except (Failure E) V :=
  let (b,p) := b.consume
  (b,p.bind fun s => (k.arrayBuffer (s.getD k.emptyString)).mapError .conversion)

def requestBlob : Body C × Except (Failure E) V :=
  let (b,p) := b.requestText k
  (b,p.map k.blob)

def requestBytes : Body C × Except (Failure E) V :=
  let (b,p) := b.requestArrayBuffer k
  (b,p.map k.bytes)

def requestJson : Body C × Except (Failure E) V :=
  if b.bodyUsed then (b,.error .alreadyRead)
  else if b.body.isNone then (b,.error .unexpectedEnd)
  else
    let (b,p) := b.requestText k
    (b,p.bind fun s => (k.parse s).mapError .conversion)

/-- What both classes do with a body that is form data: what `decodeURIComponent` throws is
thrown by the call. -/
def readForm (c : C) : Body C × Outcome V E :=
  match k.form c with
  | .ok v => (b.setBodyUsed,.fulfilled v)
  | .error e => (b.setBodyUsed,.thrown (.conversion e))

def requestFormData : Body C × Outcome V E :=
  if b.bodyUsed then (b,.rejected .alreadyRead)
  else
    match b.body with
    | none => if b.isForm then (b,.fulfilled (k.ofNull .formData)) else (b,.rejected .notFormData)
    | some c => if b.isForm then b.readForm k c else (b,.rejected .notFormData)

def callRequest : Consumer → Body C × Outcome V E
  | .text => (b.requestText k).map id settle
  | .json => (b.requestJson k).map id settle
  | .arrayBuffer => (b.requestArrayBuffer k).map id settle
  | .blob => (b.requestBlob k).map id settle
  | .bytes => (b.requestBytes k).map id settle
  | .formData => b.requestFormData k

end request

section response

variable (k : Codec C V E) (b : Body C)

def responseText : Body C × Except (Failure E) V :=
  let (b,p) := b.consume
  (b,p.map fun s => (s.map k.text).getD (k.ofNull .text))

/-- Takes the body without `_consume`, and tests for null before `bodyUsed`. -/
def responseJson : Body C × Except (Failure E) V :=
  match b.body with
  | none => (b,.error .unexpectedEnd)
  | some c =>
    if b.bodyUsed then (b,.error .alreadyRead)
    else (b.setBodyUsed,(k.parse (k.text c)).mapError .conversion)

def responseArrayBuffer : Body C × Except (Failure E) V :=
  let (b,p) := b.consume
  (b,p.bind fun s =>
    match s with
    | none => .ok (k.ofNull .arrayBuffer)
    | some c => (k.arrayBuffer c).mapError .conversion)

def responseBlob : Body C × Except (Failure E) V :=
  let (b,p) := b.consume
  (b,p.map fun s => (s.map fun c => k.blob (k.raw c)).getD (k.ofNull .blob))

def responseBytes : Body C × Except (Failure E) V :=
  let (b,p) := b.consume
  (b,p.map fun s => (s.map k.raw).getD (k.ofNull .bytes))

def responseFormData : Body C × Outcome V E :=
  match b.body with
  | none => if b.isForm then (b,.fulfilled (k.ofNull .formData)) else (b,.rejected .notFormData)
  | some c =>
    if b.bodyUsed then (b,.rejected .alreadyRead)
    else if b.isForm then b.readForm k c
    else (b,.rejected .notFormData)

/-- `_checkAbort` comes first in every reader of a response. -/
def callResponse (reason : Option E) (m : Consumer) : Body C × Outcome V E :=
  match reason with
  | some e => (b,.rejected (.aborted e))
  | none =>
    match m with
    | .text => (b.responseText k).map id settle
    | .json => (b.responseJson k).map id settle
    | .arrayBuffer => (b.responseArrayBuffer k).map id settle
    | .blob => (b.responseBlob k).map id settle
    | .bytes => (b.responseBytes k).map id settle
    | .formData => b.responseFormData k

end response

/-- The content type that `extractBody` gives the body of a copy, if the headers have none. -/
def extractContentType (k : Codec C V E) (b : Body C) : Option String :=
  b.contentType.orElse fun _ =>
    b.body.bind fun c => if k.isString c then some "text/plain;charset=UTF-8" else none

def isInvalidStatusText (c : Char) : Bool := 0xff < c.toNat ∨ c = '\n' ∨ c = '\r'

/-- `clone`: a request is the input of another one, which disturbs it, a response is built
anew from its parts. -/
def clone (k : Codec C V E) (b : Body C) : Body C × Except (Failure E) (Body C) :=
  if b.bodyUsed then (b,.error .alreadyRead)
  else
    let copy := { b with contentType := b.extractContentType k }
    match b.kind with
    | .request => (if b.body.isSome then b.setBodyUsed else b,.ok copy)
    | .response =>
      if b.status < 200 ∨ 599 < b.status then (b,.error .invalidStatus)
      else if b.statusText.toList.any isInvalidStatusText then (b,.error .invalidStatusText)
      else if b.body.isSome ∧ (b.status = 204 ∨ b.status = 205 ∨ b.status = 304) then
        (b,.error .nullBodyStatus)
      else (b,.ok copy)

/-- The call rejects and leaves the body alone, or the body is null and left alone, or a body
that was not used is taken; then it is not the signal or the content type that it rejects for. -/
structure Calls (b b' : Body C) (o : Outcome V E) : Prop where
  cases : (b' = b ∧ ∃ f, o = .rejected f) ∨ (b' = b ∧ b.body = none) ∨
    b' = b.setBodyUsed ∧ b.bodyUsed = false ∧ b.body ≠ none ∧ o ≠ .rejected .notFormData ∧
      ∀ e, o ≠ .rejected (.aborted e)

theorem consume_used {b : Body C} (h : b.bodyUsed = true) :
    (b.consume : Body C × Except (Failure E) (Option C)) = (b,.error .alreadyRead) := if_pos h

theorem consume_null {b : Body C} (h : b.bodyUsed = false) (hb : b.body = none) :
    (b.consume : Body C × Except (Failure E) (Option C)) = (b,.ok none) := by
  simp [consume,h,hb]

theorem consume_some {b : Body C} {c : C} (h : b.bodyUsed = false) (hb : b.body = some c) :
    (b.consume : Body C × Except (Failure E) (Option C)) = (b.setBodyUsed,.ok (some c)) := by
  simp [consume,h,hb]

theorem Calls.rejects {b : Body C} (f : Failure E) : Calls b b (.rejected f : Outcome V E) :=
  ⟨.inl ⟨rfl,f,rfl⟩⟩

theorem Calls.null {b : Body C} (hb : b.body = none) (o : Outcome V E) : Calls b b o :=
  ⟨.inr (.inl ⟨rfl,hb⟩)⟩

theorem Calls.takes {b : Body C} {c : C} (hu : b.bodyUsed = false) (hb : b.body = some c)
    {p : Except E V} {o : Outcome V E} (ho : o = settle (p.mapError .conversion)) :
    Calls b b.setBodyUsed o := by
  refine ⟨.inr (.inr ⟨rfl,hu,by simp [hb],?_⟩)⟩
  subst ho
  cases p <;> simp [settle,Except.mapError]

theorem calls_readForm (k : Codec C V E) {b : Body C} {c : C} (hu : b.bodyUsed = false)
    (hb : b.body = some c) : Calls b (b.readForm k c).1 (b.readForm k c).2 := by
  refine ⟨.inr (.inr ?_)⟩
  cases hf : k.form c <;> simp [readForm,hf,hu,hb]

theorem calls_request (k : Codec C V E) (b : Body C) (m : Consumer) :
    Calls b (b.callRequest k m).1 (b.callRequest k m).2 := by
  cases hu : b.bodyUsed with
  | true =>
    have hused := @consume_used C E b hu
    cases m with
    | json => simpa [callRequest,requestJson,hu,settle] using Calls.rejects _
    | formData => simpa [callRequest,requestFormData,hu] using Calls.rejects _
    | _ =>
      simpa [callRequest,requestText,requestArrayBuffer,requestBlob,requestBytes,hused,settle,
        Except.map,Except.bind] using Calls.rejects _
  | false =>
    cases hb : b.body with
    | none =>
      have hnull := @consume_null C E b hu hb
      cases m with
      | json => simpa [callRequest,requestJson,hu,hb] using Calls.null hb _
      | formData =>
        simp only [callRequest,requestFormData,hu,hb,Bool.false_eq_true,if_false]
        split <;> exact Calls.null hb _
      | _ =>
        simpa [callRequest,requestText,requestArrayBuffer,requestBlob,requestBytes,hnull] using
          Calls.null hb _
    | some c =>
      have takes : ∀ (p : Except E V) {o : Outcome V E}, o = settle (p.mapError .conversion) →
          Calls b b.setBodyUsed o := fun p _ ho => Calls.takes hu hb ho
      have htaken := @consume_some C E b c hu hb
      have htext : b.requestText k = (b.setBodyUsed,.ok (k.text c)) := by
        simp [requestText,htaken,Except.map]
      have hbuffer : b.requestArrayBuffer k =
          (b.setBodyUsed,(k.arrayBuffer c).mapError .conversion) := by
        simp [requestArrayBuffer,htaken,Except.bind]
      cases m with
      | text =>
        simp only [callRequest,htext]
        exact takes (.ok (k.text c)) rfl
      | json =>
        simp only [callRequest,requestJson,htext,hu,hb,Bool.false_eq_true,if_false]
        exact takes (k.parse (k.text c)) rfl
      | arrayBuffer =>
        simp only [callRequest,hbuffer]
        exact takes (k.arrayBuffer c) rfl
      | blob =>
        simp only [callRequest,requestBlob,htext]
        exact takes (.ok (k.blob (k.text c))) rfl
      | bytes =>
        simp only [callRequest,requestBytes,hbuffer]
        refine takes ((k.arrayBuffer c).map k.bytes) ?_
        cases k.arrayBuffer c <;> rfl
      | formData =>
        simp only [callRequest,requestFormData,hu,hb,Bool.false_eq_true,if_false]
        split
        · exact calls_readForm k hu hb
        · exact Calls.rejects _

theorem calls_response (k : Codec C V E) (b : Body C) (reason : Option E) (m : Consumer) :
    Calls b (b.callResponse k reason m).1 (b.callResponse k reason m).2 := by
  cases reason with
  | some e => exact Calls.rejects (.aborted e)
  | none =>
    cases hb : b.body with
    | none =>
      have hconsume : (b.consume : Body C × Except (Failure E) (Option C)).1 = b := by
        simp only [consume,hb]
        split <;> rfl
      cases m with
      | json => simpa [callResponse,responseJson,hb] using Calls.null hb _
      | formData =>
        simp only [callResponse,responseFormData,hb]
        split <;> exact Calls.null hb _
      | _ =>
        simpa [callResponse,responseText,responseArrayBuffer,responseBlob,responseBytes,hconsume]
          using Calls.null hb _
    | some c =>
      cases hu : b.bodyUsed with
      | true =>
        have hused := @consume_used C E b hu
        cases m with
        | json => simpa [callResponse,responseJson,hb,hu,settle] using Calls.rejects _
        | formData => simpa [callResponse,responseFormData,hb,hu] using Calls.rejects _
        | _ =>
          simpa [callResponse,responseText,responseArrayBuffer,responseBlob,responseBytes,hused,
            settle,Except.map,Except.bind] using Calls.rejects _
      | false =>
        have takes : ∀ (p : Except E V) {o : Outcome V E}, o = settle (p.mapError .conversion) →
            Calls b b.setBodyUsed o := fun p _ ho => Calls.takes hu hb ho
        have htaken := @consume_some C E b c hu hb
        cases m with
        | text =>
          simp only [callResponse,responseText,htaken]
          exact takes (.ok (k.text c)) rfl
        | json =>
          simp only [callResponse,responseJson,hb,hu,Bool.false_eq_true,if_false]
          exact takes (k.parse (k.text c)) rfl
        | arrayBuffer =>
          simp only [callResponse,responseArrayBuffer,htaken]
          exact takes (k.arrayBuffer c) rfl
        | blob =>
          simp only [callResponse,responseBlob,htaken]
          exact takes (.ok (k.blob (k.raw c))) rfl
        | bytes =>
          simp only [callResponse,responseBytes,htaken]
          exact takes (.ok (k.raw c)) rfl
        | formData =>
          simp only [callResponse,responseFormData,hb,hu,Bool.false_eq_true,if_false]
          split
          · exact calls_readForm k hu hb
          · exact Calls.rejects _

end Body

/-- The objects that a script has made, and the reasons of the signals that are aborted. -/
structure World (C E : Type) where
  bodies : ℕ → Body C
  count : ℕ := 0
  reasons : ℕ → Option E := fun _ => none

inductive Action (C E : Type)
  | create (b : Body C)
  | call (i : ℕ) (m : Consumer)
  | clone (i : ℕ)
  | write (i : ℕ) (contentType : Option String) (status : ℤ) (statusText : String)
  | abort (signal : ℕ) (reason : E)

inductive Event (V E : Type)
  | called (i : ℕ) (m : Consumer) (o : Outcome V E)
  | cloned (i : ℕ) (failure : Option (Failure E))

namespace World

def reason (w : World C E) (b : Body C) : Option E := b.signal.bind w.reasons

def call (k : Codec C V E) (w : World C E) (i : ℕ) (m : Consumer) : Body C × Outcome V E :=
  match (w.bodies i).kind with
  | .request => (w.bodies i).callRequest k m
  | .response => (w.bodies i).callResponse k (w.reason (w.bodies i)) m

def setBody (w : World C E) (i : ℕ) (b : Body C) : World C E :=
  { w with bodies := Function.update w.bodies i b }

def add (w : World C E) (b : Body C) : World C E :=
  { w.setBody w.count b with count := w.count+1 }

end World

/-- A script makes objects, calls their readers, clones them, changes their headers and
status, and aborts signals; it does not write `bodyUsed`. -/
def step (k : Codec C V E) (w : World C E) : Action C E → Option (World C E)
  | .create b => if b.bodyUsed then none else some (w.add b)
  | .call i m => if i < w.count then some (w.setBody i (w.call k i m).1) else none
  | .clone i =>
    if i < w.count then
      match (w.bodies i).clone k with
      | (b,.ok c) => some ((w.setBody i b).add c)
      | (_,.error _) => some w
    else none
  | .write i contentType status statusText =>
    if i < w.count then some (w.setBody i ((w.bodies i).write contentType status statusText))
    else none
  | .abort s reason =>
    some { w with reasons := Function.update w.reasons s (some ((w.reasons s).getD reason)) }

def events (k : Codec C V E) (w : World C E) : Action C E → List (Event V E)
  | .call i m => [.called i m (w.call k i m).2]
  | .clone i =>
    match ((w.bodies i).clone k).2 with
    | .ok _ => [.cloned i none]
    | .error f => [.cloned i (some f)]
  | _ => []

def start : World C E := { bodies := fun _ => { kind := .request, body := none } }

def Event.fulfils (i : ℕ) : Event V E → Bool
  | .called j _ (.fulfilled _) => j = i
  | _ => false

/-- What the event says of the object is that it has been read. -/
def Event.Refuses (i : ℕ) : Event V E → Prop
  | .called j _ o => j = i → ∃ f, o = .rejected f
  | .cloned j failure => j = i → failure = some .alreadyRead

theorem World.calls (k : Codec C V E) (w : World C E) (i : ℕ) (m : Consumer) :
    Body.Calls (w.bodies i) (w.call k i m).1 (w.call k i m).2 := by
  unfold World.call
  split
  · exact Body.calls_request k _ m
  · exact Body.calls_response k _ _ m

theorem clone_ok {k : Codec C V E} {b b' c : Body C} (h : b.clone k = (b',.ok c)) :
    b.bodyUsed = false ∧ c = { b with contentType := b.extractContentType k } ∧
      (b' = b ∨ b' = b.setBodyUsed ∧ b.body ≠ none) := by
  unfold Body.clone at h
  split at h
  · simp at h
  · next hu =>
    refine ⟨Bool.not_eq_true _ ▸ hu,?_⟩
    dsimp only at h
    split at h
    · simp only [Prod.mk.injEq,Except.ok.injEq] at h
      obtain ⟨rfl,rfl⟩ := h
      refine ⟨rfl,?_⟩
      split
      · next hsome => exact .inr ⟨rfl,Option.isSome_iff_ne_none.mp hsome⟩
      · exact .inl rfl
    · -- a response is left as it is, whether its parts pass the constructor or not
      repeat' split at h
      all_goals simp only [Prod.mk.injEq,reduceCtorEq,and_false,Except.ok.injEq] at h
      exact ⟨h.2.symm,.inl h.1.symm⟩

theorem clone_used {k : Codec C V E} {b : Body C} (h : b.bodyUsed = true) :
    b.clone k = (b,.error .alreadyRead) := if_pos h

/-- What a step does to an object that was there: its body stays, and it is either as used as
before, and fulfils nothing unless the body is null, or it is used now and fulfils once. -/
structure Moves (b b' : Body C) (fulfilled : ℕ) : Prop where
  body : b'.body = b.body
  used : (b'.bodyUsed = b.bodyUsed ∧ (fulfilled = 0 ∨ b.body = none)) ∨
    (b.body ≠ none ∧ b.bodyUsed = false ∧ b'.bodyUsed = true ∧ fulfilled ≤ 1)

theorem Moves.refl (b : Body C) : Moves b b 0 := ⟨rfl,.inl ⟨rfl,.inl rfl⟩⟩

theorem Body.Calls.moves {b b' : Body C} {i : ℕ} {m : Consumer} {o : Outcome V E}
    (h : Body.Calls b b' o) : Moves b b' (([Event.called i m o]).countP (Event.fulfils i)) := by
  rcases h.cases with ⟨rfl,f,rfl⟩ | ⟨rfl,hnone⟩ | ⟨rfl,hu,hb,-⟩
  · exact Moves.refl _
  · exact ⟨rfl,.inl ⟨rfl,.inr hnone⟩⟩
  · exact ⟨rfl,.inr ⟨hb,hu,rfl,List.countP_le_length⟩⟩

theorem step_moves {k : Codec C V E} {w w' : World C E} {a : Action C E}
    (hs : step k w a = some w') (j : ℕ) :
    (Moves (w.bodies j) (w'.bodies j) ((events k w a).countP (Event.fulfils j)) ∧
        (w.count ≤ j → (events k w a).countP (Event.fulfils j) = 0)) ∨
      j = w.count ∧ j < w'.count ∧ (w'.bodies j).bodyUsed = false ∧
        (events k w a).countP (Event.fulfils j) = 0 := by
  cases a with
  | create b =>
    simp only [step,Option.ite_none_left_eq_some,Option.some.injEq] at hs
    obtain ⟨hu,rfl⟩ := hs
    by_cases hj : j = w.count
    · right
      subst hj
      simpa [World.add,World.setBody,events] using hu
    · left
      simpa [World.add,World.setBody,events,hj] using Moves.refl _
  | call i m =>
    simp only [step,Option.ite_none_right_eq_some,Option.some.injEq] at hs
    obtain ⟨hi,rfl⟩ := hs
    left
    by_cases hj : j = i
    · subst hj
      refine ⟨?_,fun hle => absurd hi (Nat.not_lt.mpr hle)⟩
      simpa [World.setBody,events] using (World.calls k w j m).moves (i := j) (m := m)
    · have hnone : (events k w (.call i m)).countP (Event.fulfils j) = 0 := by
        cases ho : (w.call k i m).2 <;> simp [events,Event.fulfils,ho,Ne.symm hj]
      rw [hnone]
      simpa [World.setBody,hj] using Moves.refl _
  | clone i =>
    simp only [step,Option.ite_none_right_eq_some] at hs
    obtain ⟨hi,hs⟩ := hs
    have hnone : (events k w (.clone i)).countP (Event.fulfils j) = 0 := by
      simp only [events]
      split <;> rfl
    rw [hnone]
    cases hc : (w.bodies i).clone k with
    | mk b r =>
      rw [hc] at hs
      cases r with
      | error f =>
        obtain rfl := Option.some.inj hs
        exact .inl ⟨Moves.refl _,fun _ => rfl⟩
      | ok c =>
        obtain rfl := Option.some.inj hs
        obtain ⟨hu,rfl,hb⟩ := clone_ok hc
        by_cases hj : j = w.count
        · right
          subst hj
          simpa [World.add,World.setBody] using hu
        · left
          by_cases hji : j = i
          · subst hji
            have hmoves : Moves (w.bodies j) b 0 := by
              rcases hb with rfl | ⟨rfl,hne⟩
              · exact Moves.refl _
              · exact ⟨rfl,.inr ⟨hne,hu,rfl,by simp⟩⟩
            simpa [World.add,World.setBody,hj] using hmoves
          · simpa [World.add,World.setBody,hj,hji] using Moves.refl _
  | write i ct status st =>
    simp only [step,Option.ite_none_right_eq_some,Option.some.injEq] at hs
    obtain ⟨hi,rfl⟩ := hs
    left
    by_cases hj : j = i
    · subst hj
      have hmoves : Moves (w.bodies j) ((w.bodies j).write ct status st) 0 :=
        ⟨rfl,.inl ⟨rfl,.inl rfl⟩⟩
      simpa [World.setBody,events] using hmoves
    · simpa [World.setBody,events,hj] using Moves.refl _
  | abort s reason =>
    obtain rfl := Option.some.inj hs
    left
    simpa [events] using Moves.refl _

theorem count_le_of_step {k : Codec C V E} {w w' : World C E} {a : Action C E}
    (hs : step k w a = some w') : w.count ≤ w'.count := by
  cases a <;> simp only [step] at hs
  case create b =>
    obtain ⟨-,h⟩ := Option.ite_none_left_eq_some.mp hs
    obtain rfl := Option.some.inj h
    exact Nat.le_succ _
  case call i m =>
    obtain ⟨-,h⟩ := Option.ite_none_right_eq_some.mp hs
    obtain rfl := Option.some.inj h
    exact Nat.le_refl _
  case clone i =>
    obtain ⟨-,h⟩ := Option.ite_none_right_eq_some.mp hs
    split at h <;> obtain rfl := Option.some.inj h
    · exact Nat.le_succ _
    · exact Nat.le_refl _
  case write i ct status st =>
    obtain ⟨-,h⟩ := Option.ite_none_right_eq_some.mp hs
    obtain rfl := Option.some.inj h
    exact Nat.le_refl _
  case abort sig reason =>
    obtain rfl := Option.some.inj hs
    exact Nat.le_refl _

/-- An object that holds a body has fulfilled at most one reader, none while it is unused, and
one that holds none is never used. -/
structure Readable (w : World C E) (l : List (Event V E)) : Prop where
  null : ∀ i, (w.bodies i).body = none → (w.bodies i).bodyUsed = false
  once : ∀ i, (w.bodies i).body ≠ none → l.countP (Event.fulfils i) ≤ (w.bodies i).bodyUsed.toNat
  fresh : ∀ i, w.count ≤ i → (w.bodies i).body = none ∧ l.countP (Event.fulfils i) = 0

theorem readable_start : Readable (start : World C E) ([] : List (Event V E)) :=
  ⟨fun _ _ => rfl,fun _ _ => Nat.zero_le _,fun _ _ => ⟨rfl,rfl⟩⟩

theorem readable_step (k : Codec C V E) (w : World C E) (a : Action C E) (w' : World C E)
    (l : List (Event V E)) (h : Readable w l) (hs : step k w a = some w') :
    Readable w' (l++events k w a) := by
  have hcount := count_le_of_step hs
  refine ⟨fun j hnone => ?_,fun j hsome => ?_,fun j hj => ?_⟩
  · rcases step_moves hs j with ⟨hm,-⟩ | ⟨-,-,hu,-⟩
    · rw [hm.body] at hnone
      rcases hm.used with ⟨hsame,-⟩ | ⟨hne,-⟩
      · rw [hsame]
        exact h.null j hnone
      · exact absurd hnone hne
    · exact hu
  · rw [List.countP_append]
    rcases step_moves hs j with ⟨hm,-⟩ | ⟨hj,-,hu,hzero⟩
    · rw [hm.body] at hsome
      have hold := h.once j hsome
      rcases hm.used with ⟨hsame,hzero | hnone⟩ | ⟨-,hunused,hused,hone⟩
      · rw [hsame,hzero]
        exact hold
      · exact absurd hnone hsome
      · rw [hunused,Bool.toNat_false] at hold
        rw [hused,Bool.toNat_true]
        omega
    · rw [hzero,(h.fresh j (Nat.le_of_eq hj.symm)).2]
      exact Nat.zero_le _
  · have hold := Nat.le_trans hcount hj
    obtain ⟨hnone,hzero⟩ := h.fresh j hold
    rcases step_moves hs j with ⟨hm,hnow⟩ | ⟨-,hlt,-⟩
    · rw [hm.body,List.countP_append,hzero,hnow hold]
      exact ⟨hnone,rfl⟩
    · exact absurd hj (Nat.not_le.mpr hlt)

/-- The object is there, holds a body and has been used. -/
structure Used (w : World C E) (i : ℕ) : Prop where
  there : i < w.count
  body : (w.bodies i).body ≠ none
  used : (w.bodies i).bodyUsed = true

theorem used_step {k : Codec C V E} {w w' : World C E} {a : Action C E} {i : ℕ} (h : Used w i)
    (hs : step k w a = some w') : Used w' i ∧ ∀ v ∈ events k w a, v.Refuses i := by
  refine ⟨?_,?_⟩
  · rcases step_moves hs i with ⟨hm,-⟩ | ⟨hi,-⟩
    · refine ⟨Nat.lt_of_lt_of_le h.there (count_le_of_step hs),by rw [hm.body]; exact h.body,?_⟩
      rcases hm.used with ⟨hsame,-⟩ | ⟨-,-,hused,-⟩
      · rw [hsame]
        exact h.used
      · exact hused
    · exact absurd hi (Nat.ne_of_lt h.there)
  · intro v hv
    cases a with
    | call j m =>
      obtain rfl := List.mem_singleton.mp hv
      rintro rfl
      rcases (World.calls k w j m).cases with ⟨-,hrejected⟩ | ⟨-,hnone⟩ | ⟨-,hunused,-⟩
      · exact hrejected
      · exact absurd hnone h.body
      · rw [h.used] at hunused
        cases hunused
    | clone j =>
      by_cases hj : j = i
      · subst hj
        rw [events,clone_used h.used] at hv
        obtain rfl := List.mem_singleton.mp hv
        exact fun _ => rfl
      · simp only [events] at hv
        split at hv <;> obtain rfl := List.mem_singleton.mp hv <;> exact fun he => absurd he hj
    | _ => simp [events] at hv

theorem used_run {k : Codec C V E} {w w' : World C E} {bs : List (Action C E)} {i : ℕ}
    (h : Used w i) (hs : Trace.run (step k) w bs = some w') :
    Used w' i ∧ ∀ v ∈ Trace.log (step k) (events k) w bs, v.Refuses i := by
  have hall := Trace.run_keeps_log (I := fun w l => Used w i ∧ ∀ v ∈ l, Event.Refuses i v)
    (fun w a w' l hw hstep => by
      obtain ⟨hused,hrefuses⟩ := used_step hw.1 hstep
      refine ⟨hused,fun v hv => ?_⟩
      rcases List.mem_append.mp hv with hold | hnew
      · exact hw.2 v hold
      · exact hrefuses v hnew)
    (l := []) ⟨h,by simp⟩ hs
  simpa using hall

theorem used_of_rejected {k : Codec C V E} {w w' : World C E} {i : ℕ} {m : Consumer} {f : Failure E}
    (hs : step k w (.call i m) = some w') (ho : (w.call k i m).2 = .rejected f)
    (hf : f = .notFormData ∨ ∃ e, f = .aborted e) : w'.bodies i = w.bodies i := by
  simp only [step,Option.ite_none_right_eq_some,Option.some.injEq] at hs
  obtain ⟨-,rfl⟩ := hs
  have hsame : (w.call k i m).1 = w.bodies i := by
    rcases (World.calls k w i m).cases with ⟨hsame,-⟩ | ⟨hsame,-⟩ | ⟨-,-,-,hform,haborted⟩
    · exact hsame
    · exact hsame
    · rcases hf with rfl | ⟨e,rfl⟩
      · exact absurd ho hform
      · exact absurd ho (haborted e)
  simp [World.setBody,hsame]

/-- Of an object that holds a body at most one reader is ever fulfilled; once it is used it
stays so, and from then on its readers reject and its clone throws; a call rejected for the
signal or the content type leaves it as it is; and one that holds none is never used. -/
theorem readable_once (k : Codec C V E) {w : World C E} {as : List (Action C E)}
    (h : Trace.run (step k) start as = some w) :
    (∀ i, (w.bodies i).body ≠ none →
      (Trace.log (step k) (events k) start as).countP (Event.fulfils i) ≤ 1) ∧
    (∀ i, (w.bodies i).bodyUsed = true → ∀ bs w', Trace.run (step k) w bs = some w' →
      (w'.bodies i).bodyUsed = true ∧ ∀ v ∈ Trace.log (step k) (events k) w bs, v.Refuses i) ∧
    (∀ i m w' f, step k w (.call i m) = some w' → (w.call k i m).2 = .rejected f →
      (f = .notFormData ∨ ∃ e, f = .aborted e) → w'.bodies i = w.bodies i) ∧
    ∀ i, (w.bodies i).body = none → (w.bodies i).bodyUsed = false := by
  have hreadable : Readable w (Trace.log (step k) (events k) start as) := by
    simpa using Trace.run_keeps_log (readable_step k) readable_start h
  refine ⟨fun i hsome => ?_,fun i hused bs w' hbs => ?_,fun i m w' f hs ho hf => ?_,
    hreadable.null⟩
  · exact Nat.le_trans (hreadable.once i hsome) (Bool.toNat_le _)
  · have hsome : (w.bodies i).body ≠ none := by
      intro hnone
      rw [hreadable.null i hnone] at hused
      cases hused
    have hthere : i < w.count := by
      by_contra hge
      exact hsome (hreadable.fresh i (Nat.not_lt.mp hge)).1
    obtain ⟨hstill,hrefuses⟩ := used_run ⟨hthere,hsome,hused⟩ hbs
    exact ⟨hstill.used,hrefuses⟩
  · exact used_of_rejected hs ho hf

/-- A response is cloned, read as text and refuses to be read as JSON; its clone is read. -/
theorem readable_once_sample :
    let k : Codec Bool Bool Unit := {
      emptyString := false, isString := fun _ => true, text := id, raw := id, arrayBuffer := .ok,
      blob := id, bytes := id, parse := .ok, form := .ok, ofNull := fun _ => false }
    let as := [.create { kind := .response, body := some true },.clone 0,.call 0 .text]
    ∃ w, Trace.run (step k) start as = some w ∧
      (Trace.log (step k) (events k) start as).countP (Event.fulfils 0) ≤ 1 ∧
      ∀ w', Trace.run (step k) w [.call 0 .json,.clone 0,.call 1 .json] = some w' →
        (w'.bodies 0).bodyUsed = true := by
  intro k as
  refine ⟨_,rfl,?_⟩
  obtain ⟨hone,hused,-⟩ := readable_once k (rfl : Trace.run (step k) start as = some _)
  exact ⟨hone 0 (by decide),fun w' h => (hused 0 (by decide) _ w' h).1⟩

end BodyOnce
end AsioQuickjs
