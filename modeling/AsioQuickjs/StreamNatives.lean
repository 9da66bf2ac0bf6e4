import AsioQuickjs.HttpHost
import AsioQuickjs.Trace

/-! The object that a native function finds behind the opaque pointer of the context. While
the callback of a stream runs, `native_stream` has put its session there in the host's
place, so the functions of a stream and those of the host never find theirs at one time.
The session comes from an address in the script's global object, which holds nothing: the
session lives as long as the table of the host or one of its own operations holds it. -/
namespace AsioQuickjs
namespace StreamNatives

open Trace HttpHost

variable {S : Type}

/-- What the opaque pointer can point to: `freed` is where a session was. -/
inductive Object (S : Type)
  | host
  | session (session : S)
  | freed
  deriving DecidableEq

/-- An asynchronous operation of a session, whose handler holds the session. -/
inductive Operation
  | read
  | response
  | head
  | last
  deriving DecidableEq

/-- A call of `native_stream` whose callback runs: the host it was given and the object at
the address in the global object. -/
structure Frame (S : Type) where
  host : Object S
  session : Object S
  deriving DecidableEq

structure Context (S : Type) extends Host S where
  contextOpaque : Object S := .host
  /-- The innermost call first. -/
  frames : List (Frame S) := []
  operations : List (S × Operation) := []

/-- The session has not been freed. -/
def Context.Alive (c : Context S) (session : S) : Prop :=
  session ∈ c.httpConnections.entries.map (·.2) ∨ session ∈ c.operations.map Prod.fst

instance [DecidableEq S] (c : Context S) (session : S) : Decidable (c.Alive session) :=
  inferInstanceAs (Decidable (_ ∨ _))

/-- The context and what runs in it: the sessions, the session of each request, the requests
whose handlers have not settled, and for each call of `stream` the session of the request
whose handler made it. Each native function that is called adds the object it pulls and the
one it is meant for. -/
structure Sys (S : Type) extends Context S where
  accepted : List S := []
  requests : List S := []
  running : List ℕ := []
  streams : List S := []
  pulled : List (Object S) := []
  expected : List (Object S) := []

/-- What the event loop does: a connection is accepted; a request arrives; the handler of the
`r`-th request settles; an operation completes, and goes on to read or not. -/
inductive Event (S : Type)
  | accept (session : S)
  | request (session : S) (outcome : Outcome)
  | settle (r : ℕ) (result : Settlement)
  | completes (session : S) (op : Operation) (again : Bool)

/-- The event loop takes a turn; the handler of the `r`-th request calls `stream`; the callback
that runs returns or throws; the `write` or the `end` of the `k`-th stream is called, or any
native function that takes the host. -/
inductive Action (S : Type)
  | turn (e : Event S)
  | stream (r : ℕ)
  | returns
  | write (k : ℕ)
  | finish (k : ℕ)
  | hostNative

namespace Sys

/-- `pull_arg` for a pointer, in a function that is meant for this object. -/
def pullArg (s : Sys S) (object : Object S) : Sys S :=
  { s with pulled := s.pulled++[s.contextOpaque], expected := s.expected++[object] }

/-- The first half of `native_stream`, up to the call of the callback. The head of the reply
is written to what is at the address that it takes for its session. -/
def nativeStream [DecidableEq S] (s : Sys S) (owner : S) : Sys S :=
  match s.httpSessionPtr with
  | none => s.pullArg .host
  | some session =>
    let object := if s.Alive session then .session session else .freed
    { s.pullArg .host with
      pulled := s.pulled++[s.contextOpaque,object]
      expected := s.expected++[.host,.session session]
      contextOpaque := object
      frames := ⟨s.contextOpaque,object⟩::s.frames
      operations := s.operations++if s.Alive session then [(session,.head)] else []
      streams := s.streams++[owner] }

/-- `finish_chunked`, called on what the opaque pointer points to. -/
def nativeStreamEnd (s : Sys S) (owner : S) : Sys S :=
  match s.contextOpaque with
  | .session session =>
    { s.pullArg (.session owner) with operations := s.operations++[(session,.last)] }
  | _ => s.pullArg (.session owner)

end Sys

/-- The responses that have been sent on the way from one state of a host to another. -/
def responses (before after : Host S) : List (S × Operation) :=
  (after.sent.drop before.sent.length).map fun sent => (sent.1,.response)

def turn [DecidableEq S] (s : Sys S) : Event S → Option (Sys S)
  | .accept session =>
    if session ∉ s.accepted then
      some { s with
        accepted := s.accepted++[session]
        operations := s.operations++[(session,.read)] }
    else none
  | .request session outcome =>
    if (session,.read) ∈ s.operations then
      some { s with
        toHost := s.toHost.onRequest session outcome
        operations := s.operations.erase (session,.read)++
          responses s.toHost (s.toHost.onRequest session outcome)
        requests := s.requests++[session]
        running := if outcome = .promise then s.running++[s.requests.length] else s.running }
    else none
  | .settle r result =>
    if r ∈ s.running then
      some { s with
        toHost := s.toHost.onSettled result
        operations := s.operations++responses s.toHost (s.toHost.onSettled result)
        running := s.running.erase r }
    else none
  | .completes session op again =>
    -- the write of a head is followed by nothing
    if (session,op) ∈ s.operations ∧ (again → op ≠ .head) then
      some { s with
        operations := s.operations.erase (session,op)++
          if again then [(session,.read)] else [] }
    else none

def step [DecidableEq S] (s : Sys S) : Action S → Option (Sys S)
  | .turn e => if s.frames = [] then turn s e else none
  | .stream r => s.requests[r]?.map s.nativeStream
  | .returns =>
    match s.frames with
    | [] => none
    | f::fs => some { s with contextOpaque := f.host, frames := fs }
  | .write k => s.streams[k]?.map fun owner => s.pullArg (.session owner)
  | .finish k => s.streams[k]?.map s.nativeStreamEnd
  | .hostNative => some (s.pullArg .host)

/-- A callback runs which was given the session of the request of the `k`-th stream. -/
def Given (s : Sys S) (k : ℕ) : Prop :=
  ∃ f ∈ s.frames.head?, ∃ owner ∈ s.streams[k]?, f.session = .session owner

/-- The functions of a stream are called while a callback runs which was given the session
of that stream's request; those of the host, `stream` among them, while none runs, and
`stream` while the session that it takes is alive. -/
def InWindow (s : Sys S) : Action S → Prop
  | .stream _ => s.frames = [] ∧ ∀ session ∈ s.httpSessionPtr, s.Alive session
  | .hostNative => s.frames = []
  | .write k => Given s k
  | .finish k => Given s k
  | .turn _ => True
  | .returns => True

/-- What the calls that are on the stack have left in the opaque pointer. -/
def top : List (Frame S) → Object S
  | [] => .host
  | f::_ => f.session

/-- Each call of `native_stream` puts back what it found, and works on no host. -/
inductive Chained : List (Frame S) → Prop
  | nil : Chained []
  | cons {f : Frame S} {fs : List (Frame S)} (hf : f.host = top fs) (hhost : f.session ≠ .host)
    (hfs : Chained fs) : Chained (f::fs)

/-- The session that a callback was given is alive as long as the callback runs. -/
structure Inv (s : Sys S) : Prop where
  contextOpaque : s.contextOpaque = top s.frames
  chained : Chained s.frames
  alive : ∀ f ∈ s.frames, ∀ session, f.session = .session session → s.Alive session

theorem Alive.mono {c d : Context S} {session : S} (h : c.Alive session)
    (hconn : d.httpConnections = c.httpConnections) {ops : List (S × Operation)}
    (hops : d.operations = c.operations++ops) : d.Alive session := by
  rw [Context.Alive,hconn,hops,List.map_append,List.mem_append]
  exact h.imp_right .inl

theorem top_eq_host {fs : List (Frame S)} (h : Chained fs) : top fs = .host ↔ fs = [] := by
  cases h with
  | nil => simp [top]
  | cons hf hhost hfs => simp [top,hhost]

theorem nativeStreamEnd_logs (s : Sys S) (owner : S) :
    (s.nativeStreamEnd owner).pulled = s.pulled++[s.contextOpaque] ∧
    (s.nativeStreamEnd owner).expected = s.expected++[.session owner] := by
  rw [Sys.nativeStreamEnd]
  split <;> exact ⟨rfl,rfl⟩

theorem Inv.nativeStreamEnd {s : Sys S} (hs : Inv s) (owner : S) :
    Inv (s.nativeStreamEnd owner) := by
  rw [Sys.nativeStreamEnd]
  split
  · exact ⟨hs.contextOpaque,hs.chained,fun f hf x hx => Alive.mono (hs.alive f hf x hx) rfl rfl⟩
  · exact ⟨hs.contextOpaque,hs.chained,hs.alive⟩

variable [DecidableEq S]

/-- A turn of the event loop calls no native function and leaves the callbacks alone. -/
theorem turn_keeps {s t : Sys S} {e : Event S} (h : turn s e = some t) :
    t.contextOpaque = s.contextOpaque ∧ t.frames = s.frames ∧ t.pulled = s.pulled ∧
      t.expected = s.expected := by
  cases e with
  | accept session =>
    obtain ⟨-,ht⟩ := Option.ite_none_right_eq_some.mp h
    obtain rfl := Option.some.inj ht
    exact ⟨rfl,rfl,rfl,rfl⟩
  | request session outcome =>
    obtain ⟨-,ht⟩ := Option.ite_none_right_eq_some.mp h
    obtain rfl := Option.some.inj ht
    exact ⟨rfl,rfl,rfl,rfl⟩
  | settle r result =>
    obtain ⟨-,ht⟩ := Option.ite_none_right_eq_some.mp h
    obtain rfl := Option.some.inj ht
    exact ⟨rfl,rfl,rfl,rfl⟩
  | completes session op again =>
    obtain ⟨-,ht⟩ := Option.ite_none_right_eq_some.mp h
    obtain rfl := Option.some.inj ht
    exact ⟨rfl,rfl,rfl,rfl⟩

theorem Inv.nativeStream {s : Sys S} (hs : Inv s) (owner : S) : Inv (s.nativeStream owner) := by
  rw [Sys.nativeStream]
  split
  · exact ⟨hs.contextOpaque,hs.chained,hs.alive⟩
  · next session hptr =>
    refine ⟨rfl,.cons hs.contextOpaque ?_ hs.chained,?_⟩
    · split <;> simp
    · intro f hf x hx
      rcases List.mem_cons.mp hf with rfl | hf
      · simp only at hx
        split at hx
        · next halive =>
          obtain rfl := Object.session.inj hx
          exact Alive.mono halive rfl rfl
        · cases hx
      · exact Alive.mono (hs.alive f hf x hx) rfl rfl

theorem Inv.step {s t : Sys S} {a : Action S} (hs : Inv s) (h : step s a = some t) : Inv t := by
  cases a with
  | turn e =>
    obtain ⟨hidle,ht⟩ := Option.ite_none_right_eq_some.mp h
    obtain ⟨hcontext,hframes,-,-⟩ := turn_keeps ht
    have hnil : t.frames = [] := hframes.trans hidle
    refine ⟨?_,?_,?_⟩
    · rw [hcontext,hs.contextOpaque,hframes]
    · rw [hnil]
      exact .nil
    · rw [hnil]
      exact fun f hf => absurd hf List.not_mem_nil
  | stream r =>
    obtain ⟨owner,-,rfl⟩ := Option.map_eq_some_iff.mp h
    exact hs.nativeStream owner
  | returns =>
    have hchained := hs.chained
    have halive := hs.alive
    cases hframes : s.frames with
    | nil =>
      rw [StreamNatives.step,hframes] at h
      cases h
    | cons f fs =>
      rw [StreamNatives.step,hframes] at h
      obtain rfl := Option.some.inj h
      rw [hframes] at hchained halive
      cases hchained with
      | cons hf hhost hfs => exact ⟨hf,hfs,fun g hg => halive g (List.mem_cons_of_mem f hg)⟩
  | write k =>
    obtain ⟨owner,-,rfl⟩ := Option.map_eq_some_iff.mp h
    exact ⟨hs.contextOpaque,hs.chained,hs.alive⟩
  | finish k =>
    obtain ⟨owner,-,rfl⟩ := Option.map_eq_some_iff.mp h
    exact hs.nativeStreamEnd owner
  | hostNative =>
    obtain rfl := Option.some.inj h
    exact ⟨hs.contextOpaque,hs.chained,hs.alive⟩

theorem nativeStream_logs (s : Sys S) (owner : S) :
    (s.nativeStream owner).pulled = s.pulled++s.contextOpaque::s.httpSessionPtr.toList.map
      (fun session => if s.Alive session then .session session else .freed) ∧
    (s.nativeStream owner).expected =
      s.expected++.host::s.httpSessionPtr.toList.map Object.session := by
  rw [Sys.nativeStream]
  cases s.httpSessionPtr <;> simp [Sys.pullArg]

theorem step_logs {s t : Sys S} {a : Action S} (hs : Inv s) (h : step s a = some t) :
    ∃ ps qs, t.pulled = s.pulled++ps ∧ t.expected = s.expected++qs ∧ ps.length ≤ qs.length ∧
      (ps = qs ↔ InWindow s a) := by
  have hquiet : t.pulled = s.pulled → t.expected = s.expected → InWindow s a →
      ∃ ps qs, t.pulled = s.pulled++ps ∧ t.expected = s.expected++qs ∧ ps.length ≤ qs.length ∧
        (ps = qs ↔ InWindow s a) := fun hp hq hw =>
    ⟨[],[],by simpa using hp,by simpa using hq,Nat.le_refl _,iff_of_true rfl hw⟩
  have hhost : s.contextOpaque = .host ↔ s.frames = [] := by
    rw [hs.contextOpaque,top_eq_host hs.chained]
  have hgiven : ∀ {k : ℕ} {owner : S}, s.streams[k]? = some owner →
      ([s.contextOpaque] = [.session owner] ↔ Given s k) := by
    intro k owner hk
    rw [List.singleton_inj,hs.contextOpaque,Given,hk]
    cases s.frames <;> simp [top]
  cases a with
  | turn e =>
    obtain ⟨-,ht⟩ := Option.ite_none_right_eq_some.mp h
    obtain ⟨-,-,hp,hq⟩ := turn_keeps ht
    exact hquiet hp hq trivial
  | stream r =>
    obtain ⟨owner,-,rfl⟩ := Option.map_eq_some_iff.mp h
    obtain ⟨hp,hq⟩ := nativeStream_logs s owner
    refine ⟨_,_,hp,hq,by simp,?_⟩
    rw [List.cons.injEq,hhost,InWindow]
    cases s.httpSessionPtr <;> simp
  | returns =>
    rw [step] at h
    split at h
    · cases h
    · obtain rfl := Option.some.inj h
      exact hquiet rfl rfl trivial
  | write k =>
    obtain ⟨owner,hk,rfl⟩ := Option.map_eq_some_iff.mp h
    exact ⟨_,_,rfl,rfl,Nat.le_refl _,hgiven hk⟩
  | finish k =>
    obtain ⟨owner,hk,rfl⟩ := Option.map_eq_some_iff.mp h
    obtain ⟨hp,hq⟩ := nativeStreamEnd_logs s owner
    exact ⟨_,_,hp,hq,Nat.le_refl _,hgiven hk⟩
  | hostNative =>
    obtain rfl := Option.some.inj h
    exact ⟨_,_,rfl,rfl,Nat.le_refl _,List.singleton_inj.trans hhost⟩

/-- Every native function is given the object it is meant for, exactly in the runs that
call each one in its window. The session of a callback that runs is alive. -/
theorem pulls_agree_iff {as : List (Action S)} {t : Sys S} (h : run step {} as = some t) :
    (t.pulled = t.expected ↔ Meets step InWindow {} as) ∧
    ∀ f ∈ t.frames, ∀ session, f.session = .session session → t.Alive session :=
  have hinit : Inv ({} : Sys S) := ⟨rfl,.nil,fun _ hf => absurd hf List.not_mem_nil⟩
  have hok : ∀ (s : Sys S) a t, step s a = some t → (fun _ => True) t → (fun _ => True) s :=
    fun _ _ _ _ _ => trivial
  have hkeep : ∀ (s : Sys S) a t, Inv s → step s a = some t → Inv t := fun _ _ _ => Inv.step
  ⟨logs_agree_iff_meets hok (fun s a t hs _ hstep => hkeep s a t hs hstep)
    (fun _ _ _ hs _ hstep => step_logs hs hstep) hinit rfl h trivial,
    (run_keeps hkeep hinit h).alive⟩

/-- The first request is answered on the second connection, whose client then leaves; the
second handler streams when its session is gone. -/
def streamWhereFreed : List (Action ℕ) :=
  [.turn (.accept 1),.turn (.accept 2),.turn (.request 1 .promise),.turn (.request 2 .promise),
    .turn (.settle 0 (.fulfilled {})),.turn (.completes 2 .response true),
    .turn (.completes 2 .read false),.stream 1]

theorem pulls_agree_iff_sample :
    ∃ t : Sys ℕ, run step {} streamWhereFreed = some t ∧ t.contextOpaque = .freed ∧
      (t.pulled = t.expected ↔ Meets step InWindow {} streamWhereFreed) :=
  ⟨_,rfl,rfl,(pulls_agree_iff rfl).1⟩

def writeAfterAwait : List (Action ℕ) :=
  [.turn (.accept 1),.turn (.request 1 .promise),.stream 0,.write 0,.returns,.write 0]

/-- The second write takes the host for its session. -/
theorem not_pulls_agree :
    ¬ ∀ (as : List (Action ℕ)) (t : Sys ℕ), run step {} as = some t → t.pulled = t.expected := by
  intro h
  exact absurd (h writeAfterAwait _ rfl) (by decide)

end StreamNatives
end AsioQuickjs
