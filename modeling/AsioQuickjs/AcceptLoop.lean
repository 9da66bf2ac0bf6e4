import AsioQuickjs.Trace
import Mathlib.Data.List.ReduceOption
import Mathlib.Data.List.Perm.Basic

/-! The accept loop of `HttpServer` in `src/net/http_server.cpp`, over the starts and stops of the
server in `host.cpp`. The handler of an accept holds the address of the server, which is that of
the optional in the host, and runs some time after its accept is over. -/
namespace AsioQuickjs
namespace AcceptLoop

/-- The server in the host: the request handler, by its number, and its acceptor. -/
structure HttpServer where
  handler : ℕ
  isOpen : Bool := false
  listening : Bool := false
  deriving DecidableEq

/-- `pending` accepts wait for a connection; the handlers in `ready` are to run, with the
connection if there is one. What has happened: the starts that came through, the handlers that
did not accept again, the connections that have come, and those that came to a server that was
gone, with whether a handler has read such a server. -/
structure Host where
  httpServer : Option HttpServer := none
  httpActive : Bool := false
  stopping : Bool := false
  pending : ℕ := 0
  ready : List (Option ℕ) := []
  sessions : List (ℕ × ℕ) := []
  started : ℕ := 0
  ended : ℕ := 0
  arrived : List ℕ := []
  lost : List ℕ := []
  dangling : Bool := false
  deriving DecidableEq

namespace Host

/-- `HttpServer::stop` on the server there is: the accepts are over, with `operation_aborted`. -/
def stop (c : Host) : Host :=
  match c.httpServer with
  | none => c
  | some s =>
    if s.isOpen then
      { c with httpServer := some { s with isOpen := false, listening := false }, pending := 0,
               ready := c.ready++List.replicate c.pending none }
    else c

/-- `HttpServer::do_accept`. -/
def doAccept (c : Host) : Host := { c with pending := c.pending+1 }

/-- Where `HttpServer::start` throws. -/
inductive Outcome
  | notOpened
  | notListening
  | started
  deriving DecidableEq

/-- `Host::start_http_server`; `emplace` puts the new server where the old one was. -/
def startHttpServer (c : Host) (handler : ℕ) (outcome : Outcome) : Host :=
  let c := { c.stop with httpServer := some { handler := handler } }
  match outcome with
  | .notOpened => c
  | .notListening => { c with httpServer := some { handler := handler, isOpen := true } }
  | .started =>
    { { c with httpServer := some { handler := handler, isOpen := true, listening := true }
               started := c.started+1 }.doAccept with httpActive := true }

/-- `native_close_server` -/
def nativeCloseServer (c : Host) : Host :=
  match c.httpServer with
  | none => c
  | some _ => { c.stop with httpServer := none, httpActive := false }

/-- `Host::shutdown` -/
def shutdown (c : Host) : Host :=
  let c := { c with stopping := true, httpActive := false }
  match c.httpServer with
  | none => c
  | some _ => { c.stop with httpServer := none }

def complete (c : Host) (conn : Option ℕ) : Option Host :=
  if 0 < c.pending ∧ (conn.isSome → c.httpServer.any (·.listening)) then
    some { c with pending := c.pending-1, ready := c.ready++[conn]
                  arrived := c.arrived++conn.toList }
  else none

/-- The handler that `do_accept` passes on, where the server is gone and where it is not. -/
def onAccept (c : Host) (conn : Option ℕ) : Host :=
  match c.httpServer with
  | none => { c with dangling := true, ended := c.ended+1, lost := c.lost++conn.toList }
  | some s =>
    let c := { c with sessions := c.sessions++conn.toList.map (·,s.handler) }
    if s.isOpen then c.doAccept else { c with ended := c.ended+1 }

end Host

open Host

inductive Action
  | startHttpServer (handler : ℕ) (outcome : Outcome)
  | closeServer
  | shutdown
  | complete (conn : Option ℕ)
  | accept (i : ℕ)

def step (c : Host) : Action → Option Host
  | .startHttpServer handler outcome => some (c.startHttpServer handler outcome)
  | .closeServer => some c.nativeCloseServer
  | .shutdown => some c.shutdown
  | .complete conn => c.complete conn
  | .accept i => (c.ready[i]?).map fun conn => { c with ready := c.ready.eraseIdx i }.onAccept conn

/-- What is the same after the accepts of `c` have been cancelled. -/
structure Stopped (c t : Host) : Prop where
  pending : t.pending = 0
  length : t.ready.length = c.pending+c.ready.length
  conns : t.ready.reduceOption = c.ready.reduceOption
  sessions : t.sessions = c.sessions
  started : t.started = c.started
  ended : t.ended = c.ended
  arrived : t.arrived = c.arrived
  lost : t.lost = c.lost
  dangling : t.dangling = c.dangling

/-- Each start adds an accept, which goes on until its handler finds the acceptor closed; a
listening server has one; and every connection is with a session, a handler or lost. -/
structure Inv (c : Host) : Prop where
  counted : c.pending+c.ready.length+c.ended = c.started
  closed : (∀ s, c.httpServer = some s → s.isOpen = false) → c.pending = 0
  listening : ∀ s, c.httpServer = some s → s.listening = true →
    s.isOpen = true ∧ 0 < c.pending+c.ready.length
  kept : c.arrived.Perm (c.sessions.map Prod.fst++c.ready.reduceOption++c.lost)
  lost : c.dangling = false → c.lost = []

theorem start_inv : Inv {} where
  counted := rfl
  closed _ := rfl
  listening _ h := by cases h
  kept := List.Perm.nil
  lost _ := rfl

section

variable {c t : Host}

theorem reduceOption_none (l : List (Option ℕ)) (n : ℕ) :
    (l++List.replicate n none).reduceOption = l.reduceOption := by
  rw [List.reduceOption_append,List.reduceOption_replicate_none,List.append_nil]

theorem stop_stopped (h : Inv c) : Stopped c c.stop := by
  rw [stop]
  cases hs : c.httpServer with
  | none =>
    have hp := h.closed fun s h => by rw [hs] at h; cases h
    exact ⟨hp,by rw [hp,Nat.zero_add],rfl,rfl,rfl,rfl,rfl,rfl,rfl⟩
  | some s =>
    simp only
    split
    · refine ⟨rfl,?_,reduceOption_none _ _,rfl,rfl,rfl,rfl,rfl,rfl⟩
      rw [List.length_append,List.length_replicate,Nat.add_comm]
    · next hopen =>
      have hp := h.closed fun s' h => by
        cases hs.symm.trans h
        simpa using hopen
      exact ⟨hp,by rw [hp,Nat.zero_add],rfl,rfl,rfl,rfl,rfl,rfl,rfl⟩

theorem Stopped.inv (h : Inv c) (ht : Stopped c t)
    (hserver : ∀ s, t.httpServer = some s → s.listening = false) : Inv t where
  counted := by rw [ht.pending,ht.length,ht.ended,ht.started,Nat.zero_add,h.counted]
  closed _ := ht.pending
  listening s hs hl := by simp [hserver s hs] at hl
  kept := by
    rw [ht.arrived,ht.sessions,ht.conns,ht.lost]
    exact h.kept
  lost hd := by
    rw [ht.dangling] at hd
    rw [ht.lost]
    exact h.lost hd

theorem Stopped.serve (ht : Stopped c t) (s : Option HttpServer) (active stopping : Bool) :
    Stopped c { t with httpServer := s, httpActive := active, stopping := stopping } :=
  ⟨ht.pending,ht.length,ht.conns,ht.sessions,ht.started,ht.ended,ht.arrived,ht.lost,ht.dangling⟩

theorem startHttpServer_inv (h : Inv c) (handler : ℕ) (outcome : Outcome) :
    Inv (c.startHttpServer handler outcome) := by
  have hs := stop_stopped h
  cases outcome with
  | notOpened =>
    refine (hs.serve (some { handler := handler }) c.stop.httpActive c.stop.stopping).inv h ?_
    intro s hs
    cases hs
    rfl
  | notListening =>
    refine (hs.serve (some { handler := handler, isOpen := true }) c.stop.httpActive
      c.stop.stopping).inv h ?_
    intro s hs
    cases hs
    rfl
  | started =>
    have hstopped := (hs.serve none c.stop.httpActive c.stop.stopping).inv h fun s hs => by cases hs
    refine ⟨?_,fun hno => ?_,fun s hs _ => ?_,hstopped.kept,hstopped.lost⟩
    · have hcounted := hstopped.counted
      simp only [startHttpServer,doAccept] at hcounted ⊢
      omega
    · have hopen := hno _ rfl
      cases hopen
    · cases hs
      exact ⟨rfl,Nat.add_pos_left (Nat.succ_pos _) _⟩

theorem nativeCloseServer_inv (h : Inv c) : Inv c.nativeCloseServer := by
  rw [nativeCloseServer]
  split
  · exact h
  · exact ((stop_stopped h).serve none false c.stop.stopping).inv h fun s hs => by cases hs

theorem shutdown_inv (h : Inv c) : Inv c.shutdown := by
  have hmarked : Inv { c with stopping := true, httpActive := false } :=
    ⟨h.counted,h.closed,h.listening,h.kept,h.lost⟩
  rw [shutdown]
  simp only
  split
  · exact hmarked
  · exact ((stop_stopped hmarked).serve none _ _).inv hmarked fun s hs => by cases hs

theorem complete_inv (h : Inv c) {conn : Option ℕ} (ht : c.complete conn = some t) : Inv t := by
  rw [complete] at ht
  split at ht
  · next hpos =>
    cases ht
    refine ⟨?_,fun hno => ?_,fun s hs hl => ?_,?_,h.lost⟩
    · have hcounted := h.counted
      simp only [List.length_append,List.length_singleton]
      omega
    · have hzero := h.closed hno
      omega
    · refine ⟨(h.listening s hs hl).1,?_⟩
      simp only [List.length_append,List.length_singleton]
      omega
    · simp only
      rw [List.reduceOption_append,List.reduceOption_singleton]
      refine (h.kept.append_right conn.toList).trans ?_
      simp only [List.append_assoc]
      exact (List.perm_append_comm.append_left _).append_left _
  · cases ht

theorem take_ready {l : List (Option ℕ)} {i : ℕ} {conn : Option ℕ} (h : l[i]? = some conn) :
    l.length = (l.eraseIdx i).length+1 ∧
      l.reduceOption.Perm (conn.toList++(l.eraseIdx i).reduceOption) := by
  obtain ⟨hi,rfl⟩ := List.getElem?_eq_some_iff.mp h
  have hperm : l.Perm (l[i]::l.eraseIdx i) := (List.getElem_cons_eraseIdx_perm hi).symm
  refine ⟨hperm.length_eq,(hperm.filterMap id).trans ?_⟩
  cases l[i] <;> exact List.Perm.refl _

theorem accept_inv (h : Inv c) {i : ℕ} (ht : step c (.accept i) = some t) : Inv t := by
  rw [step,Option.map_eq_some_iff] at ht
  obtain ⟨conn,hconn,rfl⟩ := ht
  obtain ⟨hlength,hperm⟩ := take_ready hconn
  have hcounted := h.counted
  have hkept := h.kept.trans ((hperm.append_left (c.sessions.map Prod.fst)).append_right c.lost)
  simp only [List.append_assoc] at hkept
  rw [onAccept]
  cases hs : c.httpServer with
  | none =>
    have hp := h.closed fun s h => by rw [hs] at h; cases h
    refine ⟨?_,fun _ => hp,fun s h => by simp at h,?_,fun h => by cases h⟩
    · simp only
      omega
    · refine hkept.trans ?_
      simp only [List.append_assoc]
      rw [← List.append_assoc _ c.lost conn.toList]
      exact List.perm_append_comm.append_left _
  | some s =>
    have hsessions : (c.sessions++conn.toList.map (·,s.handler)).map Prod.fst =
        c.sessions.map Prod.fst++conn.toList := by
      rw [List.map_append,List.map_map]
      exact congrArg _ (List.map_id _)
    have hfirst : c.arrived.Perm ((c.sessions++conn.toList.map (·,s.handler)).map Prod.fst++
        (c.ready.eraseIdx i).reduceOption++c.lost) := by
      rw [hsessions]
      simpa only [List.append_assoc] using hkept
    simp only
    split
    · next hopen =>
      refine ⟨?_,fun hno => ?_,fun s' hs' hl => ?_,hfirst,h.lost⟩
      · simp only [doAccept]
        omega
      · simp [hno s rfl] at hopen
      · cases hs'
        exact ⟨hopen,Nat.add_pos_left (Nat.succ_pos _) _⟩
    · next hopen =>
      refine ⟨?_,fun _ => ?_,fun s' hs' hl => ?_,hfirst,h.lost⟩
      · simp only
        omega
      · refine h.closed fun s' hs' => ?_
        cases hs.symm.trans hs'
        simpa using hopen
      · cases hs'
        exact absurd (h.listening s hs hl).1 hopen

theorem step_inv {a : Action} (h : Inv c) (ht : step c a = some t) : Inv t := by
  cases a with
  | startHttpServer handler outcome =>
    cases ht
    exact startHttpServer_inv h handler outcome
  | closeServer =>
    cases ht
    exact nativeCloseServer_inv h
  | shutdown =>
    cases ht
    exact shutdown_inv h
  | complete conn => exact complete_inv h ht
  | accept i => exact accept_inv h ht

theorem run_inv {as : List Action} (h : Trace.run step {} as = some c) : Inv c :=
  Trace.run_keeps (fun _ _ _ => step_inv) start_inv h

end

/-- The server is not closed, and its acceptor can be opened. -/
def Stays : Action → Prop
  | .startHttpServer _ outcome => outcome ≠ .notOpened
  | .closeServer => False
  | .shutdown => False
  | _ => True

instance (a : Action) : Decidable (Stays a) := by
  cases a <;> unfold Stays <;> infer_instance

/-- There has been no server yet, or there is one that is open, and no handler has stopped. -/
structure Serving (c : Host) : Prop where
  server : (c.httpServer = none ∧ c.ready = []) ∨ ∃ s, c.httpServer = some s ∧ s.isOpen = true
  ended : c.ended = 0
  safe : c.dangling = false

theorem stop_ended (c : Host) : c.stop.ended = c.ended ∧ c.stop.dangling = c.dangling := by
  rw [stop]
  split
  · exact ⟨rfl,rfl⟩
  · split <;> exact ⟨rfl,rfl⟩

theorem step_serving {c t : Host} {a : Action} (h : Serving c) (hp : Inv c) (ha : Stays a)
    (ht : step c a = some t) : Serving t := by
  cases a with
  | startHttpServer handler outcome =>
    obtain ⟨hended,hsafe⟩ := stop_ended c
    cases ht
    cases outcome with
    | notOpened => exact absurd rfl ha
    | notListening => exact ⟨.inr ⟨_,rfl,rfl⟩,hended.trans h.ended,hsafe.trans h.safe⟩
    | started => exact ⟨.inr ⟨_,rfl,rfl⟩,hended.trans h.ended,hsafe.trans h.safe⟩
  | closeServer => exact ha.elim
  | shutdown => exact ha.elim
  | complete conn =>
    rw [step,complete] at ht
    split at ht
    · next hpos =>
      cases ht
      refine ⟨.inr ?_,h.ended,h.safe⟩
      rcases h.server with ⟨hnone,-⟩ | hsome
      · have hzero := hp.closed fun s hs => by rw [hnone] at hs; cases hs
        omega
      · exact hsome
    · cases ht
  | accept i =>
    rw [step,Option.map_eq_some_iff] at ht
    obtain ⟨conn,hconn,rfl⟩ := ht
    rcases h.server with ⟨-,hnil⟩ | ⟨s,hs,hopen⟩
    · simp [hnil] at hconn
    · rw [onAccept]
      simp only [hs,hopen,if_true]
      exact ⟨.inr ⟨s,rfl,hopen⟩,h.ended,h.safe⟩

theorem accept_dangling {c : Host} (h : c.httpServer = none) {i : ℕ} (hi : i < c.ready.length) :
    ∃ t, step c (.accept i) = some t ∧ t.dangling = true := by
  refine ⟨_,congrArg (Option.map _) (List.getElem?_eq_getElem hi),?_⟩
  simp only [onAccept,h]

theorem run_serving {c : Host} {as : List Action} (hstays : ∀ a ∈ as, Stays a)
    (h : Trace.run step {} as = some c) : Serving c := by
  have hmeets := @Trace.meets_of_forall _ _ step (fun _ a => Stays a) as
    (fun a ha _ => hstays a ha) {}
  have hfirst : Serving {} := ⟨.inl ⟨rfl,rfl⟩,rfl,rfl⟩
  exact (Trace.run_keeps_of_meets (I := fun c => Serving c ∧ Inv c)
    (fun c a t hc ha ht => ⟨step_serving hc.1 hc.2 ha ht,step_inv hc.2 ht⟩)
    ⟨hfirst,start_inv⟩ hmeets h).1

/-- In every run: each start that comes through adds an accept, which goes on through later
servers until its handler finds no open acceptor; a listening server has an accept or a handler
that will accept again; each connection has one session, or a handler that is to run, or was lost
with a server that was gone. To close a listening server always leaves handlers behind, and each
of them reads the server that is gone, if it runs before there is a new one. While the server is
only replaced nothing is lost, and there are as many accepts as there were starts. -/
theorem accept_loops {c : Host} {as : List Action} (h : Trace.run step {} as = some c) :
    c.pending+c.ready.length+c.ended = c.started ∧
    c.arrived.Perm (c.sessions.map Prod.fst++c.ready.reduceOption++c.lost) ∧
    (c.dangling = false → c.lost = []) ∧
    (∀ s, c.httpServer = some s → s.listening = true →
      0 < c.pending+c.ready.length ∧ c.nativeCloseServer.ready ≠ [] ∧
      ∀ i < c.nativeCloseServer.ready.length,
        ∃ t, step c.nativeCloseServer (.accept i) = some t ∧ t.dangling = true) ∧
    ((∀ a ∈ as, Stays a) → c.dangling = false ∧ c.pending+c.ready.length = c.started) := by
  have hI := run_inv h
  refine ⟨hI.counted,hI.kept,hI.lost,fun s hs hl => ?_,fun hstays => ?_⟩
  · obtain ⟨-,hpos⟩ := hI.listening s hs hl
    have hclose : c.nativeCloseServer =
        { c.stop with httpServer := none, httpActive := false } := by
      simp only [nativeCloseServer,hs]
    have hlength : c.nativeCloseServer.ready.length = c.pending+c.ready.length := by
      rw [hclose]
      exact (stop_stopped hI).length
    refine ⟨hpos,fun hnil => ?_,fun i hi => accept_dangling (by rw [hclose]) hi⟩
    rw [hnil,List.length_nil] at hlength
    omega
  · have hS := run_serving hstays h
    have hcounted := hI.counted
    rw [hS.ended] at hcounted
    exact ⟨hS.safe,hcounted⟩

/-- A server is replaced while an accept waits, a connection comes to the one, and the handler of
the other accepts again. -/
def replaced : List Action :=
  [.startHttpServer 1 .started,.startHttpServer 2 .started,.complete (some 7),.accept 0,.accept 0]

theorem accept_loops_sample : ∃ c, Trace.run step {} replaced = some c ∧ c.pending = 2 ∧
    c.sessions = [(7,2)] ∧ c.dangling = false ∧ c.pending+c.ready.length = c.started := by
  have hstays : ∀ a ∈ replaced, Stays a := by decide
  obtain ⟨-,-,-,-,hserving⟩ := @accept_loops _ replaced rfl
  obtain ⟨hsafe,hcount⟩ := hserving hstays
  exact ⟨_,rfl,rfl,rfl,hsafe,hcount⟩

end AcceptLoop
end AsioQuickjs
