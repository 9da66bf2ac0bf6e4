import Mathlib.Data.List.Basic

/-! The abstract unbounded mailbox: a queue that can be closed. A closed mailbox
refuses new items but still hands out those it has; a receiver blocks exactly
when there is nothing to hand out and more may come. -/
namespace AsioQuickjs
namespace Mailbox

structure Box (α : Type*) where
  queue : List α := []
  closed : Bool := false
  deriving DecidableEq

variable {α : Type*}

/-- The answer to a receive. -/
inductive Received (α : Type*)
  | blocked | item (a : α) | ended
  deriving DecidableEq

def Ready (b : Box α) : Prop := b.queue ≠ [] ∨ b.closed = true

def send (b : Box α) (a : α) : Bool × Box α :=
  if b.closed then (false,b) else (true,{ b with queue := b.queue++[a] })

def close (b : Box α) : Box α := { b with closed := true }

def recv (b : Box α) : Received α × Box α :=
  match b.queue with
  | a::q => (.item a,{ b with queue := q })
  | [] => if b.closed then (.ended,b) else (.blocked,b)

@[simp] theorem recv_closed (b : Box α) : (recv b).2.closed = b.closed := by
  rcases b with ⟨q,c⟩
  cases q <;> cases c <;> simp [recv]

theorem send_closed {b : Box α} (h : b.closed = true) (a : α) : send b a = (false,b) := by
  simp [send,h]

theorem send_open {b : Box α} (h : b.closed = false) (a : α) :
    send b a = (true,{ b with queue := b.queue++[a] }) := by
  simp [send,h]

theorem send_keeps_closed (b : Box α) (a : α) : (send b a).2.closed = b.closed := by
  simp only [send]
  split <;> rfl

/-- One call on a mailbox, with its answer. -/
inductive Call (α : Type*)
  | send (a : α) (ok : Bool) | close | recv (r : Received α) | skip

/-- The mailbox takes the call from the first state to the second. -/
def Takes (b : Box α) : Call α → Box α → Prop
  | .send a ok, c => send b a = (ok,c)
  | .close, c => c = close b
  | .recv r, c => recv b = (r,c)
  | .skip, c => c = b

def Call.answer : Call α → List (α × Bool)
  | .send a ok => [(a,ok)]
  | _ => []

def Call.accepted (k : Call α) : List α := (k.answer.filter Prod.snd).map Prod.fst

def Call.delivered : Call α → List α
  | .recv (.item a) => [a]
  | _ => []

theorem takes_queue {b c : Box α} {k : Call α} (h : Takes b k c) :
    b.queue++k.accepted = k.delivered++c.queue := by
  rcases b with ⟨q,d⟩
  cases k with
  | send a ok =>
    cases d <;> simp only [Takes,send] at h <;> cases h <;>
      simp [Call.accepted,Call.answer,Call.delivered]
  | close => cases h; simp [close,Call.accepted,Call.answer,Call.delivered]
  | recv r =>
    cases q <;> cases d <;> simp only [Takes,recv] at h <;> cases h <;>
      simp [Call.accepted,Call.answer,Call.delivered]
  | skip => cases h; simp [Call.accepted,Call.answer,Call.delivered]

theorem takes_closed {b c : Box α} {k : Call α} (h : Takes b k c) (hb : b.closed = true) :
    c.closed = true ∧ ∀ p ∈ k.answer, p.2 = false := by
  cases k with
  | send a ok =>
    simp only [Takes,send_closed hb] at h
    cases h
    exact ⟨hb,by simp [Call.answer]⟩
  | close => cases h; exact ⟨rfl,by simp [Call.answer]⟩
  | recv r =>
    have hc : (recv b).2 = c := congrArg Prod.snd h
    exact ⟨by rw [← hc,recv_closed,hb],by simp [Call.answer]⟩
  | skip => cases h; exact ⟨hb,by simp [Call.answer]⟩

theorem accepted_of_refused {k : Call α} (h : ∀ p ∈ k.answer, p.2 = false) : k.accepted = [] := by
  cases k <;> simp_all [Call.accepted,Call.answer]

/-- A sequence of calls, newest last. -/
inductive Performs : Box α → List (Call α) → Box α → Prop
  | start (b : Box α) : Performs b [] b
  | call {b c d : Box α} {ks : List (Call α)} {k : Call α} :
      Performs b ks c → Takes c k d → Performs b (ks++[k]) d

def accepted (ks : List (Call α)) : List α := ks.flatMap Call.accepted
def delivered (ks : List (Call α)) : List α := ks.flatMap Call.delivered

@[simp] theorem accepted_snoc (ks : List (Call α)) (k : Call α) :
    accepted (ks++[k]) = accepted ks++k.accepted := by simp [accepted]
@[simp] theorem delivered_snoc (ks : List (Call α)) (k : Call α) :
    delivered (ks++[k]) = delivered ks++k.delivered := by simp [delivered]

/-- Nothing is lost, duplicated or reordered: what was accepted is what was
delivered followed by what still waits. -/
theorem performs_queue {b c : Box α} {ks : List (Call α)} (h : Performs b ks c) :
    b.queue++accepted ks = delivered ks++c.queue := by
  induction h with
  | start => simp [accepted,delivered]
  | call _ hk ih =>
    rw [accepted_snoc,delivered_snoc,List.append_assoc,← takes_queue hk,← List.append_assoc,ih,
      List.append_assoc]

end Mailbox
end AsioQuickjs
