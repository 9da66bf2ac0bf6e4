import AsioQuickjs.Utf8

/-! Single-quoted string literals of sloppy-mode JavaScript, and text spliced into
them. What is not inside such a literal is code: comments, templates and other
quotes are not told apart, since a source that is meant to have none has none in
front of the first literal that ends in the wrong place. -/
namespace AsioQuickjs
namespace JsLiteral

/-- A source is a sequence of code segments with literals in between. -/
inductive Seg
  | code (text : List ℕ)
  | lit (value : List ℕ)
  deriving DecidableEq

inductive Mode
  | code
  | lit
  | escape
  | carriageReturn
  | hex (left v : ℕ)
  | unicode
  | brace (v : Option ℕ)
  | octal (left v : ℕ)
  deriving DecidableEq

structure Lexer where
  done : List Seg := []
  text : List ℕ := []
  mode : Mode := .code

def hexDigit (u : ℕ) : Option ℕ :=
  if 48 ≤ u ∧ u ≤ 57 then some (u-48)
  else if 97 ≤ u ∧ u ≤ 102 then some (u-87)
  else if 65 ≤ u ∧ u ≤ 70 then some (u-55)
  else none

/-- The single character escapes, and the escapes that stand for themselves. -/
def escaped (u : ℕ) : ℕ :=
  if u = 98 then 8 else if u = 102 then 12 else if u = 110 then 10 else if u = 114 then 13
  else if u = 116 then 9 else if u = 118 then 11 else u

namespace Lexer

def push (s : Lexer) (us : List ℕ) : Lexer := { s with text := s.text++us, mode := .lit }

def stepLit (s : Lexer) (u : ℕ) : Option Lexer :=
  if u = 39 then some { done := s.done++[.lit s.text] }
  else if u = 92 then some { s with mode := .escape }
  else if u = 10 ∨ u = 13 then none
  else some (s.push [u])

def stepEscape (s : Lexer) (u : ℕ) : Lexer :=
  if u = 120 then { s with mode := .hex 1 0 }
  else if u = 117 then { s with mode := .unicode }
  else if 48 ≤ u ∧ u ≤ 55 then { s with mode := .octal 1 (u-48) }
  else if u = 13 then { s with mode := .carriageReturn }
  else if u = 10 ∨ u = 0x2028 ∨ u = 0x2029 then s.push []
  else s.push [escaped u]

def step (s : Lexer) (u : ℕ) : Option Lexer :=
  match s.mode with
  | .code =>
    if u = 39 then some { done := s.done++[.code s.text], mode := .lit }
    else some { s with text := s.text++[u] }
  | .lit => s.stepLit u
  | .escape => some (s.stepEscape u)
  | .carriageReturn => if u = 10 then some (s.push []) else s.stepLit u
  | .hex left v => (hexDigit u).map fun d => match left with
    | 0 => s.push [16*v+d]
    | left+1 => { s with mode := .hex left (16*v+d) }
  | .unicode =>
    if u = 123 then some { s with mode := .brace none }
    else (hexDigit u).map fun d => { s with mode := .hex 2 d }
  | .brace v =>
    if u = 125 then v.map fun c => s.push (Utf8.units c)
    else (hexDigit u).bind fun d =>
      if 16*v.getD 0+d ≤ 0x10FFFF then some { s with mode := .brace (some (16*v.getD 0+d)) }
      else none
  | .octal left v =>
    if 48 ≤ u ∧ u ≤ 55 then
      if left = 0 ∨ 32 ≤ 8*v+(u-48) then some (s.push [8*v+(u-48)])
      else some { s with mode := .octal 0 (8*v+(u-48)) }
    else (s.push [v]).stepLit u

end Lexer

def lexFrom : Lexer → List ℕ → Option (List Seg)
  | s, [] => match s.mode with
    | .code => some (s.done++[.code s.text])
    | _ => none
  | s, u::us => match s.step u with
    | some t => lexFrom t us
    | none => none

/-- The segments of a source, where every literal in it is well-formed. -/
def lex (us : List ℕ) : Option (List Seg) := lexFrom {} us

theorem lexFrom_cons (s : Lexer) (u : ℕ) (us : List ℕ) :
    lexFrom s (u::us) = (s.step u).bind (lexFrom · us) := by
  rw [lexFrom]
  cases s.step u <;> rfl

def special (u : ℕ) : ℕ := if u = 39 ∨ u = 92 then 1 else 0

def weight (us : List ℕ) : ℕ := (us.map fun u => 1+special u).sum

@[simp] theorem weight_nil : weight [] = 0 := rfl

@[simp] theorem weight_cons (u : ℕ) (us : List ℕ) :
    weight (u::us) = 1+special u+weight us := by simp [weight]

@[simp] theorem weight_append (us vs : List ℕ) : weight (us++vs) = weight us+weight vs := by
  simp [weight]

theorem special_le (u : ℕ) : special u ≤ 1 := by
  rw [special]
  split <;> omega

theorem length_le_weight (us : List ℕ) : us.length ≤ weight us := by
  induction us with
  | nil => simp
  | cons u us ih =>
    rw [weight_cons,List.length_cons]
    omega

theorem weight_units (c : ℕ) : weight (Utf8.units c) ≤ 2 := by
  rw [Utf8.units]
  split
  · have := special_le c
    simp only [weight_cons,weight_nil]
    omega
  · have hhigh : special (0xD800+(c-0x10000)/0x400) = 0 := if_neg (by omega)
    have hlow : special (0xDC00+(c-0x10000)%0x400) = 0 := if_neg (by omega)
    simp [hhigh,hlow]

/-- The least number of code units that a segment can be written in. -/
def Seg.cost : Seg → ℕ
  | .code t => t.length
  | .lit v => weight v+2

def cost (segs : List Seg) : ℕ := (segs.map Seg.cost).sum

@[simp] theorem cost_nil : cost [] = 0 := rfl

@[simp] theorem cost_cons (seg : Seg) (segs : List Seg) :
    cost (seg::segs) = seg.cost+cost segs := by simp [cost]

@[simp] theorem cost_append (as bs : List Seg) : cost (as++bs) = cost as+cost bs := by
  simp [cost]

def Lexer.pending (s : Lexer) : ℕ :=
  match s.mode with
  | .code => s.text.length
  | .lit => weight s.text+1
  | .carriageReturn => weight s.text+1
  | .escape => weight s.text+2
  | _ => weight s.text+3

def Lexer.cost (s : Lexer) : ℕ := JsLiteral.cost s.done+s.pending

theorem push_cost (s : Lexer) (us : List ℕ) :
    (s.push us).cost = JsLiteral.cost s.done+(weight s.text+weight us+1) := by
  simp [Lexer.cost,Lexer.pending,Lexer.push]

theorem stepLit_cost {s t : Lexer} {u : ℕ} (h : s.stepLit u = some t) :
    t.cost ≤ JsLiteral.cost s.done+(weight s.text+1)+1 := by
  simp only [Lexer.stepLit] at h
  split at h
  · cases h
    simp [Lexer.cost,Lexer.pending,Seg.cost]
    omega
  · split at h
    · cases h
      simp [Lexer.cost,Lexer.pending]
      omega
    · split at h
      · cases h
      · next hq hb _ =>
        cases h
        have hu : special u = 0 := if_neg (by omega)
        rw [push_cost]
        simp [hu]
        omega

theorem stepEscape_cost (s : Lexer) (u : ℕ) :
    (s.stepEscape u).cost ≤ JsLiteral.cost s.done+(weight s.text+2)+1 := by
  have hesc := special_le (escaped u)
  simp only [Lexer.stepEscape]
  repeat' split
  all_goals simp only [Lexer.cost,Lexer.pending,Lexer.push,weight_append,weight_cons,weight_nil]
  all_goals omega

theorem step_cost {s t : Lexer} {u : ℕ} (h : s.step u = some t) : t.cost ≤ s.cost+1 := by
  have hcost : s.cost = JsLiteral.cost s.done+s.pending := rfl
  cases hm : s.mode with
  | code =>
    simp only [Lexer.step,hm] at h
    have hp : s.pending = s.text.length := by simp [Lexer.pending,hm]
    split at h
    · cases h
      simp [Lexer.cost,Lexer.pending,Seg.cost,hm]
    · cases h
      simp [Lexer.cost,Lexer.pending,hm]
      omega
  | lit =>
    simp only [Lexer.step,hm] at h
    have hp : s.pending = weight s.text+1 := by simp [Lexer.pending,hm]
    have := stepLit_cost h
    omega
  | escape =>
    simp only [Lexer.step,hm,Option.some.injEq] at h
    have hp : s.pending = weight s.text+2 := by simp [Lexer.pending,hm]
    have := stepEscape_cost s u
    rw [h] at this
    omega
  | carriageReturn =>
    simp only [Lexer.step,hm] at h
    have hp : s.pending = weight s.text+1 := by simp [Lexer.pending,hm]
    split at h
    · cases h
      rw [push_cost]
      simp
      omega
    · have := stepLit_cost h
      omega
  | hex left v =>
    simp only [Lexer.step,hm,Option.map_eq_some_iff] at h
    have hp : s.pending = weight s.text+3 := by simp [Lexer.pending,hm]
    obtain ⟨d,-,rfl⟩ := h
    cases left with
    | zero =>
      have := special_le (16*v+d)
      rw [push_cost]
      simp
      omega
    | succ left =>
      simp [Lexer.cost,Lexer.pending,hm]
  | unicode =>
    simp only [Lexer.step,hm] at h
    have hp : s.pending = weight s.text+3 := by simp [Lexer.pending,hm]
    split at h
    · cases h
      simp [Lexer.cost,Lexer.pending,hm]
    · obtain ⟨d,-,rfl⟩ := Option.map_eq_some_iff.mp h
      simp [Lexer.cost,Lexer.pending,hm]
  | brace v =>
    simp only [Lexer.step,hm] at h
    have hp : s.pending = weight s.text+3 := by simp [Lexer.pending,hm]
    split at h
    · obtain ⟨c,-,rfl⟩ := Option.map_eq_some_iff.mp h
      have := weight_units c
      rw [push_cost]
      omega
    · obtain ⟨d,-,h⟩ := Option.bind_eq_some_iff.mp h
      split at h
      · cases h
        simp [Lexer.cost,Lexer.pending,hm]
      · cases h
  | octal left v =>
    simp only [Lexer.step,hm] at h
    have hp : s.pending = weight s.text+3 := by simp [Lexer.pending,hm]
    split at h
    · split at h
      · cases h
        have := special_le (8*v+(u-48))
        rw [push_cost]
        simp
        omega
      · cases h
        simp [Lexer.cost,Lexer.pending,hm]
    · have hstep := stepLit_cost h
      have := special_le v
      simp [Lexer.push] at hstep
      omega

theorem lexFrom_cost {s : Lexer} {us : List ℕ} {segs : List Seg}
    (h : lexFrom s us = some segs) : cost segs ≤ s.cost+us.length := by
  induction us generalizing s with
  | nil =>
    rw [lexFrom] at h
    split at h
    · next hm =>
      cases h
      simp [Lexer.cost,Lexer.pending,Seg.cost,hm]
    · cases h
  | cons u us ih =>
    rw [lexFrom_cons] at h
    obtain ⟨t,ht,h⟩ := Option.bind_eq_some_iff.mp h
    have hstep := step_cost ht
    have hrest := ih h
    rw [List.length_cons]
    omega

theorem lex_cost {us : List ℕ} {segs : List Seg} (h : lex us = some segs) :
    cost segs ≤ us.length := by
  have := lexFrom_cost h
  simpa [Lexer.cost,Lexer.pending] using this

end JsLiteral
end AsioQuickjs
