import AsioQuickjs.NativeFetch
import Mathlib.Data.List.DropRight

/-! The response headers that `header_cb` of `src/curl_runtime.cpp` collects. curl delivers the
block of every response on the way, line by line; the last one counts. -/
namespace AsioQuickjs
namespace HeaderBlocks

open NativeFetch (FetchOptions Report makeResult)

structure Transfer where
  responseHeaders : List (Bytes × Bytes) := []
  statusText : Bytes := []
  deriving DecidableEq

/-- `std::string::find` of a character. -/
def find (s : Bytes) (c : UInt8) (pos : ℕ) : Option ℕ :=
  ((s.drop pos).findIdx? (· = c)).map (·+pos)

/-- The loop that pops `\n` and `\r` from the back. -/
def stripLineEnd (line : Bytes) : Bytes := line.rdropWhile fun c => c = 10 ∨ c = 13

/-- What a status line leaves in the `status_text` that has been cleared. -/
def statusTextOf (line : Bytes) : Bytes :=
  match find line 32 0 with
  | none => []
  | some sp1 =>
    match find line 32 (sp1+1) with
    | none => []
    | some sp2 => if sp2+1 < line.length then line.drop (sp2+1) else []

def stripBlanks (value : Bytes) : Bytes := value.dropWhile fun c => c = 32 ∨ c = 9

/-- `size*nmemb` is the length of memory there is, so it does not wrap. -/
def headerCb (self : Transfer) (ptr : Bytes) (size nmemb : ℕ) : Transfer × ℕ :=
  let n := size*nmemb
  let line := stripLineEnd (ptr.take n)
  if line = [] then (self,n)
  else if (ascii "HTTP/").isPrefixOf line then (⟨[],statusTextOf line⟩,n)
  else
    match find line 58 0 with
    | none => (self,n)
    | some colon =>
      ({ self with responseHeaders := self.responseHeaders++
          [(line.take colon,stripBlanks (line.drop (colon+1)))] },n)

/-- curl hands each line over as a whole, with a `size` of 1; what `header_cb` returns is kept. -/
def deliver (self : Transfer) : List Bytes → Transfer × List ℕ
  | [] => (self,[])
  | line::lines =>
    let r := headerCb self line 1 line.length
    let rest := deliver r.1 lines
    (rest.1,r.2::rest.2)

/-- What `make_result` reads beside what curl reports. -/
def Transfer.report (self : Transfer) (p : Report) : Report :=
  { p with responseHeaders := self.responseHeaders, statusText := self.statusText }

inductive LineEnd
  | crlf | lf

def LineEnd.bytes : LineEnd → Bytes
  | .crlf => [13,10]
  | .lf => [10]

structure StatusLine where
  text : Bytes
  lineEnd : LineEnd
  http : (ascii "HTTP/").isPrefixOf text = true
  oneLine : ∀ c ∈ text, c ≠ 13 ∧ c ≠ 10

/-- The value is all that follows the colon. -/
structure HeaderLine where
  name : Bytes
  value : Bytes
  lineEnd : LineEnd
  noColon : 58 ∉ name
  notHttp : (ascii "HTTP/").isPrefixOf name = false
  oneLine : ∀ c ∈ name++value, c ≠ 13 ∧ c ≠ 10

structure Block where
  status : StatusLine
  headers : List HeaderLine
  lineEnd : LineEnd

def StatusLine.bytes (l : StatusLine) : Bytes := l.text++l.lineEnd.bytes

def HeaderLine.text (l : HeaderLine) : Bytes := l.name++58::l.value

def HeaderLine.bytes (l : HeaderLine) : Bytes := l.text++l.lineEnd.bytes

def Block.lines (b : Block) : List Bytes :=
  b.status.bytes::(b.headers.map HeaderLine.bytes++[b.lineEnd.bytes])

def behindSpace (line : Bytes) : Bytes := (line.dropWhile (· ≠ 32)).drop 1

def Block.content (b : Block) : Transfer :=
  ⟨b.headers.map fun l => (l.name,stripBlanks l.value),behindSpace (behindSpace b.status.text)⟩

@[simp] theorem behindSpace_nil : behindSpace [] = [] := rfl

theorem behindSpace_of_none {s : Bytes} {pos : ℕ} (h : find s 32 pos = none) :
    behindSpace (s.drop pos) = [] := by
  rw [find,Option.map_eq_none_iff,List.findIdx?_eq_none_iff] at h
  rw [behindSpace,List.dropWhile_eq_nil_iff.mpr fun x hx => by simpa using h x hx]
  rfl

theorem behindSpace_of_some {s : Bytes} {pos i : ℕ} (h : find s 32 pos = some i) :
    behindSpace (s.drop pos) = s.drop (i+1) := by
  obtain ⟨k,hk,rfl⟩ := Option.map_eq_some_iff.mp h
  obtain ⟨-,hk⟩ := List.findIdx?_eq_some_iff_findIdx_eq.mp hk
  have hnot : (fun x : UInt8 => !decide (x ≠ 32)) = fun x => decide (x = 32) := by
    funext x
    simp
  rw [behindSpace,List.dropWhile_eq_drop_findIdx_not,hnot,hk,List.drop_drop,List.drop_drop]
  congr 1
  omega

theorem find_colon {name : Bytes} (h : 58 ∉ name) (value : Bytes) :
    find (name++58::value) 58 0 = some name.length := by
  have hname : name.findIdx? (· = 58) = none := by
    rw [List.findIdx?_eq_none_iff]
    intro x hx
    exact decide_eq_false fun he => h (he ▸ hx)
  rw [find,List.drop_zero,List.findIdx?_append,hname,List.findIdx?_cons]
  simp

theorem statusTextOf_eq (line : Bytes) : statusTextOf line = behindSpace (behindSpace line) := by
  rw [statusTextOf]
  cases h1 : find line 32 0 with
  | none =>
    have hnil := behindSpace_of_none h1
    rw [List.drop_zero] at hnil
    rw [hnil,behindSpace_nil]
  | some sp1 =>
    have hfirst := behindSpace_of_some h1
    rw [List.drop_zero] at hfirst
    rw [hfirst]
    dsimp only
    cases h2 : find line 32 (sp1+1) with
    | none => exact (behindSpace_of_none h2).symm
    | some sp2 =>
      rw [behindSpace_of_some h2]
      refine ite_eq_left_iff.mpr fun hend => ?_
      exact (List.drop_eq_nil_of_le (Nat.le_of_not_lt hend)).symm

theorem stripLineEnd_append {text : Bytes} (h : ∀ c ∈ text, c ≠ 13 ∧ c ≠ 10) (e : LineEnd) :
    stripLineEnd (text++e.bytes) = text := by
  have hself : stripLineEnd text = text := by
    refine List.rdropWhile_eq_self_iff.mpr fun hne => ?_
    have hlast := h _ (List.getLast_mem hne)
    simp [hlast.1,hlast.2]
  cases e with
  | lf => exact (List.rdropWhile_concat_pos _ _ _ rfl).trans hself
  | crlf =>
    have hcr : text++[13,10] = (text++[13])++[10] := by simp
    rw [LineEnd.bytes,hcr]
    exact (List.rdropWhile_concat_pos _ _ _ rfl).trans
      ((List.rdropWhile_concat_pos _ _ _ rfl).trans hself)

theorem headerCb_empty (self : Transfer) (e : LineEnd) :
    headerCb self e.bytes 1 e.bytes.length = (self,e.bytes.length) := by
  cases e <;> rfl

theorem headerCb_status (self : Transfer) (l : StatusLine) :
    headerCb self l.bytes 1 l.bytes.length =
      (⟨[],behindSpace (behindSpace l.text)⟩,l.bytes.length) := by
  have hne : l.text ≠ [] := by
    intro he
    have := l.http
    rw [he] at this
    exact absurd this (by decide)
  rw [headerCb,Nat.one_mul,List.take_length,StatusLine.bytes,stripLineEnd_append l.oneLine]
  simp only [if_neg hne,if_pos l.http,statusTextOf_eq]

/-- Where a name does not start a status line its line does not: the word has no colon. -/
theorem HeaderLine.text_notHttp (l : HeaderLine) :
    (ascii "HTTP/").isPrefixOf l.text = false := by
  refine Bool.eq_false_iff.mpr fun h => ?_
  have hpre : ascii "HTTP/" <+: l.name++58::l.value := List.isPrefixOf_iff_prefix.mp h
  rcases Nat.lt_or_ge l.name.length (ascii "HTTP/").length with hlen | hlen
  · have hcolon : l.name++[58] <+: l.name++58::l.value := ⟨l.value,by simp⟩
    have hshort : (l.name++[58]).length ≤ (ascii "HTTP/").length := by
      simpa using Nat.succ_le_of_lt hlen
    have hword := List.prefix_of_prefix_length_le hcolon hpre hshort
    exact absurd (hword.subset (List.mem_append_right _ List.mem_cons_self)) (by decide)
  · have hname := List.prefix_of_prefix_length_le hpre (List.prefix_append l.name _) hlen
    exact absurd (List.isPrefixOf_iff_prefix.mpr hname) (Bool.eq_false_iff.mp l.notHttp)

theorem headerCb_header (self : Transfer) (l : HeaderLine) :
    headerCb self l.bytes 1 l.bytes.length =
      ({ self with responseHeaders := self.responseHeaders++[(l.name,stripBlanks l.value)] },
        l.bytes.length) := by
  have hone : ∀ c ∈ l.text, c ≠ 13 ∧ c ≠ 10 := by
    intro c hc
    rcases List.mem_append.mp hc with hc | hc
    · exact l.oneLine c (List.mem_append_left _ hc)
    · rcases List.mem_cons.mp hc with rfl | hc
      · decide
      · exact l.oneLine c (List.mem_append_right _ hc)
  have hne : l.text ≠ [] := by simp [HeaderLine.text]
  have hfind : find l.text 58 0 = some l.name.length := find_colon l.noColon l.value
  have htake : l.text.take l.name.length = l.name := by simp [HeaderLine.text]
  have hdrop : l.text.drop (l.name.length+1) = l.value := by
    simp [HeaderLine.text,List.drop_append]
  rw [headerCb,Nat.one_mul,List.take_length,HeaderLine.bytes,stripLineEnd_append hone]
  simp only [if_neg hne,l.text_notHttp,Bool.false_eq_true,if_false,hfind,htake,hdrop]

theorem deliver_append (self : Transfer) (ls ms : List Bytes) :
    deliver self (ls++ms) =
      ((deliver (deliver self ls).1 ms).1,
        (deliver self ls).2++(deliver (deliver self ls).1 ms).2) := by
  induction ls generalizing self with
  | nil => rfl
  | cons l ls ih => simp only [List.cons_append,deliver,ih]

theorem deliver_headers (self : Transfer) (hs : List HeaderLine) :
    deliver self (hs.map HeaderLine.bytes) =
      ({ self with responseHeaders :=
          self.responseHeaders++hs.map fun l => (l.name,stripBlanks l.value) },
        (hs.map HeaderLine.bytes).map List.length) := by
  induction hs generalizing self with
  | nil => simp [deliver]
  | cons l hs ih => simp only [List.map_cons,deliver,headerCb_header,ih,List.append_assoc,
      List.singleton_append]

theorem deliver_block (self : Transfer) (b : Block) :
    deliver self b.lines = (b.content,b.lines.map List.length) := by
  rw [Block.lines,deliver]
  simp only [headerCb_status,deliver_append,deliver_headers,deliver,headerCb_empty]
  simp [Block.content]

theorem deliver_lengths (self : Transfer) (blocks : List Block) :
    (deliver self (blocks.flatMap Block.lines)).2 =
      (blocks.flatMap Block.lines).map List.length := by
  induction blocks generalizing self with
  | nil => rfl
  | cons b blocks ih =>
    rw [List.flatMap_cons,deliver_append,deliver_block]
    simp only [ih,List.map_append]

theorem makeResult_keeps (o : FetchOptions) (p : Report) :
    (makeResult o p).headers = p.responseHeaders ∧ (makeResult o p).statusText = p.statusText := by
  simp only [makeResult]
  cases p.error with
  | some e => exact ⟨rfl,rfl⟩
  | none =>
    dsimp only
    split <;> exact ⟨rfl,rfl⟩

/-- After any number of blocks only the last one is left, for `make_result` to hand on, and every
line was taken whole. -/
theorem last_block_collected (self : Transfer) (blocks : List Block) (b : Block) :
    deliver self ((blocks++[b]).flatMap Block.lines) =
      (b.content,((blocks++[b]).flatMap Block.lines).map List.length) ∧
    ∀ o p, (makeResult o (b.content.report p)).headers = b.content.responseHeaders ∧
      (makeResult o (b.content.report p)).statusText = b.content.statusText := by
  rw [List.flatMap_append,deliver_append,deliver_lengths,List.map_append]
  have hlast := deliver_block (deliver self (blocks.flatMap Block.lines)).1 b
  rw [List.flatMap_cons,List.flatMap_nil,List.append_nil,hlast]
  exact ⟨rfl,fun o p => makeResult_keeps o (b.content.report p)⟩

def redirectBlock : Block where
  status := ⟨ascii "HTTP/1.1 302 Found",.crlf,by decide,by decide⟩
  headers := [⟨ascii "Location",ascii " /b",.crlf,by decide,by decide,by decide⟩]
  lineEnd := .crlf

def finalBlock : Block where
  status := ⟨ascii "HTTP/1.1 200 Very OK",.crlf,by decide,by decide⟩
  headers := [⟨ascii "X",ascii ": 1 ",.crlf,by decide,by decide,by decide⟩,
    ⟨ascii "Empty",[],.lf,by decide,by decide,by decide⟩]
  lineEnd := .crlf

/-- A redirect and where it leads. -/
theorem last_block_collected_sample :
    (deliver {} ((([redirectBlock]++[finalBlock]).flatMap Block.lines))).1 =
      ⟨[(ascii "X",ascii ": 1 "),(ascii "Empty",[])],ascii "Very OK"⟩ := by
  rw [(last_block_collected {} [redirectBlock] finalBlock).1]
  decide

end HeaderBlocks
end AsioQuickjs
