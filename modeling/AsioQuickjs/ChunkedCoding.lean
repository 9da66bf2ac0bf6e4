import AsioQuickjs.HttpMessage

/-! The chunked body that a session writes: what `write_chunk`, `write_chunk_sync` and
`finish_chunked` hand to the socket, and what a reader of the coding makes of it. -/
namespace AsioQuickjs
namespace ChunkedCoding

open HttpMessage

/-- `std::span<const uint8_t>`, whose size is a `size_t`. -/
structure Span where
  data : Bytes
  size_lt : data.length < 2^64

/-- `snprintf` into a buffer of `size` bytes, of which the last is the terminator's. -/
def snprintf (size : ℕ) (text : Bytes) : Bytes := text.take (size-1)

/-- The line with the size, read back as a string from the buffer it is printed to. -/
def header (data : Span) : Bytes := cStr (snprintf 32 (numeral 16 data.data.length++crlf))

def footer : Bytes := crlf

/-- The buffers handed to the socket with one more for this chunk; none if it is empty. -/
def withChunk (written : List Bytes) (data : Span) : List Bytes :=
  if data.data = [] then written else written++[header data++(data.data++footer)]

/-- `write_chunk`, whose write is queued. -/
def writeChunk (written : List Bytes) (data : Span) : List Bytes := withChunk written data

/-- `write_chunk_sync`, which writes before it returns. -/
def writeChunkSync (written : List Bytes) (data : Span) : List Bytes := withChunk written data

def finalChunk : Bytes := ascii "0\r\n\r\n"

def finishChunked (written : List Bytes) : List Bytes := written++[finalChunk]

inductive Call
  | writeChunk (data : Span)
  | writeChunkSync (data : Span)

def Call.data : Call → Bytes
  | .writeChunk data => data.data
  | .writeChunkSync data => data.data

def perform (written : List Bytes) : Call → List Bytes
  | .writeChunk data => writeChunk written data
  | .writeChunkSync data => writeChunkSync written data

theorem numeral_length_le {n k : ℕ} (hk : 0 < k) (h : n < 16^k) : (numeral 16 n).length ≤ k := by
  rw [numeral,List.length_map]
  exact (Nat.length_toDigits_le_iff (by decide) hk).mpr h

theorem cStr_eq_self {s : Bytes} (h : ∀ b ∈ s, b ≠ 0) : cStr s = s :=
  List.takeWhile_eq_self_iff.mpr fun b hb => by simpa using h b hb

theorem numeral_ne_zero {n : ℕ} : ∀ b ∈ numeral 16 n, b ≠ 0 := by
  rintro b hb rfl
  have hdigit := readNumber_isSome (readNumber_numeral (by decide) (by decide) n) 0 hb
  exact absurd hdigit (by decide)

theorem header_eq (data : Span) : header data = numeral 16 data.data.length++crlf := by
  have hlen : (numeral 16 data.data.length).length ≤ 16 :=
    numeral_length_le (by decide) (by have := data.size_lt; omega)
  have htake : snprintf 32 (numeral 16 data.data.length++crlf) =
      numeral 16 data.data.length++crlf :=
    List.take_of_length_le (by simp [crlf]; omega)
  rw [header,htake]
  refine cStr_eq_self fun b hb => ?_
  rcases List.mem_append.mp hb with hb | hb
  · exact numeral_ne_zero b hb
  · rintro rfl
    exact absurd hb (by decide)

theorem chunk_eq (data : Span) : header data++(data.data++footer) = chunk data.data := by
  rw [header_eq,chunk,footer,List.append_assoc]

theorem flatten_withChunk (written : List Bytes) (data : Span) :
    (withChunk written data).flatten =
      written.flatten++if data.data = [] then [] else chunk data.data := by
  by_cases h : data.data = []
  · simp [withChunk,h]
  · simp [withChunk,h,← chunk_eq]

/-- One call adds its chunk behind what the socket was given before, if that is not empty. -/
theorem flatten_perform (written : List Bytes) (call : Call) :
    (perform written call).flatten =
      written.flatten++if call.data = [] then [] else chunk call.data := by
  cases call with
  | writeChunk data => exact flatten_withChunk written data
  | writeChunkSync data => exact flatten_withChunk written data

theorem dechunk_call (call : Call) (rest : Bytes) :
    dechunk (.size []) ((if call.data = [] then [] else chunk call.data)++rest) =
      (dechunk (.size []) rest).map fun p => (call.data++p.1,p.2) := by
  by_cases h : call.data = []
  · simp [h]
  · rw [if_neg h,dechunk_chunk h]

def emitted (calls : List Call) : Bytes := (calls.foldl perform []).flatten

theorem flatten_foldl (calls : List Call) (written : List Bytes) :
    (calls.foldl perform written).flatten =
      written.flatten++calls.flatMap fun call =>
        if call.data = [] then [] else chunk call.data := by
  induction calls generalizing written with
  | nil => simp
  | cons call calls ih =>
    rw [List.foldl_cons,ih,flatten_perform,List.flatMap_cons,List.append_assoc]

theorem dechunk_emitted (calls : List Call) (rest : Bytes) :
    dechunk (.size []) (emitted calls++rest) =
      (dechunk (.size []) rest).map fun p => (calls.flatMap Call.data++p.1,p.2) := by
  rw [emitted,flatten_foldl,List.flatten_nil,List.nil_append]
  induction calls with
  | nil => simp
  | cons call calls ih =>
    rw [List.flatMap_cons,List.append_assoc,dechunk_call,ih,Option.map_map,List.flatMap_cons]
    congr 1
    funext p
    simp

def finished (calls : List Call) : Bytes := (finishChunked (calls.foldl perform [])).flatten

theorem finished_eq (calls : List Call) : finished calls = emitted calls++finalChunk := by
  simp [finished,finishChunked,emitted]

theorem dechunk_finished (calls : List Call) :
    dechunk (.size []) (finished calls) = some (calls.flatMap Call.data,[]) := by
  have hlast := dechunk_last []
  rw [List.append_nil] at hlast
  rw [finished_eq,dechunk_emitted,finalChunk,hlast]
  simp

/-- The chunks are read back as what was written, up to the last byte of the stream. Before
`finish_chunked` no chunk has ended the body: what follows is read as more of it, and no
shorter part of the stream is a whole body. -/
theorem finished_round_trip (calls : List Call) :
    dechunk (.size []) (finished calls) = some (calls.flatMap Call.data,[]) ∧
    (∀ rest, dechunk (.size []) (emitted calls++rest) =
      (dechunk (.size []) rest).map fun p => (calls.flatMap Call.data++p.1,p.2)) ∧
    ∀ front more, more ≠ [] → front++more = finished calls →
      dechunk (.size []) front = none := by
  refine ⟨dechunk_finished calls,dechunk_emitted calls,fun front more hmore heq => ?_⟩
  by_contra hsome
  obtain ⟨⟨body,rest⟩,hfront⟩ := Option.ne_none_iff_exists'.mp hsome
  have hall := dechunk_append hfront more
  rw [heq,dechunk_finished] at hall
  have hrest : rest++more = [] := (Prod.mk.inj (Option.some.inj hall)).2.symm
  exact hmore (List.append_eq_nil_iff.mp hrest).2

end ChunkedCoding
end AsioQuickjs
