import AsioQuickjs.RequestInput
import AsioQuickjs.ResponseJs

/-! `clone` of a `Response`: the copy has a view of the same buffer, and `bytes` gives that view
to the script. -/
namespace AsioQuickjs
namespace ResponseJs

open BodyOnce (Consumer)
open RequestJs (Thrown JsValue bind_eq_ok ok_bind)

def Body.InBounds (heap : Heap) : Body → Prop
  | .view v => v.InBounds heap
  | _ => True

/-- Buffers are written to and new ones are made; none gets smaller. -/
def Grown (heap heap' : Heap) : Prop :=
  ∀ n, (bufferAt heap n).length ≤ (bufferAt heap' n).length

/-- `r` comes from the constructor or from a fetch; its headers are edited, other code runs. -/
inductive Reached : Heap → Response → Prop
  | constructed {body : Option Body} {init : Init} {heap heap' : Heap} {r : Response}
      (hbody : ∀ b ∈ body, b.InBounds heap) (h : construct body init heap = .ok (r,heap')) :
      Reached heap' r
  | received {raw : Fetch.RawResult} {signal : ℕ} {heap heap' : Heap} {r : Response}
      (h : responseFromRaw raw signal heap = .ok (r,heap')) : Reached heap' r
  | edited {heap : Heap} {r : Response} (h : Reached heap r) (ops : List HeaderList.Op) :
      Reached heap { r with headers := HeaderList.run r.headers ops }
  | world {heap heap' : Heap} {r : Response} (h : Reached heap r) (hheap : Grown heap heap') :
      Reached heap' r

/-- What the constructor takes as `statusText`. -/
def PlainText (s : JsString) : Prop :=
  (s.any fun c => 0xff < c || c = 0x0a || c = 0x0d) = false

structure Built (heap : Heap) (r : Response) : Prop where
  status : 200 ≤ r.status ∧ r.status ≤ 599
  statusText : PlainText r.statusText
  type : r.type.truthy = true
  headers : HeaderList.AllNormal r.headers
  content : r.content.isSome = true → AsioQuickjs.Response.isNullBodyStatus r.status = false
  inBounds : ∀ v ∈ r.content, v.InBounds heap

theorem View.InBounds.grown {heap heap' : Heap} {v : View} (h : v.InBounds heap)
    (hheap : Grown heap heap') : v.InBounds heap' := h.trans (hheap v.buffer)

theorem alloc_inBounds (heap : Heap) (b : Bytes) : (alloc heap b).1.InBounds (alloc heap b).2 := by
  simp [alloc,View.InBounds,bufferAt]

theorem extractString_inBounds {heap heap' : Heap} {s contentType : JsString} {e : Extracted}
    (h : extractString heap s contentType = .ok (e,heap')) : ∀ v ∈ e.bytes, v.InBounds heap' := by
  obtain ⟨b,-,h⟩ := bind_eq_ok h
  cases h
  rintro v hv
  cases hv
  exact alloc_inBounds heap b

theorem extractBody_inBounds {heap heap' : Heap} {b : Body} {e : Extracted}
    (hb : b.InBounds heap) (h : extractBody heap b = .ok (e,heap')) :
    ∀ v ∈ e.bytes, v.InBounds heap' := by
  cases b with
  | stream =>
    cases h
    exact fun v hv => by cases hv
  | string s => exact extractString_inBounds h
  | blob data type =>
    cases h
    rintro v hv
    cases hv
    exact alloc_inBounds heap _
  | params text =>
    obtain ⟨s,-,h⟩ := bind_eq_ok h
    exact extractString_inBounds h
  | formData multipart boundary => exact extractString_inBounds h
  | arrayBuffer n =>
    cases h
    rintro v hv
    cases hv
    simp [View.InBounds]
  | view v =>
    cases h
    rintro w hw
    cases hw
    exact hb
  | other text =>
    obtain ⟨s,-,h⟩ := bind_eq_ok h
    exact extractString_inBounds h

theorem checkStatus_ok {status : Option (Option ℤ)} {s : ℤ} (h : checkStatus status = .ok s) :
    200 ≤ s ∧ s ≤ 599 := by
  rw [checkStatus] at h
  split at h
  · cases h
  · split at h
    · cases h
    · next hrange =>
      cases h
      exact ⟨by omega,by omega⟩

theorem checkStatusText_ok {statusText : JsValue} {s : JsString}
    (h : checkStatusText statusText = .ok s) : PlainText s := by
  obtain ⟨t,-,h⟩ := bind_eq_ok h
  simp only at h
  split at h
  · cases h
  · next hany =>
    cases h
    exact Bool.eq_false_iff.mpr hany

theorem checkInit_ok {init : Init} {head : Head} (h : checkInit init = .ok head) :
    (200 ≤ head.status ∧ head.status ≤ 599) ∧ PlainText head.statusText ∧
      HeaderList.AllNormal head.headers := by
  obtain ⟨headers,hheaders,h⟩ := bind_eq_ok h
  obtain ⟨status,hstatus,h⟩ := bind_eq_ok h
  obtain ⟨statusText,htext,h⟩ := bind_eq_ok h
  obtain ⟨url,-,h⟩ := bind_eq_ok h
  have hnormal := HeaderList.new_normal (RequestJs.ofJs_eq_ok hheaders)
  cases h
  exact ⟨checkStatus_ok hstatus,checkStatusText_ok htext,hnormal⟩

theorem built_construct {body : Option Body} {init : Init} {heap heap' : Heap} {r : Response}
    (hbody : ∀ b ∈ body, b.InBounds heap) (h : construct body init heap = .ok (r,heap')) :
    Built heap' r := by
  obtain ⟨head,hhead,h⟩ := bind_eq_ok h
  obtain ⟨hstatus,htext,hheaders⟩ := checkInit_ok hhead
  have htype : (init.type.or (.string (js "default"))).truthy = true := by
    rw [JsValue.or]
    split
    · assumption
    · rfl
  cases body with
  | none =>
    cases h
    exact ⟨hstatus,htext,htype,hheaders,fun hs => (by cases hs),fun v hv => (by cases hv)⟩
  | some b =>
    simp only at h
    split at h
    · cases h
    · next hnull =>
      obtain ⟨⟨e,heap₁⟩,he,h⟩ := bind_eq_ok h
      obtain ⟨headers,hct,h⟩ := bind_eq_ok h
      cases h
      exact ⟨hstatus,htext,htype,RequestJs.withContentType_normal hheaders hct,
        fun _ => Bool.eq_false_iff.mpr hnull,extractBody_inBounds (hbody b rfl) he⟩

theorem Reached.built {heap : Heap} {r : Response} (h : Reached heap r) : Built heap r := by
  induction h with
  | constructed hbody h => exact built_construct hbody h
  | @received raw signal heap heap' r h =>
    obtain ⟨⟨r',heap''⟩,hr,h⟩ := bind_eq_ok h
    have hview : ∀ b ∈ some (Body.view (alloc heap raw.body).1),
        b.InBounds (alloc heap raw.body).2 := fun b hb => by
      cases hb
      exact alloc_inBounds heap raw.body
    have hbuilt := built_construct hview hr
    cases h
    exact ⟨hbuilt.status,hbuilt.statusText,hbuilt.type,hbuilt.headers,hbuilt.content,
      hbuilt.inBounds⟩
  | edited _ ops ih =>
    exact ⟨ih.status,ih.statusText,ih.type,HeaderList.run_normal ih.headers ops,ih.content,
      ih.inBounds⟩
  | world _ hheap ih =>
    exact ⟨ih.status,ih.statusText,ih.type,ih.headers,ih.content,
      fun v hv => (ih.inBounds v hv).grown hheap⟩

/-- The headers are copied under the guard of every new response. -/
def Response.copied (r : Response) : Response where
  status := r.status
  statusText := r.statusText
  ok := 200 ≤ r.status && r.status < 300
  url := r.url
  redirected := r.redirected
  type := r.type
  headers := { r.headers.copied with guard := .response }
  content := r.content
  body := r.content.map fun _ => .placeholder
  abortSignal := r.abortSignal

theorem clone_eq {heap : Heap} {r : Response} (hr : Built heap r) (hu : r.bodyUsed = false) :
    r.clone heap = .ok (r.copied,heap) := by
  have hstatus : checkStatus (some (some r.status)) = .ok r.status := by
    have hrange : ¬ (r.status < 200 ∨ 599 < r.status) := by
      have hbounds := hr.status
      omega
    exact if_neg hrange
  have htext : checkStatusText (.string r.statusText) = .ok r.statusText := by
    have hplain := hr.statusText
    rw [PlainText] at hplain
    simp only [checkStatusText,JsValue.isUndefined,JsValue.text,Bool.false_eq_true,if_false,
      ok_bind,hplain]
    rfl
  have hcheck : checkInit r.init = .ok
      { headers := { r.headers.copied with guard := .response }, status := r.status,
        statusText := r.statusText, url := r.url } := by
    simp only [checkInit,Response.init,RequestJs.new_iterable hr.headers,RequestJs.ofJs,ok_bind,
      hstatus,htext]
    rfl
  have htype : r.init.type.or (.string (js "default")) = r.type := if_pos hr.type
  cases hc : r.content with
  | none =>
    simp only [Response.clone,hu,construct,hcheck,ok_bind,hc,Option.map_none,Bool.false_eq_true,
      if_false,build,htype,Response.copied]
    rfl
  | some v =>
    have hnull := hr.content (by rw [hc]; rfl)
    have hextract : extractBody heap (.view v) = .ok ({ bytes := some v },heap) := rfl
    simp only [Response.clone,hu,construct,hcheck,ok_bind,hc,Option.map_some,hnull,hextract,
      Bool.false_eq_true,if_false,build,htype,Response.copied,RequestJs.withContentType]
    rfl

inductive Side
  | original
  | copy

/-- `returned` are the arrays that `bytes` has given out, `yields` the bytes behind what the
readers gave, at the time. -/
structure State where
  heap : Heap
  original : Response
  copy : Response
  aborted : List ℕ
  returned : List View := []
  yields : List Bytes := []

/-- Something is read, one byte of the buffer of an array is written, a signal is aborted. -/
inductive Op
  | read (side : Side) (m : Consumer)
  | write (k i : ℕ) (x : UInt8)
  | abort (signal : ℕ)

namespace State

def receive (s : State) : Yield → State
  | .nothing => s
  | .value b => { s with yields := s.yields++[b] }
  | .view v =>
    { s with yields := s.yields++[v.bytes s.heap], returned := s.returned++[v] }

def read (s : State) (m : Consumer) : Side → State
  | .original =>
    let (r,y) := s.original.read s.aborted s.heap m
    { s with original := r }.receive y
  | .copy =>
    let (r,y) := s.copy.read s.aborted s.heap m
    { s with copy := r }.receive y

def write (s : State) (k i : ℕ) (x : UInt8) : State :=
  match s.returned[k]? with
  | none => s
  | some v => { s with heap := s.heap.modify v.buffer fun b => b.set i x }

def step (s : State) : Op → State
  | .read side m => s.read m side
  | .write k i x => s.write k i x
  | .abort signal => { s with aborted := signal::s.aborted }

def run (s : State) (ops : List Op) : State := ops.foldl step s

end State

def bytesOf (heap : Heap) (r : Response) : Bytes := (r.content.map (·.bytes heap)).getD []

/-- Whatever is read and written in arrays that were read: the bytes stay those of `r`. -/
def Independent (heap : Heap) (r c : Response) : Prop :=
  ∀ aborted ops, ∀ b ∈ (State.run ⟨heap,r,c,aborted,[],[]⟩ ops).yields, b = bytesOf heap r

/-- The copy has the parts of the response, and both are independent. -/
def CloneLaw (heap : Heap) (r : Response) : Prop :=
  ∃ c heap', r.clone heap = .ok (c,heap') ∧ c.status = r.status ∧ c.statusText = r.statusText ∧
    c.url = r.url ∧ c.redirected = r.redirected ∧ c.type = r.type ∧
    c.headers.guard = r.headers.guard ∧ (∀ name, c.headers.get name = r.headers.get name) ∧
    bytesOf heap' c = bytesOf heap r ∧ Independent heap' r c

/-- The body is null or an array without elements. -/
def NoBytes (r : Response) : Prop := ∀ v ∈ r.content, v.byteLength = 0

theorem bytes_of_noBytes {r : Response} (hr : NoBytes r) {v : View} (hv : r.content = some v)
    (heap : Heap) : v.bytes heap = [] := by
  rw [View.bytes,hr v hv,List.take_zero]

theorem bytesOf_noBytes {r : Response} (hr : NoBytes r) (heap : Heap) : bytesOf heap r = [] := by
  rw [bytesOf]
  cases hc : r.content with
  | none => rfl
  | some v => exact bytes_of_noBytes hr hc heap

/-- A reader leaves the content, and what it gives comes from it. -/
inductive ReadsFrom (r : Response) (heap : Heap) : Response × Yield → Prop
  | nothing : ReadsFrom r heap (r,.nothing)
  | empty (h : r.content = none) : ReadsFrom r heap (r,.value [])
  | value {v : View} (h : r.content = some v) :
      ReadsFrom r heap (r.setBodyUsed,.value (v.bytes heap))
  | view {v : View} (h : r.content = some v) : ReadsFrom r heap (r.setBodyUsed,.view v)

theorem consume_cases (r : Response) {heap : Heap} {k : View → Yield}
    (hk : ∀ v, k v = .value (v.bytes heap) ∨ k v = .view v) : ReadsFrom r heap (r.consume k) := by
  rw [Response.consume]
  split
  · exact .nothing
  · cases hc : r.content with
    | none => exact .empty hc
    | some v =>
      rcases hk v with hv | hv
      · simp only [hv]
        exact .value hc
      · simp only [hv]
        exact .view hc

theorem read_cases (r : Response) (aborted : List ℕ) (heap : Heap) (m : Consumer) :
    ReadsFrom r heap (r.read aborted heap m) := by
  have hvalue := consume_cases r (fun v => .inl rfl : ∀ v : View,
    Yield.value (v.bytes heap) = .value (v.bytes heap) ∨ Yield.value (v.bytes heap) = .view v)
  by_cases hab : r.abortSignal.any aborted.contains = true
  · have hread : r.read aborted heap m = (r,.nothing) := if_pos hab
    rw [hread]
    exact .nothing
  · cases m with
    | text | arrayBuffer | blob =>
      rw [Response.read,if_neg hab]
      exact hvalue
    | bytes =>
      rw [Response.read,if_neg hab]
      exact consume_cases r fun v => .inr rfl
    | json =>
      rw [Response.read,if_neg hab]
      cases hc : r.content with
      | none => exact .nothing
      | some v =>
        dsimp only
        split
        · exact .nothing
        · exact .value hc
    | formData =>
      rw [Response.read,if_neg hab]
      cases hc : r.content with
      | none =>
        dsimp only
        split
        · exact .empty hc
        · exact .nothing
      | some v =>
        dsimp only
        split
        · exact .nothing
        · split
          · exact .value hc
          · exact .nothing

/-- Nothing was read but nothing. -/
structure Quiet (s : State) : Prop where
  original : NoBytes s.original
  copy : NoBytes s.copy
  yields : ∀ b ∈ s.yields, b = []

theorem quiet_receive {s : State} (hs : Quiet s) {r r' : Response} (hr : NoBytes r) {y : Yield}
    (hy : ReadsFrom r s.heap (r',y)) : Quiet (s.receive y) := by
  have hadd {b : Bytes} (hb : b = []) : ∀ b' ∈ s.yields++[b], b' = [] := fun b' hb' => by
    rcases List.mem_append.mp hb' with hb' | hb'
    · exact hs.yields b' hb'
    · rw [List.mem_singleton.mp hb',hb]
  cases hy with
  | nothing => exact hs
  | empty h => exact ⟨hs.original,hs.copy,hadd rfl⟩
  | value h => exact ⟨hs.original,hs.copy,hadd (bytes_of_noBytes hr h s.heap)⟩
  | view h => exact ⟨hs.original,hs.copy,hadd (bytes_of_noBytes hr h s.heap)⟩

theorem noBytes_reader {r : Response} (hr : NoBytes r) {heap : Heap} {r' : Response} {y : Yield}
    (hy : ReadsFrom r heap (r',y)) : NoBytes r' := by
  cases hy with
  | nothing => exact hr
  | empty h => exact hr
  | value h => exact hr
  | view h => exact hr

theorem quiet_step {s : State} (hs : Quiet s) (op : Op) : Quiet (s.step op) := by
  cases op with
  | read side m =>
    cases side with
    | original =>
      have hread := read_cases s.original s.aborted s.heap m
      exact quiet_receive (s := { s with original := (s.original.read s.aborted s.heap m).1 })
        ⟨noBytes_reader hs.original hread,hs.copy,hs.yields⟩ hs.original hread
    | copy =>
      have hread := read_cases s.copy s.aborted s.heap m
      exact quiet_receive (s := { s with copy := (s.copy.read s.aborted s.heap m).1 })
        ⟨hs.original,noBytes_reader hs.copy hread,hs.yields⟩ hs.copy hread
  | write k i x =>
    simp only [State.step,State.write]
    split
    · exact hs
    · exact ⟨hs.original,hs.copy,hs.yields⟩
  | abort signal => exact ⟨hs.original,hs.copy,hs.yields⟩

theorem quiet_run {s : State} (hs : Quiet s) (ops : List Op) : Quiet (s.run ops) := by
  induction ops generalizing s with
  | nil => exact hs
  | cons op ops ih => exact ih (quiet_step hs op)

theorem independent_noBytes {heap : Heap} {r c : Response} (hr : NoBytes r) (hc : NoBytes c) :
    Independent heap r c := by
  intro aborted ops b hb
  have hstart : Quiet ⟨heap,r,c,aborted,[],[]⟩ :=
    ⟨hr,hc,fun b hb => absurd hb List.not_mem_nil⟩
  rw [bytesOf_noBytes hr]
  exact (quiet_run hstart ops).yields b hb

theorem bytes_modify (heap : Heap) (v : View) (x : UInt8) :
    v.bytes (heap.modify v.buffer fun b => b.set v.byteOffset x) = (v.bytes heap).set 0 x := by
  have hbuffer : bufferAt (heap.modify v.buffer fun b => b.set v.byteOffset x) v.buffer =
      (bufferAt heap v.buffer).set v.byteOffset x := by
    simp only [bufferAt,List.getD_eq_getElem?_getD,List.getElem?_modify_eq]
    cases heap[v.buffer]? <;> rfl
  rw [View.bytes,View.bytes,hbuffer,List.drop_set,if_neg (Nat.lt_irrefl _),Nat.sub_self,
    List.take_set]

theorem bytes_length {heap : Heap} {v : View} (hv : v.InBounds heap) :
    (v.bytes heap).length = v.byteLength := by
  rw [View.InBounds] at hv
  rw [View.bytes,List.length_take,List.length_drop]
  omega

/-- One is read with `bytes`, its first byte is changed, and the other is read. -/
def changed (heap : Heap) (v : View) : List Op :=
  [.read .original .bytes,.write 0 v.byteOffset ((v.bytes heap).headD 0+1),
    .read .copy .arrayBuffer]

theorem run_changed {heap : Heap} {r c : Response} {v : View} (hr : r.content = some v)
    (hc : c.content = some v) (hur : r.bodyUsed = false) (huc : c.bodyUsed = false) :
    (State.run ⟨heap,r,c,[],[],[]⟩ (changed heap v)).yields =
      [v.bytes heap,(v.bytes heap).set 0 ((v.bytes heap).headD 0+1)] := by
  have hsignal (signal : Option ℕ) : signal.any ([] : List ℕ).contains = false := by
    cases signal <;> rfl
  have hbytes (heap : Heap) : r.read [] heap .bytes = (r.setBodyUsed,.view v) := by
    simp [Response.read,Response.consume,hsignal,hr,hur]
  have hbuffer (heap : Heap) :
      c.read [] heap .arrayBuffer = (c.setBodyUsed,.value (v.bytes heap)) := by
    simp [Response.read,Response.consume,hsignal,hc,huc]
  simp [State.run,changed,State.step,State.read,State.write,State.receive,hbytes,hbuffer,
    bytes_modify]

theorem not_independent {heap : Heap} {r c : Response} {v : View} (hr : r.content = some v)
    (hc : c.content = some v) (hur : r.bodyUsed = false) (huc : c.bodyUsed = false)
    (hv : v.InBounds heap) (hpos : v.byteLength ≠ 0) : ¬ Independent heap r c := by
  intro h
  have hchanged := h [] (changed heap v) ((v.bytes heap).set 0 ((v.bytes heap).headD 0+1)) (by
    rw [run_changed hr hc hur huc]
    simp)
  have horiginal : bytesOf heap r = v.bytes heap := by
    rw [bytesOf,hr]
    rfl
  rw [horiginal] at hchanged
  cases hb : v.bytes heap with
  | nil =>
    have hlength := bytes_length hv
    rw [hb] at hlength
    exact hpos hlength.symm
  | cons y ys =>
    rw [hb] at hchanged
    have hhead := (List.cons.inj hchanged).1
    simp at hhead

/-- The copy is equal and independent exactly if the response has the guard of a new one, headers
whose values survive being joined and trimmed, and no bytes. -/
theorem clone_independent_iff {heap : Heap} {r : Response} (hr : Reached heap r)
    (hu : r.bodyUsed = false) :
    CloneLaw heap r ↔ r.headers.guard = .response ∧
      (∀ n, ¬ Headers.EndsEmpty r.headers n) ∧ NoBytes r := by
  have hbuilt := hr.built
  have hget : (∀ name, r.copied.headers.get name = r.headers.get name) ↔
      ∀ n, ¬ Headers.EndsEmpty r.headers n := Headers.get_copied_iff hbuilt.headers
  constructor
  · rintro ⟨c,heap',hclone,-,-,-,-,-,hguard,hheaders,-,hindependent⟩
    cases (clone_eq hbuilt hu).symm.trans hclone
    refine ⟨hguard.symm,hget.mp hheaders,fun v hv => ?_⟩
    by_contra hpos
    have hcopied : r.copied.content = some v := hv
    exact not_independent hv hcopied hu rfl (hbuilt.inBounds v hv) hpos hindependent
  · rintro ⟨hguard,hnone,hbytes⟩
    exact ⟨r.copied,heap,clone_eq hbuilt hu,rfl,rfl,rfl,rfl,rfl,hguard.symm,hget.mpr hnone,rfl,
      independent_noBytes hbytes hbytes⟩

def nullResponse : Response where
  status := 200
  statusText := []
  ok := true
  url := []
  redirected := false
  type := .string (js "default")
  headers := { guard := .response }
  content := none
  body := none

/-- The headers `X-A: 1` and `x-a: 2`. -/
def taggedInit : Init where
  headers := .iterable [.items [js "X-A",js "1"],.items [js "x-a",js "2"]]

/-- `new Response('', ..)` with these headers. -/
def taggedResponse : Response :=
  { nullResponse with
    headers :=
      { list := [(js "x-a",js "1"),(js "x-a",js "2"),(js "content-type",RequestJs.textPlain)]
        guard := .response }
    content := some ⟨0,0,0⟩
    body := some .placeholder }

theorem clone_independent_iff_sample :
    construct (some (.string [])) taggedInit [] = .ok (taggedResponse,[[]]) ∧
      CloneLaw [[]] taggedResponse := by
  have hconstruct : construct (some (.string [])) taggedInit [] = .ok (taggedResponse,[[]]) := rfl
  have hreached : Reached [[]] taggedResponse :=
    .constructed (fun b hb => by cases hb; trivial) hconstruct
  refine ⟨hconstruct,(clone_independent_iff hreached rfl).mpr ⟨rfl,fun n h => ?_,?_⟩⟩
  · obtain ⟨p,hp,hnil⟩ := List.mem_map.mp (List.mem_of_getLast? h.2)
    have hvalues : ∀ p ∈ taggedResponse.headers.list, p.2 ≠ [] := by decide +kernel
    exact hvalues p (List.mem_of_mem_filter hp) hnil
  · intro v hv
    cases hv
    rfl

/-- `new Response('x')`. -/
def textResponse : Response :=
  { nullResponse with
    headers := { list := [(js "content-type",RequestJs.textPlain)], guard := .response }
    content := some ⟨0,0,1⟩
    body := some .placeholder }

/-- What is written into the bytes of one comes out of the other. -/
theorem shared_buffer :
    construct (some (.string (js "x"))) {} [] = .ok (textResponse,[[120]]) ∧
      Reached [[120]] textResponse ∧ textResponse.bodyUsed = false ∧
      ¬ CloneLaw [[120]] textResponse := by
  have hconstruct : construct (some (.string (js "x"))) {} [] = .ok (textResponse,[[120]]) := rfl
  have hreached : Reached [[120]] textResponse :=
    .constructed (fun b hb => by cases hb; trivial) hconstruct
  refine ⟨hconstruct,hreached,rfl,?_⟩
  rintro ⟨c,heap',hclone,-,-,-,-,-,-,-,-,hindependent⟩
  cases (clone_eq hreached.built rfl).symm.trans hclone
  exact not_independent rfl rfl rfl rfl (hreached.built.inBounds _ rfl) (by decide) hindependent

end ResponseJs
end AsioQuickjs
