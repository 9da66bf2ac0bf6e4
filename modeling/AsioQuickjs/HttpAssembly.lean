import AsioQuickjs.HttpSession
import Mathlib.Data.List.TakeWhile

/-! How the callbacks of one request head add up. Spans of the URL are appended to
`url` but `path` and `query` are those of the last span, and names of successive
headers are appended to each other. -/
namespace AsioQuickjs
namespace HttpSession

/-- A header field as the parser reports it, in spans. -/
structure Field where
  name : List Bytes
  value : List Bytes
  deriving DecidableEq

namespace Field

def key (f : Field) : Bytes := lower f.name.flatten

def text (f : Field) : Bytes := f.value.flatten

def callbacks (f : Field) : List Callback := f.name.map .headerField++f.value.map .headerValue

end Field

/-- The callbacks of a request head whose URL is reported in `spans`. -/
def headCallbacks (method : Bytes) (spans : List Bytes) (fields : List Field)
    (major minor : ℕ) : List Callback :=
  .messageBegin::(spans.map (.url · method)++
    (fields.flatMap Field.callbacks++[.headersComplete major minor]))

def pathOf (url : Bytes) : Bytes := url.takeWhile (· ≠ questionMark)

def queryOf (url : Bytes) : Bytes := (url.dropWhile (· ≠ questionMark)).drop 1

/-- The request holds the reported head. -/
structure Assembled (spans : List Bytes) (fields : List Field) (r : HttpRequest) : Prop where
  url : r.url = spans.flatten
  path : r.path = pathOf spans.flatten
  query : r.query = queryOf spans.flatten
  headers : ∀ k v, r.headers.lookup k = some v ↔ ∃ f ∈ fields, f.key = k ∧ f.text = v

theorem take_idxOf (url : Bytes) : url.take (url.idxOf questionMark) = pathOf url := by
  induction url with
  | nil => rfl
  | cons b url ih =>
    by_cases hb : b = questionMark
    · simp [pathOf,hb]
    · rw [List.idxOf_cons_ne _ hb,List.take_succ_cons,ih]
      simp [pathOf,hb]

theorem drop_idxOf (url : Bytes) : url.drop (url.idxOf questionMark+1) = queryOf url := by
  induction url with
  | nil => rfl
  | cons b url ih =>
    by_cases hb : b = questionMark
    · simp [queryOf,hb]
    · rw [List.idxOf_cons_ne _ hb,List.drop_succ_cons,ih]
      simp [queryOf,hb]

namespace Assembly

theorem onUrl_path (s : Assembly) (span method : Bytes) :
    (s.onUrl span method).currentReq.path = pathOf span := by
  rw [← take_idxOf]
  by_cases h : span.idxOf questionMark < span.length
  · simp [onUrl,h]
  · simp [onUrl,h,List.take_of_length_le (Nat.le_of_not_lt h)]

theorem onUrl_query (s : Assembly) (span method : Bytes) :
    (s.onUrl span method).currentReq.query = queryOf span := by
  rw [← drop_idxOf]
  by_cases h : span.idxOf questionMark < span.length
  · simp [onUrl,h]
  · have hle : span.length ≤ span.idxOf questionMark+1 := by omega
    simp [onUrl,h,List.drop_of_length_le hle]

theorem urls_url (s : Assembly) (spans : List Bytes) (method : Bytes) :
    (s.applyAll (spans.map (.url · method))).currentReq.url =
      s.currentReq.url++spans.flatten := by
  induction spans generalizing s with
  | nil => simp
  | cons b spans ih => simp [ih,apply,onUrl]

theorem applyAll_keeps {α : Type} (f : Assembly → α) {cs : List Callback}
    (h : ∀ c ∈ cs, ∀ s : Assembly, f (s.apply c) = f s) (s : Assembly) :
    f (s.applyAll cs) = f s := by
  induction cs generalizing s with
  | nil => rfl
  | cons c cs ih =>
    rw [applyAll_cons,ih (fun d hd => h d (List.mem_cons_of_mem c hd)) (s.apply c)]
    exact h c List.mem_cons_self s

theorem urls_headers (s : Assembly) (spans : List Bytes) (method : Bytes) :
    (s.applyAll (spans.map (.url · method))).currentReq.headers = s.currentReq.headers ∧
    (s.applyAll (spans.map (.url · method))).currentHeaderName = s.currentHeaderName ∧
    (s.applyAll (spans.map (.url · method))).currentHeaderValue = s.currentHeaderValue := by
  induction spans generalizing s with
  | nil => simp
  | cons b spans ih => simp [ih,apply,onUrl]

/-- A callback for a header, or for the end of all headers. -/
def OfHeader (c : Callback) : Prop :=
  (∃ b, c = .headerField b) ∨ (∃ b, c = .headerValue b) ∨
    ∃ major minor, c = .headersComplete major minor

theorem ofHeader_callbacks (fields : List Field) (major minor : ℕ) :
    ∀ c ∈ fields.flatMap Field.callbacks++[.headersComplete major minor], OfHeader c := by
  intro c hc
  simp only [List.mem_append,List.mem_flatMap,Field.callbacks,List.mem_map,
    List.mem_singleton] at hc
  rcases hc with ⟨f,-,⟨b,-,rfl⟩ | ⟨b,-,rfl⟩⟩ | rfl
  · exact .inl ⟨b,rfl⟩
  · exact .inr (.inl ⟨b,rfl⟩)
  · exact .inr (.inr ⟨major,minor,rfl⟩)

theorem apply_ofHeader {c : Callback} (h : OfHeader c) (s : Assembly) :
    ∃ headers, (s.apply c).currentReq = { s.currentReq with headers := headers } := by
  rcases h with ⟨b,rfl⟩ | ⟨b,rfl⟩ | ⟨major,minor,rfl⟩
  · simp only [apply,onHeaderField]
    split
    · exact ⟨_,rfl⟩
    · exact ⟨_,rfl⟩
  · exact ⟨_,rfl⟩
  · simp only [apply,onHeadersComplete]
    split
    · exact ⟨_,rfl⟩
    · exact ⟨_,rfl⟩

theorem headers_keep {α : Type} (f : HttpRequest → α)
    (hf : ∀ r headers, f { r with headers := headers } = f r) (fields : List Field)
    (major minor : ℕ) (s : Assembly) :
    f (s.applyAll (fields.flatMap Field.callbacks++[.headersComplete major minor])).currentReq =
      f s.currentReq := by
  refine applyAll_keeps (fun s => f s.currentReq) (fun c hc s => ?_) s
  obtain ⟨headers,hheaders⟩ := apply_ofHeader (ofHeader_callbacks fields major minor c hc) s
  rw [hheaders,hf]

theorem values (s : Assembly) (value : List Bytes) :
    s.applyAll (value.map .headerValue) =
      { s with currentHeaderValue := s.currentHeaderValue++value.flatten } := by
  induction value generalizing s with
  | nil => simp
  | cons b value ih => simp [ih,apply,onHeaderValue]

theorem names (s : Assembly) (name : List Bytes) (h : s.currentHeaderValue = []) :
    s.applyAll (name.map .headerField) =
      { s with currentHeaderName := s.currentHeaderName++name.flatten } := by
  induction name generalizing s with
  | nil => simp
  | cons b name ih => simp [ih,apply,onHeaderField,h]

theorem fields_name (s : Assembly) (fields : List Field) :
    (s.applyAll (fields.flatMap Field.callbacks)).currentHeaderName =
      s.currentHeaderName++(fields.flatMap Field.name).flatten := by
  have hnames (s : Assembly) (name : List Bytes) :
      (s.applyAll (name.map .headerField)).currentHeaderName =
        s.currentHeaderName++name.flatten := by
    induction name generalizing s with
    | nil => simp
    | cons b name ih =>
      simp only [List.map_cons,applyAll_cons,ih,apply,onHeaderField]
      split <;> simp
  induction fields generalizing s with
  | nil => simp
  | cons f fields ih => simp [ih,Field.callbacks,values,hnames]

theorem onHeadersComplete_lookup (s : Assembly) (major minor : ℕ)
    (h : s.currentHeaderName ≠ []) :
    (s.onHeadersComplete major minor).currentReq.headers.lookup (lower s.currentHeaderName) =
      some s.currentHeaderValue := by
  simp [onHeadersComplete,h]

theorem onHeadersComplete_headers (s : Assembly) (major minor : ℕ) :
    (s.onHeadersComplete major minor).currentReq.headers =
      if s.currentHeaderName ≠ [] then
        s.currentReq.headers.insert (lower s.currentHeaderName) s.currentHeaderValue
      else s.currentReq.headers := by
  rw [onHeadersComplete]
  split <;> simp_all

end Assembly

theorem headCallbacks_applyAll (s : Assembly) (method : Bytes) (spans : List Bytes)
    (fields : List Field) (major minor : ℕ) :
    s.applyAll (headCallbacks method spans fields major minor) =
      ((s.onMessageBegin.applyAll (spans.map (.url · method))).applyAll
        (fields.flatMap Field.callbacks)).onHeadersComplete major minor := by
  simp [headCallbacks,Assembly.apply]

theorem begin_headers (s : Assembly) (method : Bytes) (spans : List Bytes) :
    (s.onMessageBegin.applyAll (spans.map (.url · method))).currentReq.headers = ∅ ∧
    (s.onMessageBegin.applyAll (spans.map (.url · method))).currentHeaderName = [] ∧
    (s.onMessageBegin.applyAll (spans.map (.url · method))).currentHeaderValue = [] :=
  Assembly.urls_headers s.onMessageBegin spans method

theorem head_keeps {α : Type} (f : HttpRequest → α)
    (hf : ∀ r headers, f { r with headers := headers } = f r) (s : Assembly) (method : Bytes)
    (spans : List Bytes) (fields : List Field) (major minor : ℕ) :
    f (s.applyAll (headCallbacks method spans fields major minor)).currentReq =
      f (s.onMessageBegin.applyAll (spans.map (.url · method))).currentReq := by
  rw [headCallbacks,Assembly.applyAll_cons,Assembly.applyAll_append]
  exact Assembly.headers_keep f hf fields major minor _

theorem head_line (s : Assembly) (method : Bytes) (spans : List Bytes) (fields : List Field)
    (major minor : ℕ) :
    let r := (s.applyAll (headCallbacks method spans fields major minor)).currentReq
    let l := (s.onMessageBegin.applyAll (spans.map (.url · method))).currentReq
    r.url = l.url ∧ r.path = l.path ∧ r.query = l.query :=
  ⟨head_keeps HttpRequest.url (fun _ _ => rfl) s method spans fields major minor,
    head_keeps HttpRequest.path (fun _ _ => rfl) s method spans fields major minor,
    head_keeps HttpRequest.query (fun _ _ => rfl) s method spans fields major minor⟩

theorem head_url (s : Assembly) (method : Bytes) (spans : List Bytes) (fields : List Field)
    (major minor : ℕ) :
    (s.applyAll (headCallbacks method spans fields major minor)).currentReq.url =
      spans.flatten := by
  rw [(head_line s method spans fields major minor).1,Assembly.urls_url]
  simp [Assembly.onMessageBegin]

theorem head_path_query (s : Assembly) (method : Bytes) (spans : List Bytes) (last : Bytes)
    (fields : List Field) (major minor : ℕ) :
    let r := (s.applyAll (headCallbacks method (spans++[last]) fields major minor)).currentReq
    r.path = pathOf last ∧ r.query = queryOf last := by
  obtain ⟨-,hpath,hquery⟩ := head_line s method (spans++[last]) fields major minor
  intro r
  rw [hpath,hquery]
  simp [Assembly.apply,Assembly.onUrl_path,Assembly.onUrl_query]

theorem pathOf_queryOf_length (url : Bytes) :
    url.length = (pathOf url).length+(queryOf url).length+
      if questionMark ∈ url then 1 else 0 := by
  induction url with
  | nil => rfl
  | cons b url ih =>
    by_cases hb : b = questionMark
    · simp [pathOf,queryOf,hb]
    · have hmem : questionMark ∈ b::url ↔ questionMark ∈ url := by simp [Ne.symm hb]
      simp only [pathOf,queryOf] at ih
      simp only [pathOf,queryOf,hmem,List.length_cons,ih]
      simp [hb]
      omega

theorem pathOf_of_notMem {url : Bytes} (h : questionMark ∉ url) : pathOf url = url := by
  rw [pathOf,List.takeWhile_eq_self_iff]
  intro b hb
  simp only [decide_eq_true_eq]
  rintro rfl
  exact h hb

/-- Path and query of a tail are those of the whole only where nothing precedes it,
but for the lone question mark. -/
theorem tail_line_iff (a b : Bytes) :
    (pathOf b = pathOf (a++b) ∧ queryOf b = queryOf (a++b)) ↔
      a = [] ∨ a = [questionMark] ∧ b = [] := by
  constructor
  · rintro ⟨hp,hq⟩
    have hwhole := pathOf_queryOf_length (a++b)
    have htail := pathOf_queryOf_length b
    rw [← hp,← hq,List.length_append] at hwhole
    by_cases hb : questionMark ∈ b
    · have hab : questionMark ∈ a++b := by simp [hb]
      rw [if_pos hab] at hwhole
      rw [if_pos hb] at htail
      exact .inl (List.length_eq_zero_iff.mp (by omega))
    · rw [if_neg hb] at htail
      by_cases hab : questionMark ∈ a++b
      · rw [if_pos hab] at hwhole
        have ha : questionMark ∈ a := by simpa [hb] using hab
        obtain ⟨c,rfl⟩ := List.length_eq_one_iff.mp (show a.length = 1 by omega)
        obtain rfl : questionMark = c := by simpa using ha
        rw [pathOf_of_notMem hb] at hp
        exact .inr ⟨rfl,by simpa [pathOf] using hp⟩
      · rw [if_neg hab] at hwhole
        exact .inl (List.length_eq_zero_iff.mp (by omega))
  · rintro (rfl | ⟨rfl,rfl⟩)
    · exact ⟨rfl,rfl⟩
    · exact ⟨rfl,rfl⟩

theorem head_headers_of_le_one (s : Assembly) (method : Bytes) (spans : List Bytes)
    (fields : List Field) (major minor : ℕ) (hnames : ∀ f ∈ fields, f.name.flatten ≠ [])
    (hlen : fields.length ≤ 1) (k v : Bytes) :
    (s.applyAll (headCallbacks method spans fields major minor)).currentReq.headers.lookup k =
      some v ↔ ∃ f ∈ fields, f.key = k ∧ f.text = v := by
  rw [headCallbacks_applyAll,Assembly.onHeadersComplete_headers]
  obtain ⟨hmap,hname,hvalue⟩ := begin_headers s method spans
  match fields,hlen with
  | [],_ => simp [hmap,hname]
  | [f],_ =>
    have hf : f.name.flatten ≠ [] := hnames f (by simp)
    simp only [List.flatMap_singleton,Field.callbacks,Assembly.applyAll_append]
    rw [Assembly.names _ _ hvalue,Assembly.values]
    simp only [hmap,hname,hvalue,List.nil_append]
    rw [if_pos hf]
    change ((∅ : Table Bytes Bytes).insert f.key f.text).lookup k = some v ↔ _
    by_cases hk : k = f.key
    · subst hk
      rw [AList.lookup_insert]
      simp
    · rw [AList.lookup_insert_ne hk]
      simp [Ne.symm hk]

theorem head_headers_of_two (s : Assembly) (method : Bytes) (spans : List Bytes)
    (f g : Field) (fields : List Field) (major minor : ℕ)
    (hnames : ∀ h ∈ f::g::fields, h.name.flatten ≠ []) :
    ¬ ∀ k v, (s.applyAll (headCallbacks method spans (f::g::fields) major
      minor)).currentReq.headers.lookup k = some v ↔
        ∃ h ∈ f::g::fields, h.key = k ∧ h.text = v := by
  intro hall
  rw [headCallbacks_applyAll] at hall
  obtain ⟨-,hname,-⟩ := begin_headers s method spans
  have hacc := Assembly.fields_name
    (s.onMessageBegin.applyAll (spans.map (.url · method))) (f::g::fields)
  rw [hname,List.nil_append] at hacc
  have hlong : ∀ h ∈ f::g::fields,
      h.name.flatten.length < ((f::g::fields).flatMap Field.name).flatten.length := by
    have hpos : ∀ h ∈ f::g::fields, 0 < h.name.flatten.length := fun h hh =>
      List.length_pos_iff.mpr (hnames h hh)
    intro h hh
    have hf := hpos f (by simp)
    have hg := hpos g (by simp)
    simp only [List.flatMap_cons,List.flatten_append,List.length_append]
    rcases List.mem_cons.mp hh with rfl | hh
    · omega
    · rcases List.mem_cons.mp hh with rfl | hh
      · omega
      · obtain ⟨l,r,rfl⟩ := List.append_of_mem hh
        simp only [List.flatMap_append,List.flatMap_cons,List.flatten_append,List.length_append]
        omega
  have hne : ((s.onMessageBegin.applyAll (spans.map (.url · method))).applyAll
      ((f::g::fields).flatMap Field.callbacks)).currentHeaderName ≠ [] := by
    rw [hacc,← List.length_pos_iff]
    exact Nat.zero_lt_of_lt (hlong f (by simp))
  obtain ⟨h,hh,hkey,-⟩ := (hall _ _).mp (Assembly.onHeadersComplete_lookup _ major minor hne)
  have hlen := congrArg List.length hkey
  rw [hacc,Field.key,lower_length,lower_length] at hlen
  exact absurd hlen (Nat.ne_of_lt (hlong h hh))

/-- The last URL span is the whole URL, or is what follows a URL `?`. -/
def LastSpanIsUrl (spans : List Bytes) : Prop :=
  spans.dropLast.flatten = [] ∨ spans.dropLast.flatten = [questionMark] ∧ spans.getLast? = some []

instance (spans : List Bytes) : Decidable (LastSpanIsUrl spans) := by
  unfold LastSpanIsUrl
  infer_instance

/-- A head is assembled as sent exactly where its last URL span is the whole URL and
it has at most one header. -/
theorem head_assembled_iff (s : Assembly) (method : Bytes) (spans : List Bytes)
    (fields : List Field) (major minor : ℕ) (hspans : spans ≠ [])
    (hnames : ∀ f ∈ fields, f.name.flatten ≠ []) :
    Assembled spans fields
        (s.applyAll (headCallbacks method spans fields major minor)).currentReq ↔
      LastSpanIsUrl spans ∧ fields.length ≤ 1 := by
  obtain ⟨init,last,rfl⟩ := List.eq_nil_or_concat spans |>.resolve_left hspans
  rw [List.concat_eq_append]
  obtain ⟨hpath,hquery⟩ := head_path_query s method init last fields major minor
  have hline := tail_line_iff init.flatten last
  have hflat : (init++[last]).flatten = init.flatten++last := by simp
  have hcond : LastSpanIsUrl (init++[last]) ↔
      init.flatten = [] ∨ init.flatten = [questionMark] ∧ last = [] := by
    simp [LastSpanIsUrl]
  rw [hcond,← hline]
  constructor
  · rintro ⟨-,hp,hq,hheaders⟩
    rw [hpath,hflat] at hp
    rw [hquery,hflat] at hq
    refine ⟨⟨hp,hq⟩,?_⟩
    match fields with
    | [] => simp
    | [f] => simp
    | f::g::fields =>
      exact absurd hheaders (head_headers_of_two s method _ f g fields major minor hnames)
  · rintro ⟨⟨hp,hq⟩,hlen⟩
    exact ⟨head_url s method _ fields major minor,by rw [hpath,hflat,hp],by rw [hquery,hflat,hq],
      head_headers_of_le_one s method _ fields major minor hnames hlen⟩

/-- A `GET` with two headers, every element in one span. -/
def twoHeaders : List Field :=
  [⟨[ascii "Host"],[ascii "localhost"]⟩,⟨[ascii "X-Test"],[ascii "1"]⟩]

theorem head_assembled_iff_sample :
    Assembled [ascii "/a?b"] twoHeaders
        (({} : Assembly).applyAll
          (headCallbacks (ascii "GET") [ascii "/a?b"] twoHeaders 1 1)).currentReq ↔
      LastSpanIsUrl [ascii "/a?b"] ∧ twoHeaders.length ≤ 1 :=
  head_assembled_iff {} (ascii "GET") [ascii "/a?b"] twoHeaders 1 1 (by decide) (by decide)

/-- The second header is filed under the names of both, and a URL reported in two
spans has the second for its path. -/
theorem second_header_misfiled :
    (twoHeaders.map Field.key).Nodup ∧ (∀ f ∈ twoHeaders, f.name.flatten ≠ []) ∧
    ¬ Assembled [ascii "/a?b"] twoHeaders
        (({} : Assembly).applyAll
          (headCallbacks (ascii "GET") [ascii "/a?b"] twoHeaders 1 1)).currentReq ∧
    ¬ Assembled [ascii "/lo",ascii "ng?b"] []
        (({} : Assembly).applyAll
          (headCallbacks (ascii "GET") [ascii "/lo",ascii "ng?b"] [] 1 1)).currentReq := by
  refine ⟨by decide,by decide,?_,?_⟩
  · intro h
    have hfiled := (h.headers (ascii "x-test") (ascii "1")).mpr
      ⟨⟨[ascii "X-Test"],[ascii "1"]⟩,by decide,by decide,by decide⟩
    exact absurd hfiled (by decide)
  · intro h
    exact absurd h.path (by decide)

end HttpSession
end AsioQuickjs
