import AsioQuickjs.HttpReads
import AsioQuickjs.HttpAssembly

/-! Requests that arrive back to back on one connection. A session hands over one request a
read, so each request is handled where each read brings exactly one, and where reads bring
more the earlier ones are lost. -/
namespace AsioQuickjs
namespace HttpSession

variable {P : Llhttp}

/-- A request: its bytes, and what the parser reports of it, in spans. -/
structure Request where
  bytes : Bytes
  method : Bytes
  spans : List Bytes
  fields : List Field
  httpMajor : ℕ := 1
  httpMinor : ℕ := 1
  body : List Bytes := []

def Request.callbacks (r : Request) : List Callback :=
  headCallbacks r.method r.spans r.fields r.httpMajor r.httpMinor++
    (r.body.map .body++[.messageComplete])

/-- What llhttp makes of a request from its start: the callbacks of the request, and then
those of whatever follows it in the same call; and of a part of it, the beginning of a
message but not its end. -/
structure Request.Parsed (P : Llhttp) (r : Request) : Prop where
  spans_ne_nil : r.spans ≠ []
  names : ∀ f ∈ r.fields, f.name.flatten ≠ []
  whole : ∀ b, P.execute P.init (r.bytes++b) =
    (r.callbacks++(P.execute P.init b).1,(P.execute P.init b).2)
  begun : ∀ p, p <+: r.bytes → p ≠ [] → p ≠ r.bytes →
    ∃ cs, (P.execute P.init p).1 = .messageBegin::cs ∧ .messageComplete ∉ cs

/-- The handler is given the request's own method, url, headers and body. -/
structure Own (r : Request) (req : HttpRequest) : Prop where
  method : req.method = r.method
  url : req.url = r.spans.flatten
  headers : ∀ k v, req.headers.lookup k = some v ↔ ∃ f ∈ r.fields, f.key = k ∧ f.text = v
  body : req.body = r.body.flatten

/-- The handler has run once for each request, in order. -/
def AllHandled (rs : List Request) (s : Session P) : Prop := List.Forall₂ Own rs s.handled

namespace Assembly

theorem urls_method (s : Assembly) {spans : List Bytes} (method : Bytes) (h : spans ≠ []) :
    (s.applyAll (spans.map (.url · method))).currentReq.method = method := by
  induction spans generalizing s with
  | nil => exact absurd rfl h
  | cons b spans ih =>
    rw [List.map_cons,applyAll_cons]
    by_cases hspans : spans = []
    · subst hspans
      rfl
    · exact ih _ hspans

theorem urls_body (s : Assembly) (spans : List Bytes) (method : Bytes) :
    (s.applyAll (spans.map (.url · method))).currentReq.body = s.currentReq.body := by
  induction spans generalizing s with
  | nil => rfl
  | cons b spans ih => simp [ih,apply,onUrl]

theorem bodies (s : Assembly) (body : List Bytes) :
    s.applyAll (body.map .body) =
      { s with currentReq := { s.currentReq with body := s.currentReq.body++body.flatten } } := by
  induction body generalizing s with
  | nil => simp
  | cons b body ih => simp [ih,apply,onBody]

theorem not_complete (s : Assembly) {cs : List Callback} (h : .messageComplete ∉ cs)
    (hs : s.messageComplete = false) : (s.applyAll cs).messageComplete = false := by
  induction cs generalizing s with
  | nil => exact hs
  | cons c cs ih =>
    refine ih (s.apply c) (fun hm => h (List.mem_cons_of_mem c hm)) ?_
    cases c with
    | messageComplete => exact absurd List.mem_cons_self h
    | messageBegin => rfl
    | url => exact hs
    | headerField =>
      simp only [apply,onHeaderField]
      split <;> exact hs
    | headerValue => exact hs
    | headersComplete =>
      simp only [apply,onHeadersComplete]
      split <;> exact hs
    | body => exact hs

end Assembly

theorem head_method_body (s : Assembly) (method : Bytes) {spans : List Bytes}
    (fields : List Field) (major minor : ℕ) (h : spans ≠ []) :
    let r := (s.applyAll (headCallbacks method spans fields major minor)).currentReq
    r.method = method ∧ r.body = [] := by
  have hmethod := head_keeps HttpRequest.method (fun _ _ => rfl) s method spans fields major minor
  have hbody := head_keeps HttpRequest.body (fun _ _ => rfl) s method spans fields major minor
  rw [Assembly.urls_method _ method h] at hmethod
  rw [Assembly.urls_body] at hbody
  exact ⟨hmethod,hbody⟩

/-- What the session holds of a request at its end is the request, unless it has more than
one header. -/
theorem callbacks_own {r : Request} (hr : r.Parsed P) (s : Assembly) :
    (s.applyAll r.callbacks).messageComplete = true ∧
    (Own r (s.applyAll r.callbacks).currentReq ↔ r.fields.length ≤ 1) := by
  have hend : s.applyAll r.callbacks = ((s.applyAll (headCallbacks r.method r.spans r.fields
      r.httpMajor r.httpMinor)).applyAll (r.body.map .body)).onMessageComplete := by
    rw [Request.callbacks,Assembly.applyAll_append,Assembly.applyAll_append]
    rfl
  obtain ⟨hmethod,hbody⟩ := head_method_body s r.method r.fields r.httpMajor r.httpMinor
    hr.spans_ne_nil
  have hurl := head_url s r.method r.spans r.fields r.httpMajor r.httpMinor
  rw [hend,Assembly.bodies]
  refine ⟨rfl,?_⟩
  constructor
  · intro hown
    match hfields : r.fields with
    | [] => simp
    | [f] => simp
    | f::g::fields =>
      have hnames := hr.names
      have hheaders := hown.headers
      rw [hfields] at hnames hheaders
      exact absurd hheaders (head_headers_of_two s r.method r.spans f g fields r.httpMajor
        r.httpMinor hnames)
  · intro hlen
    exact
      { method := hmethod
        url := hurl
        headers := head_headers_of_le_one s r.method r.spans r.fields r.httpMajor r.httpMinor
          hr.names hlen
        body := by
          simp only [Assembly.onMessageComplete,hbody,List.nil_append] }

/-- A session between two requests. -/
structure Fresh (s : Session P) : Prop where
  buffer : s.buffer = []
  parser : s.parser = P.init
  messageComplete : s.messageComplete = false

theorem fresh_accepted (P : Llhttp) : Fresh (accepted P) := ⟨rfl,rfl,rfl⟩

def Session.parsed (s : Session P) (c : Bytes) : Assembly :=
  s.toAssembly.applyAll (P.execute P.init c).1

theorem parseHttpData_parsed {s : Session P} (hs : Fresh s) {c : Bytes} (hc : c ≠ []) :
    (Session.parseHttpData { s with buffer := c }).messageComplete =
        (s.parsed c).messageComplete ∧
      (Session.parseHttpData { s with buffer := c }).currentReq = (s.parsed c).currentReq := by
  simp only [Session.parseHttpData,if_neg hc,hs.parser,Session.parsed]
  split <;> exact ⟨rfl,rfl⟩

theorem onRead_complete {s : Session P} (hs : Fresh s) {c : Bytes} (hc : c ≠ [])
    (h : (s.parsed c).messageComplete = true) :
    Fresh (s.doRead.onRead c) ∧
      (s.doRead.onRead c).handled = s.handled++[(s.parsed c).currentReq] := by
  obtain ⟨hcomplete,hreq⟩ := parseHttpData_parsed hs hc
  rw [Session.onRead,doRead_received,hs.buffer,List.nil_append,if_pos (hcomplete.trans h)]
  refine ⟨⟨rfl,rfl,rfl⟩,?_⟩
  rw [Session.handleRequest,parseHttpData_handled,hreq]

theorem onRead_incomplete {s : Session P} (hs : Fresh s) {c : Bytes}
    (h : (s.parsed c).messageComplete = false) :
    (s.doRead.onRead c).handled = s.handled := by
  rw [Session.onRead,doRead_received,hs.buffer,List.nil_append]
  by_cases hc : c = []
  · simp [Session.parseHttpData,hc,hs.messageComplete]
  · simp [(parseHttpData_parsed hs hc).1,h]

theorem handled_onRead (s : Session P) (c : Bytes) :
    (s.doRead.onRead c).handled.length ≤ s.handled.length+1 := by
  rw [Session.onRead,doRead_received]
  split <;> simp [Session.handleRequest]

theorem handled_reads (s : Session P) (cut : List Bytes) :
    (s.reads cut).handled.length ≤ s.handled.length+cut.length := by
  induction cut generalizing s with
  | nil => simp
  | cons c cut ih =>
    have hread := handled_onRead s c
    have hrest := ih (s.doRead.onRead c)
    rw [reads_cons,List.length_cons]
    omega

def bytesOf (rs : List Request) : Bytes := (rs.map Request.bytes).flatten

/-- llhttp has nothing to say about no bytes. -/
def Idle (P : Llhttp) : Prop := P.execute P.init [] = ([],true,P.init)

theorem Request.Parsed.bytes_ne_nil {r : Request} (hr : r.Parsed P) (hP : Idle P) :
    r.bytes ≠ [] := by
  intro hnil
  have hwhole := hr.whole []
  rw [hnil,List.append_nil,hP] at hwhole
  have hcallbacks := (Prod.mk.inj hwhole).1
  rw [Request.callbacks,headCallbacks] at hcallbacks
  cases hcallbacks

theorem execute_bytesOf {rs : List Request} (hrs : ∀ r ∈ rs, r.Parsed P) (b : Bytes) :
    P.execute P.init (bytesOf rs++b) =
      (rs.flatMap Request.callbacks++(P.execute P.init b).1,(P.execute P.init b).2) := by
  induction rs with
  | nil => rfl
  | cons r rs ih =>
    have hr := hrs r List.mem_cons_self
    have hsplit : bytesOf (r::rs)++b = r.bytes++(bytesOf rs++b) := by simp [bytesOf]
    rw [hsplit,hr.whole,ih fun t ht => hrs t (List.mem_cons_of_mem r ht)]
    simp

theorem prefix_bytesOf {rs : List Request} {c : Bytes} (h : c <+: bytesOf rs) :
    ∃ done todo p, rs = done++todo ∧ c = bytesOf done++p ∧
      (p = [] ∨ ∃ r rest, todo = r::rest ∧ p <+: r.bytes ∧ p ≠ [] ∧ p ≠ r.bytes) := by
  induction rs generalizing c with
  | nil =>
    obtain rfl : c = [] := List.prefix_nil.mp h
    exact ⟨[],[],[],rfl,rfl,.inl rfl⟩
  | cons r rs ih =>
    have hr : r.bytes <+: bytesOf (r::rs) := List.prefix_append r.bytes (bytesOf rs)
    rcases List.prefix_or_prefix_of_prefix h hr with hle | ⟨d,rfl⟩
    · by_cases hnil : c = []
      · exact ⟨[],r::rs,[],rfl,hnil,.inl rfl⟩
      · by_cases hall : c = r.bytes
        · exact ⟨[r],rs,[],rfl,by simp [bytesOf,hall],.inl rfl⟩
        · exact ⟨[],r::rs,c,rfl,rfl,.inr ⟨r,rs,rfl,hle,hnil,hall⟩⟩
    · have hd : d <+: bytesOf rs := by
        rw [show bytesOf (r::rs) = r.bytes++bytesOf rs from rfl] at h
        exact (List.prefix_append_right_inj r.bytes).mp h
      obtain ⟨done,todo,p,rfl,rfl,hp⟩ := ih hd
      exact ⟨r::done,todo,p,rfl,by simp [bytesOf],hp⟩

theorem bytesOf_of_complete {s : Session P} (hs : Fresh s) {rs : List Request}
    (hrs : ∀ r ∈ rs, r.Parsed P) (hP : Idle P) {c : Bytes} (h : c <+: bytesOf rs)
    (hcomplete : (s.parsed c).messageComplete = true) :
    ∃ done todo, rs = done++todo ∧ c = bytesOf done ∧ done ≠ [] := by
  obtain ⟨done,todo,p,rfl,rfl,hp⟩ := prefix_bytesOf h
  have hdone : ∀ r ∈ done, r.Parsed P := fun r hr => hrs r (List.mem_append_left todo hr)
  rw [Session.parsed,execute_bytesOf hdone,Assembly.applyAll_append] at hcomplete
  rcases hp with rfl | ⟨r,rest,rfl,hstart,hne,hpart⟩
  · refine ⟨done,todo,rfl,List.append_nil _,?_⟩
    rintro rfl
    rw [hP] at hcomplete
    exact absurd hcomplete (by simp [hs.messageComplete])
  · -- a message has begun behind the whole ones, and has not ended
    have hr : r.Parsed P := hrs r (by simp)
    obtain ⟨cs,hcs,hnot⟩ := hr.begun p hstart hne hpart
    rw [hcs,Assembly.applyAll_cons,Assembly.not_complete _ hnot rfl] at hcomplete
    cases hcomplete

theorem reads_aligned {s : Session P} (hs : Fresh s) {rs : List Request}
    (hrs : ∀ r ∈ rs, r.Parsed P) (hP : Idle P) {cut : List Bytes}
    (hcut : cut.flatten = bytesOf rs)
    (hall : (s.reads cut).handled.length = s.handled.length+cut.length) :
    ∃ groups : List (List Request), groups.flatten = rs ∧ cut = groups.map bytesOf ∧
      ∀ g ∈ groups, g ≠ [] := by
  induction cut generalizing s rs with
  | nil =>
    refine ⟨[],?_,rfl,by simp⟩
    cases rs with
    | nil => rfl
    | cons r rs =>
      have hnil := (List.append_eq_nil_iff.mp hcut.symm).1
      exact absurd hnil ((hrs r List.mem_cons_self).bytes_ne_nil hP)
  | cons c cut ih =>
    have hread := handled_onRead s c
    have hrest := handled_reads (s.doRead.onRead c) cut
    rw [reads_cons,List.length_cons] at hall
    have hcomplete : (s.parsed c).messageComplete = true := by
      rw [← Bool.not_eq_false]
      intro hfalse
      rw [onRead_incomplete hs hfalse] at hrest
      omega
    obtain ⟨done,todo,rfl,rfl,hne⟩ := bytesOf_of_complete hs hrs hP
      ⟨cut.flatten,hcut⟩ hcomplete
    have hdone : bytesOf done ≠ [] := by
      obtain ⟨r,done,rfl⟩ := List.exists_cons_of_ne_nil hne
      intro hnil
      exact (hrs r (by simp)).bytes_ne_nil hP (List.append_eq_nil_iff.mp hnil).1
    have htodo : cut.flatten = bytesOf todo := by
      have happ : bytesOf (done++todo) = bytesOf done++bytesOf todo := by simp [bytesOf]
      rw [happ] at hcut
      exact List.append_cancel_left hcut
    obtain ⟨hfresh,hhandled⟩ := onRead_complete hs hdone hcomplete
    have hone := congrArg List.length hhandled
    rw [List.length_append,List.length_singleton] at hone
    obtain ⟨groups,rfl,rfl,hgroups⟩ := ih hfresh
      (fun r hr => hrs r (List.mem_append_right done hr)) htodo (by omega)
    exact ⟨done::groups,rfl,rfl,List.forall_mem_cons.mpr ⟨hne,hgroups⟩⟩

/-- Requests that come one a read are all handed over, each as its own if it has at most
one header. -/
theorem reads_separate {s : Session P} (hs : Fresh s) {rs : List Request}
    (hrs : ∀ r ∈ rs, r.Parsed P) (hP : Idle P) :
    ∃ reqs, (s.reads (rs.map Request.bytes)).handled = s.handled++reqs ∧
      (List.Forall₂ Own rs reqs ↔ ∀ r ∈ rs, r.fields.length ≤ 1) := by
  induction rs generalizing s with
  | nil => exact ⟨[],by simp,by simp⟩
  | cons r rs ih =>
    have hr := hrs r List.mem_cons_self
    have hparsed : s.parsed r.bytes = s.toAssembly.applyAll r.callbacks := by
      have hwhole := hr.whole []
      rw [List.append_nil,hP] at hwhole
      rw [Session.parsed,hwhole,List.append_nil]
    obtain ⟨hcomplete,hown⟩ := callbacks_own hr s.toAssembly
    rw [← hparsed] at hcomplete hown
    obtain ⟨hfresh,hhandled⟩ := onRead_complete hs (hr.bytes_ne_nil hP) hcomplete
    obtain ⟨reqs,hreqs,hall⟩ := ih hfresh fun t ht => hrs t (List.mem_cons_of_mem r ht)
    refine ⟨(s.parsed r.bytes).currentReq::reqs,?_,?_⟩
    · rw [List.map_cons,reads_cons,hreqs,hhandled]
      simp
    · rw [List.forall₂_cons,hown,hall,List.forall_mem_cons]

/-- Each read brings one request, and no request has more than one header. -/
def Separate (rs : List Request) (cut : List Bytes) : Prop :=
  cut = rs.map Request.bytes ∧ ∀ r ∈ rs, r.fields.length ≤ 1

theorem length_le_flatten {groups : List (List Request)} (hne : ∀ g ∈ groups, g ≠ []) :
    groups.length ≤ groups.flatten.length := by
  induction groups with
  | nil => simp
  | cons g groups ih =>
    have hg : 0 < g.length := List.length_pos_iff.mpr (hne g List.mem_cons_self)
    have hrest := ih fun k hk => hne k (List.mem_cons_of_mem g hk)
    rw [List.length_cons,List.flatten_cons,List.length_append]
    omega

theorem map_bytesOf {groups : List (List Request)} (hne : ∀ g ∈ groups, g ≠ [])
    (hlen : groups.flatten.length ≤ groups.length) :
    groups.map bytesOf = groups.flatten.map Request.bytes := by
  induction groups with
  | nil => rfl
  | cons g groups ih =>
    have hgroups : ∀ k ∈ groups, k ≠ [] := fun k hk => hne k (List.mem_cons_of_mem g hk)
    have hg : 0 < g.length := List.length_pos_iff.mpr (hne g List.mem_cons_self)
    have hrest := length_le_flatten hgroups
    rw [List.length_cons,List.flatten_cons,List.length_append] at hlen
    obtain ⟨r,rfl⟩ : ∃ r, g = [r] := List.length_eq_one_iff.mp (by omega)
    rw [List.map_cons,ih hgroups (by omega)]
    simp [bytesOf]

/-- Requests that arrive back to back are each handled, as their own, where each read brings
one of them; and where no more reads bring them than they are, only there. -/
theorem pipelined (hP : Idle P) {rs : List Request} (hrs : ∀ r ∈ rs, r.Parsed P)
    {cut : List Bytes} (hcut : cut.flatten = bytesOf rs) :
    (Separate rs cut → AllHandled rs ((accepted P).reads cut)) ∧
    (cut.length ≤ rs.length → AllHandled rs ((accepted P).reads cut) → Separate rs cut) := by
  obtain ⟨reqs,hreqs,hown⟩ := reads_separate (fresh_accepted P) hrs hP
  have hnone : (accepted P).handled = [] := rfl
  rw [hnone,List.nil_append] at hreqs
  constructor
  · rintro ⟨rfl,hfields⟩
    rw [AllHandled,hreqs]
    exact hown.mpr hfields
  · intro hle hall
    have hlen := hall.length_eq
    have hbound := handled_reads (accepted P) cut
    rw [hnone,List.length_nil,Nat.zero_add] at hbound
    obtain ⟨groups,rfl,rfl,hne⟩ := reads_aligned (fresh_accepted P) hrs hP hcut
      (by rw [hnone,List.length_nil]; omega)
    have hsingle : groups.map bytesOf = groups.flatten.map Request.bytes :=
      map_bytesOf hne (by rw [List.length_map] at hbound; omega)
    rw [hsingle,AllHandled,hreqs] at hall
    exact ⟨hsingle,hown.mp hall⟩

theorem onBytes_append (s : ParserState) (a b : Bytes) :
    s.onBytes (a++b) =
      ((s.onBytes a).1++((s.onBytes a).2.onBytes b).1,((s.onBytes a).2.onBytes b).2) := by
  induction a generalizing s with
  | nil => rfl
  | cons x a ih => simp [ParserState.onBytes,ih]

theorem joinSpans_complete (cs ds : List Callback) :
    joinSpans (cs++.messageComplete::ds) = joinSpans cs++.messageComplete::joinSpans ds := by
  induction cs with
  | nil => rfl
  | cons c cs ih =>
    cases hcs : joinSpans cs with
    | nil => cases c <;> simp [joinSpans,ih,hcs]
    | cons d rest => cases c <;> cases d <;> simp [joinSpans,ih,hcs]

theorem parsed_requestParser {r : Request} {cs : List Callback} (hspans : r.spans ≠ [])
    (hnames : ∀ f ∈ r.fields, f.name.flatten ≠ [])
    (hwhole : ({} : ParserState).onBytes r.bytes = (cs++[.messageComplete],{}))
    (hjoin : joinSpans cs++[.messageComplete] = r.callbacks)
    (hbegun : ∀ p ∈ r.bytes.inits, p ≠ [] → p ≠ r.bytes →
      (requestParser.execute requestParser.init p).1.head? = some .messageBegin ∧
      .messageComplete ∉ (requestParser.execute requestParser.init p).1) :
    r.Parsed requestParser where
  spans_ne_nil := hspans
  names := hnames
  whole b := by
    have happ := onBytes_append {} r.bytes b
    rw [hwhole,List.append_assoc] at happ
    simp only [requestParser,happ,List.singleton_append,joinSpans_complete,← hjoin,
      List.append_assoc]
  begun p hp hne hpart := by
    obtain ⟨hhead,hnot⟩ := hbegun p ((List.mem_inits p r.bytes).mpr hp) hne hpart
    obtain ⟨ds,hds⟩ := List.head?_eq_some_iff.mp hhead
    rw [hds] at hnot ⊢
    exact ⟨ds,rfl,fun hm => hnot (List.mem_cons_of_mem _ hm)⟩

def getRequest (url : Bytes) : Request where
  bytes := ascii "GET "++url++ascii " HTTP/1.1\r\nHost: x\r\n\r\n"
  method := ascii "GET"
  spans := [url]
  fields := [⟨[ascii "Host"],[ascii "x"]⟩]

def twoGets : List Request := [getRequest (ascii "/a"),getRequest (ascii "/b")]

theorem twoGets_parsed : ∀ r ∈ twoGets, r.Parsed requestParser := by
  have hspans : ∀ r ∈ twoGets, r.spans ≠ [] := by decide
  have hnames : ∀ r ∈ twoGets, ∀ f ∈ r.fields, f.name.flatten ≠ [] := by decide
  have hcs : ∀ r ∈ twoGets, ∃ cs ∈ [(({} : ParserState).onBytes r.bytes).1.dropLast],
      ({} : ParserState).onBytes r.bytes = (cs++[.messageComplete],{}) ∧
      joinSpans cs++[.messageComplete] = r.callbacks := by decide +kernel
  have hbegun : ∀ r ∈ twoGets, ∀ p ∈ r.bytes.inits, p ≠ [] → p ≠ r.bytes →
      (requestParser.execute requestParser.init p).1.head? = some .messageBegin ∧
      .messageComplete ∉ (requestParser.execute requestParser.init p).1 := by decide +kernel
  intro r hr
  obtain ⟨cs,-,hwhole,hjoin⟩ := hcs r hr
  exact parsed_requestParser (hspans r hr) (hnames r hr) hwhole hjoin (hbegun r hr)

theorem pipelined_sample :
    (Separate twoGets (twoGets.map Request.bytes) →
      AllHandled twoGets ((accepted requestParser).reads (twoGets.map Request.bytes))) ∧
    ((twoGets.map Request.bytes).length ≤ twoGets.length →
      AllHandled twoGets ((accepted requestParser).reads (twoGets.map Request.bytes)) →
      Separate twoGets (twoGets.map Request.bytes)) :=
  have hidle : Idle requestParser := rfl
  pipelined hidle twoGets_parsed rfl

/-- Of two requests in one read the handler is given the second only. -/
theorem not_pipelined :
    ¬ ∀ (P : Llhttp) (rs : List Request) (cut : List Bytes), Idle P →
      (∀ r ∈ rs, r.Parsed P) → cut.flatten = bytesOf rs →
      AllHandled rs ((accepted P).reads cut) := by
  intro h
  have hall := h requestParser twoGets [bytesOf twoGets] rfl twoGets_parsed (List.append_nil _)
  have hone : ((accepted requestParser).reads [bytesOf twoGets]).handled.length = 1 := by
    decide +kernel
  have hlen := hall.length_eq
  rw [hone] at hlen
  cases hlen

end HttpSession
end AsioQuickjs
