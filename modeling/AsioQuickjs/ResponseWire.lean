import AsioQuickjs.FetchSettles
import AsioQuickjs.HeaderBlocks
import AsioQuickjs.HeaderCopy
import AsioQuickjs.RequestWire

/-! What of a response reaches the script: the callbacks of a transfer, the native result, and
the `Response` that `fetch` makes of it. -/
namespace AsioQuickjs
namespace ResponseWire

open Fetch (RawResult Settlement int32OfLong makeRawResult pairsToHeaders responseFromRaw run
  schedule)
open HeaderBlocks (Block HeaderLine Transfer deliver headerCb stripBlanks)
open Headers (normalizeName normalizeValue toLowerCase trim)
open NativeFetch (FetchOptions Report makeResult)

structure Download where
  head : Transfer := {}
  body : Bytes := []

/-- `write_cb` -/
def writeCb (body ptr : Bytes) (size nmemb : ℕ) : Bytes × ℕ :=
  (body++ptr.take (size*nmemb),size*nmemb)

/-- curl hands over a line of a head, or some bytes of the body. -/
inductive Callback
  | header (line : Bytes)
  | write (bytes : Bytes)

def Callback.line? : Callback → Option Bytes
  | .header line => some line
  | .write _ => none

def Callback.data : Callback → Bytes
  | .header _ => []
  | .write bytes => bytes

/-- The size is 1 in both, and curl fails a transfer that takes less than it was given. -/
def step (d : Download) : Callback → Option Download
  | .header line =>
    let r := headerCb d.head line 1 line.length
    if r.2 = line.length then some { d with head := r.1 } else none
  | .write bytes =>
    let r := writeCb d.body bytes 1 bytes.length
    if r.2 = bytes.length then some { d with body := r.1 } else none

/-- What `make_result` reads, beside what curl reports. -/
def Download.report (d : Download) (p : Report) : Report := { d.head.report p with body := d.body }

def settlements (newString : Bytes → JsString) (o : FetchOptions) (p : Report) (d : Download)
    (after : ℕ) : List Settlement :=
  (run {} (schedule newString (makeResult o (d.report p)) 0 after)).settlements

/-- How `JS_NewStringLen` reads bytes: as UTF-8, with U+FFFD for what is none. -/
structure ReadsUtf8 (newString : Bytes → JsString) : Prop where
  wellformed : ∀ bs us, Utf8.decode bs = some us → newString bs = us
  replaced : ∀ bs, Utf8.decode bs = none → 0xFFFD ∈ newString bs

/-- The text of bytes that are the UTF-8 of characters of eight bits. -/
def latin1Text (bs : Bytes) : Option JsString := (Utf8.decode bs).filter (·.all (· ≤ 0xff))

def entry (l : HeaderLine) : Option (JsString × JsString) :=
  if cStr l.name ≠ [] ∧ (cStr l.name).all HttpMessage.isTokenChar = true then
    (latin1Text (cStr (stripBlanks l.value))).map fun v =>
      (toLowerCase ((cStr l.name).map UInt8.toNat),trim v)
  else none

/-- What the constructor of `Response` asks of a transfer. -/
def Accepted (p : Report) (statusText : Bytes) : Prop :=
  200 ≤ int32OfLong p.responseCode ∧ int32OfLong p.responseCode ≤ 599 ∧
    Response.isNullBodyStatus (int32OfLong p.responseCode) = false ∧
    (latin1Text statusText).isSome

instance (p : Report) (statusText : Bytes) : Decidable (Accepted p statusText) :=
  inferInstanceAs (Decidable (_ ∧ _ ∧ _ ∧ _))

theorem headerCb_length (self : Transfer) (line : Bytes) :
    (headerCb self line 1 line.length).2 = line.length := by
  have hone : 1*line.length = line.length := Nat.one_mul _
  simp only [headerCb,hone]
  split
  · rfl
  · split
    · rfl
    · split <;> rfl

theorem run_step (d : Download) (cs : List Callback) :
    Trace.run step d cs =
      some ⟨(deliver d.head (cs.filterMap Callback.line?)).1,d.body++cs.flatMap Callback.data⟩ := by
  induction cs generalizing d with
  | nil => simp [deliver]
  | cons c cs ih =>
    cases c with
    | header line =>
      simp only [Trace.run,step,headerCb_length,if_true,ih]
      simp [deliver,Callback.line?,Callback.data]
    | write bytes =>
      have hwrite : writeCb d.body bytes 1 bytes.length = (d.body++bytes,bytes.length) := by
        simp [writeCb]
      simp only [Trace.run,step,hwrite,if_true,ih]
      simp [List.filterMap_cons,Callback.line?,Callback.data]

theorem deliver_trailers (self : Transfer) (bs : List Block) (b : Block) (ts : List HeaderLine) :
    (deliver self (bs.flatMap Block.lines++b.lines++ts.map HeaderLine.bytes)).1 =
      { b.content with responseHeaders :=
          (b.headers++ts).map fun l => (l.name,stripBlanks l.value) } := by
  simp only [HeaderBlocks.deliver_append,HeaderBlocks.deliver_block,HeaderBlocks.deliver_headers]
  simp [Block.content]

theorem decodeFrom_low {s : Utf8.State} {bs : Bytes} {us : List ℕ} (hs : s.Wide)
    (h : Utf8.decodeFrom s bs = some us) (hlow : ∀ u ∈ us, u < 0x80) :
    s = .start ∧ ∀ b ∈ bs, b.toNat < 0x80 := by
  induction bs generalizing s us with
  | nil =>
    cases s with
    | start => exact ⟨rfl,by simp⟩
    | inside => cases h
  | cons b bs ih =>
    rw [Utf8.decodeFrom_cons] at h
    obtain ⟨⟨ws,t⟩,hstep,h⟩ := Option.bind_eq_some_iff.mp h
    obtain ⟨vs,hvs,rfl⟩ := Option.map_eq_some_iff.mp h
    obtain ⟨ht,hws⟩ := Utf8.step_wide hs hstep
    obtain ⟨rfl,hbytes⟩ := ih ht hvs fun u hu => hlow u (List.mem_append_right _ hu)
    have hsame : ∀ u ∈ ws, u = b.toNat ∧ u < 0x80 := fun u hu =>
      have hu' := hlow u (List.mem_append_left _ hu)
      ⟨hws u hu hu',hu'⟩
    cases s with
    | start =>
      refine ⟨rfl,List.forall_mem_cons.mpr ⟨?_,hbytes⟩⟩
      by_contra hwide
      simp only [Utf8.step,if_neg hwide] at hstep
      split_ifs at hstep <;> cases hstep
    | inside left low high acc =>
      exfalso
      simp only [Utf8.step] at hstep
      split at hstep
      · next hb =>
        cases left with
        | zero =>
          simp only [Option.some.injEq,Prod.mk.injEq,and_true] at hstep
          obtain ⟨u,hu⟩ : ∃ u, u ∈ ws := by
            rw [← hstep,Utf8.units]
            split
            · exact ⟨_,List.mem_singleton_self _⟩
            · exact ⟨_,List.mem_cons_self⟩
          obtain ⟨rfl,hlt⟩ := hsame u hu
          have hge := hs.1
          omega
        | succ left => cases hstep
      · cases hstep

theorem isTokenChar_iff : ∀ b < 256,
    HttpMessage.isTokenChar b.toUInt8 = Headers.isToken b := by
  decide +kernel

theorem isToken_toNat (b : UInt8) : Headers.isToken b.toNat = HttpMessage.isTokenChar b := by
  rw [← isTokenChar_iff b.toNat b.toNat_lt]
  congr 1
  exact UInt8.ofNat_toNat

theorem token_iff {newString : Bytes → JsString} (hn : ReadsUtf8 newString) (bs : Bytes) :
    (newString bs ≠ [] ∧ (newString bs).all Headers.isToken = true ↔
      bs ≠ [] ∧ bs.all HttpMessage.isTokenChar = true) ∧
    (bs.all HttpMessage.isTokenChar = true → newString bs = bs.map UInt8.toNat) := by
  have hascii (h : bs.all HttpMessage.isTokenChar = true) :
      newString bs = bs.map UInt8.toNat := by
    refine hn.wellformed _ _ ?_
    have hlow : ∀ b ∈ bs, b.toNat < 0x80 := fun b hb =>
      RequestWire.isToken_lt ((isToken_toNat b).trans (List.all_eq_true.mp h b hb))
    have hdecode := Utf8.decode_ascii hlow []
    rw [List.append_nil] at hdecode
    rw [hdecode]
    simp [Utf8.decode,Utf8.decodeFrom]
  refine ⟨⟨fun h => ?_,fun h => ?_⟩,hascii⟩
  · obtain ⟨hne,hall⟩ := h
    rw [List.all_eq_true] at hall
    cases hdecode : Utf8.decode bs with
    | none => exact absurd (hall _ (hn.replaced bs hdecode)) (by decide)
    | some us =>
      rw [hn.wellformed bs us hdecode] at hne hall
      have hlow := (decodeFrom_low (s := .start) trivial hdecode fun u hu =>
        RequestWire.isToken_lt (hall u hu)).2
      refine ⟨fun hnil => ?_,List.all_eq_true.mpr fun b hb => ?_⟩
      · rw [hnil] at hdecode
        exact hne (Option.some.inj hdecode).symm
      · rw [← isToken_toNat]
        exact hall _ ((Utf8.mem_decode_iff hdecode (hlow b hb)).mpr hb)
  · obtain ⟨hne,hall⟩ := h
    rw [hascii hall]
    refine ⟨mt List.map_eq_nil_iff.mp hne,List.all_eq_true.mpr fun c hc => ?_⟩
    obtain ⟨b,hb,rfl⟩ := List.mem_map.mp hc
    rw [isToken_toNat]
    exact List.all_eq_true.mp hall b hb

section

variable {newString : Bytes → JsString} (hn : ReadsUtf8 newString)

include hn

theorem normalizeName_bytes (bs : Bytes) :
    (normalizeName (newString bs)).toOption =
      if bs ≠ [] ∧ bs.all HttpMessage.isTokenChar = true then
        some (toLowerCase (bs.map UInt8.toNat))
      else none := by
  obtain ⟨htoken,hread⟩ := token_iff hn bs
  by_cases h : bs ≠ [] ∧ bs.all HttpMessage.isTokenChar = true
  · obtain ⟨hne,hall⟩ := htoken.mpr h
    rw [if_pos h,normalizeName,if_neg hne,if_pos hall,hread h.2]
    rfl
  · rw [if_neg h,normalizeName]
    by_cases hne : newString bs = []
    · rw [if_pos hne]
      rfl
    · rw [if_neg hne,if_neg fun hall => h (htoken.mp ⟨hne,hall⟩)]
      rfl

theorem latin1_iff {bs : Bytes} (hbs : ∀ b ∈ bs, b ≠ 13 ∧ b ≠ 10) :
    (∀ us, latin1Text bs = some us → newString bs = us ∧ ∀ u ∈ us, u ≤ 0xff ∧ u ≠ 13 ∧ u ≠ 10) ∧
    (latin1Text bs = none → ∃ u ∈ newString bs, 0xff < u) := by
  refine ⟨fun us h => ?_,fun h => ?_⟩
  · obtain ⟨hdecode,hall⟩ := Option.filter_eq_some_iff.mp h
    refine ⟨hn.wellformed bs us hdecode,fun u hu => ⟨?_,?_,?_⟩⟩
    · exact of_decide_eq_true (List.all_eq_true.mp hall u hu)
    · rintro rfl
      exact (hbs 13 ((Utf8.mem_decode_iff hdecode (q := 13) (by decide)).mp hu)).1 rfl
    · rintro rfl
      exact (hbs 10 ((Utf8.mem_decode_iff hdecode (q := 10) (by decide)).mp hu)).2 rfl
  · cases hdecode : Utf8.decode bs with
    | none => exact ⟨_,hn.replaced bs hdecode,by decide⟩
    | some us =>
      rw [latin1Text,hdecode,Option.filter_some,ite_eq_right_iff] at h
      rw [hn.wellformed bs us hdecode]
      by_contra hwide
      push Not at hwide
      exact absurd (h (List.all_eq_true.mpr fun u hu => decide_eq_true (hwide u hu))) (by simp)

theorem normalizeValue_bytes {bs : Bytes} (hbs : ∀ b ∈ bs, b ≠ 13 ∧ b ≠ 10) :
    (normalizeValue (newString (cStr bs))).toOption = (latin1Text (cStr bs)).map trim := by
  have hcut : ∀ b ∈ cStr bs, b ≠ 13 ∧ b ≠ 10 := fun b hb =>
    hbs b ((List.takeWhile_prefix _).subset hb)
  obtain ⟨hread,hwide⟩ := latin1_iff hn hcut
  cases h : latin1Text (cStr bs) with
  | none =>
    obtain ⟨u,hu,hlt⟩ := hwide h
    rw [normalizeValue,if_pos (List.any_eq_true.mpr ⟨u,hu,decide_eq_true hlt⟩)]
    rfl
  | some us =>
    obtain ⟨hus,hall⟩ := hread us h
    have hzero : 0 ∉ us := by
      have hdecode := (Option.filter_eq_some_iff.mp h).1
      intro hmem
      have h0 := (Utf8.mem_decode_iff hdecode (q := 0) (by decide)).mp hmem
      exact absurd (List.mem_takeWhile_imp h0) (by decide)
    have hsmall : ¬ us.any (0xff < ·) = true := by
      simp only [List.any_eq_true,decide_eq_true_eq,not_exists,not_and,Nat.not_lt]
      exact fun u hu => (hall u hu).1
    have hclean : ¬ (trim us).any ([0,13,10].contains ·) = true := by
      simp only [List.any_eq_true,List.contains_eq_mem,List.mem_cons,List.not_mem_nil,or_false,
        decide_eq_true_eq,not_exists,not_and,not_or]
      intro u hu
      have hmem := Headers.mem_of_mem_trim hu
      exact ⟨fun he => hzero (he ▸ hmem),(hall u hmem).2⟩
    rw [hus,normalizeValue,if_neg hsmall,if_neg hclean]
    rfl

end

/-- What `append` adds of a pair. -/
def normalizePair (p : JsString × JsString) : Option (JsString × JsString) :=
  (normalizeName p.1).toOption.bind fun n => (normalizeValue p.2).toOption.map fun v => (n,v)

theorem pairsToHeaders_concat (ps : List (JsString × JsString)) (p : JsString × JsString) :
    pairsToHeaders (ps++[p]) =
      ((pairsToHeaders ps).append p.1 p.2).toOption.getD (pairsToHeaders ps) := by
  rw [pairsToHeaders,List.foldl_append,List.foldl_cons,List.foldl_nil]
  split
  · next t h =>
    have happend : (pairsToHeaders ps).append p.1 p.2 = .ok t := h
    rw [happend]
    rfl
  · next e h =>
    have happend : (pairsToHeaders ps).append p.1 p.2 = .error e := h
    rw [happend]
    rfl

theorem pairsToHeaders_eq (pairs : List (JsString × JsString)) :
    pairsToHeaders pairs = { list := pairs.filterMap normalizePair } := by
  induction pairs using List.reverseRecOn with
  | nil => rfl
  | append_singleton ps p ih =>
    rw [pairsToHeaders_concat,ih,List.filterMap_append]
    cases hname : normalizeName p.1 with
    | error e =>
      have hskip : normalizePair p = none := by rw [normalizePair,hname]; rfl
      simp [Headers.append,hname,hskip,Except.bind,Except.toOption]
    | ok n =>
      cases hvalue : normalizeValue p.2 with
      | error e =>
        have hskip : normalizePair p = none := by rw [normalizePair,hname,hvalue]; rfl
        simp [Headers.append,hname,hvalue,hskip,Except.bind,Except.toOption]
      | ok v =>
        have hpair : normalizePair p = some (n,v) := by rw [normalizePair,hname,hvalue]; rfl
        simp [Headers.append,hname,hvalue,hpair,Except.bind,Except.toOption,
          Headers.forbiddenOrNoCors]

theorem normal_filterMap (pairs : List (JsString × JsString)) :
    HeaderList.AllNormal { list := pairs.filterMap normalizePair } := by
  intro q hq
  obtain ⟨p,-,hp⟩ := List.mem_filterMap.mp hq
  obtain ⟨n,hname,hp⟩ := Option.bind_eq_some_iff.mp hp
  obtain ⟨v,hvalue,rfl⟩ := Option.map_eq_some_iff.mp hp
  have hok {α : Type} {x : Except JsError α} {a : α} (h : x.toOption = some a) : x = .ok a := by
    cases x with
    | error e => cases h
    | ok b => rw [Option.some.inj h]
  exact HeaderList.normal_of_ok (hok hname) (hok hvalue)

theorem responseFromRaw_eq {raw : RawResult} (h : Fetch.Accepts raw) :
    responseFromRaw raw = .ok
      { status := raw.status
        statusText := raw.statusText
        ok := 200 ≤ raw.status && raw.status < 300
        url := raw.url
        redirected := raw.redirected
        type := js "basic"
        headers := { (pairsToHeaders raw.headers).copied with guard := .immutable }
        body := some raw.body } := by
  have hheaders : Headers.ofHeaders (pairsToHeaders raw.headers) =
      .ok (pairsToHeaders raw.headers).copied := by
    refine Headers.ofHeaders_eq ?_
    rw [pairsToHeaders_eq]
    exact normal_filterMap _
  obtain ⟨hlow,hhigh,hnull,htext⟩ := h
  have hstatus : ¬ (raw.status < 200 ∨ 599 < raw.status) := by omega
  have hany : ¬ (raw.statusText.any fun c => 0xff < c || c = 0x0a || c = 0x0d) = true := by
    simp only [List.any_eq_true,Bool.or_eq_true,decide_eq_true_eq,not_exists,not_and]
    intro c hc
    have hc := htext c hc
    omega
  simp only [responseFromRaw,Response.new,hheaders,Except.bind,if_neg hstatus,if_neg hany,hnull]
  rfl

def sampleString (bs : Bytes) : JsString := (Utf8.decode bs).getD [0xFFFD]

theorem sampleString_reads : ReadsUtf8 sampleString where
  wellformed bs us h := by rw [sampleString,h]; rfl
  replaced bs h := by rw [sampleString,h]; exact List.mem_singleton_self _

/-- A head with the header of the request that is sampled in `RequestWire`. -/
def sampleBlock : Block where
  status := ⟨ascii "HTTP/1.1 200 OK",.crlf,by decide,by decide⟩
  headers := [⟨ascii "content-type",ascii " text/plain;charset=UTF-8",.crlf,by decide,by decide,
    by decide⟩]
  lineEnd := .crlf

def sampleCallbacks : List Callback := sampleBlock.lines.map .header++[.write (ascii "x")]

section

variable {newString : Bytes → JsString} (hn : ReadsUtf8 newString)

include hn

theorem entry_eq (l : HeaderLine) :
    normalizePair (newString (cStr l.name),newString (cStr (stripBlanks l.value))) = entry l := by
  have hvalue : ∀ b ∈ stripBlanks l.value, b ≠ 13 ∧ b ≠ 10 := fun b hb =>
    l.oneLine b (List.mem_append_right _ ((List.dropWhile_suffix _).subset hb))
  rw [normalizePair,normalizeName_bytes hn,normalizeValue_bytes hn hvalue,entry]
  split
  · rw [Option.bind_some,Option.map_map]
    rfl
  · rfl

theorem accepts_iff {raw : RawResult} {p : Report} {text : Bytes}
    (htext : ∀ b ∈ text, b ≠ 13 ∧ b ≠ 10) (hstatus : raw.status = int32OfLong p.responseCode)
    (hraw : raw.statusText = newString text) : Fetch.Accepts raw ↔ Accepted p text := by
  obtain ⟨hread,hwide⟩ := latin1_iff hn htext
  rw [Fetch.Accepts,Accepted,hstatus,hraw]
  refine and_congr_right fun _ => and_congr_right fun _ => and_congr_right fun _ => ?_
  cases h : latin1Text text with
  | none =>
    obtain ⟨u,hu,hlt⟩ := hwide h
    refine iff_of_false (fun hall => ?_) (by simp)
    have hle := (hall u hu).1
    omega
  | some us =>
    obtain ⟨hus,hall⟩ := hread us h
    refine iff_of_true (fun c hc => ?_) rfl
    rw [hus] at hc
    have hc := hall c hc
    omega

theorem collected {cs : List Callback} {bs : List Block} {b : Block} {ts : List HeaderLine}
    (hlines : cs.filterMap Callback.line? =
      bs.flatMap Block.lines++b.lines++ts.map HeaderLine.bytes) :
    ∃ d, Trace.run step {} cs = some d ∧ d.body = cs.flatMap Callback.data ∧
      d.head.statusText = b.content.statusText ∧
      pairsToHeaders (d.head.responseHeaders.map fun h =>
        (newString (cStr h.1),newString (cStr h.2))) =
        { list := (b.headers++ts).filterMap entry } := by
  refine ⟨_,run_step {} cs,rfl,?_⟩
  rw [hlines,deliver_trailers]
  refine ⟨rfl,?_⟩
  rw [pairsToHeaders_eq,List.map_map,List.filterMap_map]
  exact congrArg (Headers.mk · .none) (List.filterMap_congr fun l _ => entry_eq hn l)

end

theorem statusText_clean (b : Block) : ∀ c ∈ b.content.statusText, c ≠ 13 ∧ c ≠ 10 := by
  intro c hc
  refine b.status.oneLine c ?_
  have hsub (s : Bytes) : HeaderBlocks.behindSpace s ⊆ s := fun _ h =>
    (List.dropWhile_suffix _).subset ((List.drop_suffix 1 _).subset h)
  exact hsub _ (hsub _ hc)

/-- curl follows no redirect for the request, and the transfer ended with one. -/
def Redirects (o : FetchOptions) (p : Report) : Prop :=
  o.failOnRedirect = true ∧ 300 ≤ p.responseCode ∧ p.responseCode < 400

section

variable (newString : Bytes → JsString) {o : FetchOptions} {p : Report} (d : Download)

theorem schedule_native (r : NativeFetch.FetchResult) (after : ℕ) :
    schedule newString r 0 after =
      .native (makeRawResult newString r)::List.replicate after .abort := rfl

theorem settlements_redirect (hn : ReadsUtf8 newString) (hp : p.error = none)
    (h : Redirects o p) (after : ℕ) :
    settlements newString o p d after =
      [.rejected (.error (.typeError (js "redirect not allowed")))] := by
  have hmake : makeResult o (d.report p) =
      { makeResult o (d.report p) with
        error := ascii "redirect not allowed", aborted := false } := by
    simp only [makeResult,Download.report,Transfer.report,hp,if_pos (show _ ∧ _ from h)]
  have hread : newString (ascii "redirect not allowed") = js "redirect not allowed" :=
    hn.wellformed _ _ (by decide +kernel)
  rw [settlements,schedule_native]
  refine Fetch.run_native _ _ ?_ after
  rw [hmake]
  have hne : ascii "redirect not allowed" ≠ [] := by decide
  simp only [Fetch.State.onNative,makeRawResult,if_pos hne,hread]
  rfl

theorem raw_ok (hp : p.error = none) (h : ¬Redirects o p) :
    let raw := makeRawResult newString (makeResult o (d.report p))
    raw.aborted = false ∧ raw.error = none ∧ raw.status = int32OfLong p.responseCode ∧
      raw.statusText = newString d.head.statusText ∧ raw.body = d.body ∧
      raw.headers = d.head.responseHeaders.map fun h =>
        (newString (cStr h.1),newString (cStr h.2)) := by
  have hmake : makeResult o (d.report p) =
      { ok := true, body := d.body, url := p.effectiveUrl.getD o.url, status := p.responseCode
        redirected := decide (0 < p.redirectCount), statusText := d.head.statusText
        headers := d.head.responseHeaders } := by
    simp only [makeResult,Download.report,Transfer.report,hp,if_neg (show ¬(_ ∧ _) from h)]
  rw [hmake]
  exact ⟨rfl,rfl,rfl,rfl,rfl,rfl⟩

theorem settlements_response (hp : p.error = none) (h : ¬Redirects o p)
    (hacc : Fetch.Accepts (makeRawResult newString (makeResult o (d.report p)))) (after : ℕ) :
    ∃ res, settlements newString o p d after = [.resolved res] ∧
      res.status = int32OfLong p.responseCode ∧ res.statusText = newString d.head.statusText ∧
      res.body = some d.body ∧
      res.headers = { (pairsToHeaders (d.head.responseHeaders.map fun h =>
        (newString (cStr h.1),newString (cStr h.2)))).copied with guard := .immutable } := by
  obtain ⟨haborted,herror,hstatus,htext,hbody,hheaders⟩ :=
    raw_ok newString d hp h
  refine ⟨_,Fetch.run_native _ _
    (Fetch.onNative_response haborted herror (responseFromRaw_eq hacc)) after,?_⟩
  simp only [hstatus,htext,hbody,hheaders,and_self]

/-- A response that the constructor refuses is lost, and leaves the promise to an abort. -/
theorem settlements_lost (hp : p.error = none) (h : ¬Redirects o p)
    (hacc : ¬Fetch.Accepts (makeRawResult newString (makeResult o (d.report p)))) (after : ℕ) :
    settlements newString o p d after =
      if after = 0 then [] else [.rejected .signalReason] := by
  obtain ⟨haborted,herror,-⟩ := raw_ok newString d hp h
  obtain ⟨hacc',-⟩ | ⟨-,e,hres⟩ :=
    Fetch.responseFromRaw_cases (makeRawResult newString (makeResult o (d.report p)))
  · exact absurd hacc' hacc
  · have hlost := Fetch.onNative_lost haborted herror hres
    have hrun : settlements newString o p d after =
        (run {} (List.replicate after .abort)).settlements :=
      congrArg (fun s => (run s (List.replicate after .abort)).settlements) hlost
    rw [hrun]
    cases after with
    | zero => rfl
    | succ n =>
      exact Fetch.run_settled (s := Fetch.step {} .abort) rfl (List.replicate n .abort)

end

/-- However curl mixes the lines of the heads with the bytes of the body, `fetch` ends with a
response of the last head and the whole body. Its headers are those lines whose name is a token
and whose value is UTF-8 of characters of eight bits; a status or a status text that the
constructor refuses leaves the promise to an abort. -/
theorem response_wire {newString : Bytes → JsString} (hn : ReadsUtf8 newString)
    {cs : List Callback} {bs : List Block} {b : Block} {ts : List HeaderLine}
    (hlines : cs.filterMap Callback.line? =
      bs.flatMap Block.lines++b.lines++ts.map HeaderLine.bytes)
    (o : FetchOptions) {p : Report} (hp : p.error = none) (after : ℕ) :
    ∃ d, Trace.run step {} cs = some d ∧
      (Redirects o p → settlements newString o p d after =
        [.rejected (.error (.typeError (js "redirect not allowed")))]) ∧
      (¬Redirects o p → ¬Accepted p b.content.statusText →
        settlements newString o p d after = if after = 0 then [] else [.rejected .signalReason]) ∧
      (¬Redirects o p → Accepted p b.content.statusText → ∃ res,
        settlements newString o p d after = [.resolved res] ∧
        res.status = int32OfLong p.responseCode ∧
        latin1Text b.content.statusText = some res.statusText ∧
        res.body = some (cs.flatMap Callback.data) ∧ res.headers.guard = .immutable ∧
        ∀ name, res.headers.get name =
          (({ list := (b.headers++ts).filterMap entry } : Headers).get name).map
            (Option.map trim)) := by
  obtain ⟨d,hrun,hbody,htext,hheaders⟩ := collected hn hlines
  have haccepts (h : ¬Redirects o p) := accepts_iff hn (statusText_clean b)
    (raw_ok newString d hp h).2.2.1
    ((raw_ok newString d hp h).2.2.2.1.trans (by rw [htext]))
  refine ⟨d,hrun,fun h => settlements_redirect newString d hn hp h after,fun h hacc => ?_,
    fun h hacc => ?_⟩
  · exact settlements_lost newString d hp h (mt (haccepts h).mp hacc) after
  · obtain ⟨res,hsettled,hstatus,hres,hresbody,hresheaders⟩ :=
      settlements_response newString d hp h ((haccepts h).mpr hacc) after
    obtain ⟨us,hus⟩ := Option.isSome_iff_exists.mp hacc.2.2.2
    have hread := ((latin1_iff hn (statusText_clean b)).1 us hus).1
    refine ⟨res,hsettled,hstatus,?_,hresbody.trans (by rw [hbody]),by rw [hresheaders],?_⟩
    · rw [hus,hres,htext,hread]
    · intro name
      rw [hresheaders,hheaders]
      exact Headers.get_copied _ name

theorem response_wire_sample : ∃ d res, Trace.run step {} sampleCallbacks = some d ∧
    settlements sampleString ⟨ascii "http://a/",true⟩ { responseCode := 200 } d 1 =
      [.resolved res] ∧ res.body = some (ascii "x") ∧
    res.headers.get (js "Content-Type") = .ok (some (js "text/plain;charset=UTF-8")) := by
  have hlines : sampleCallbacks.filterMap Callback.line? =
      [].flatMap Block.lines++sampleBlock.lines++[].map HeaderLine.bytes := by decide
  obtain ⟨d,hrun,-,-,hresolved⟩ :=
    response_wire sampleString_reads hlines ⟨ascii "http://a/",true⟩ (p := { responseCode := 200 })
      rfl 1
  have hredirects : ¬Redirects ⟨ascii "http://a/",true⟩ { responseCode := 200 } := fun h =>
    absurd h.2.1 (by decide)
  obtain ⟨res,hsettled,-,-,hbody,-,hget⟩ := hresolved hredirects (by decide +kernel)
  exact ⟨d,res,hrun,hsettled,hbody,(hget _).trans (by decide +kernel)⟩

section

open HeaderList (Normal)
open HttpMessage (fieldLine)
open RequestJs (Reached Request)
open RequestWire (headerLines optionsOf parseOptions start toCString utf8)

theorem decode_unit {u : ℕ} (hu : u ≤ 0xff) (bs : Bytes) :
    Utf8.decode ((TextEncoder.utf8 u).map Nat.toUInt8++bs) = (Utf8.decode bs).map (u::·) := by
  rw [TextEncoder.utf8]
  split
  next h =>
    have hbyte : u.toUInt8.toNat = u := TextEncoder.toNat_toUInt8 (by omega)
    have hdecode := Utf8.decode_append_ascii [] bs (q := u.toUInt8) (by omega)
    rw [List.nil_append,hbyte] at hdecode
    refine hdecode.trans ?_
    cases Utf8.decode bs <;> rfl
  next h =>
    have hfirst : (u/0x40+0xC0).toUInt8.toNat = u/0x40+0xC0 :=
      TextEncoder.toNat_toUInt8 (by omega)
    have hsecond : (u % 0x40+0x80).toUInt8.toNat = u % 0x40+0x80 :=
      TextEncoder.toNat_toUInt8 (by omega)
    have hlead : Utf8.step .start (u/0x40+0xC0) = some ([],.inside 0 0x80 0xBF (u/0x40)) := by
      rw [Utf8.step,if_neg (by omega),if_neg (by omega),if_pos (by omega),Nat.add_sub_cancel]
    have hlast : Utf8.step (.inside 0 0x80 0xBF (u/0x40)) (u % 0x40+0x80) =
        some ([u],.start) := by
      have hsum : 64*(u/0x40)+(u % 0x40+0x80-0x80) = u := by omega
      simp only [Utf8.step,hsum,Utf8.units]
      rw [if_pos (by omega),if_pos (by omega)]
    rw [if_pos (by omega)]
    simp only [List.map_cons,List.map_nil,List.cons_append,List.nil_append,Utf8.decode,
      Utf8.decodeFrom_cons,hfirst,hsecond,hlead,hlast,Option.bind_some]
    cases Utf8.decodeFrom .start bs <;> rfl

theorem latin1Text_utf8 {s : JsString} (hs : ∀ u ∈ s, u ≤ 0xff) : latin1Text (utf8 s) = some s := by
  have hdecode : Utf8.decode (utf8 s) = some s := by
    induction s with
    | nil => rfl
    | cons u s ih =>
      obtain ⟨hu,htail⟩ := List.forall_mem_cons.mp hs
      rw [RequestWire.utf8_cons hs,decode_unit hu,ih htail]
      rfl
  rw [latin1Text,hdecode,Option.filter_some,if_pos]
  exact List.all_eq_true.mpr fun u hu => decide_eq_true (hs u hu)

theorem stripBlanks_eq (v : Bytes) : stripBlanks v = v.dropWhile HttpMessage.isBlank := by
  rw [stripBlanks]
  congr 1
  funext c
  simp [HttpMessage.isBlank]

theorem dropWhile_of_trim {v : Bytes} (h : HttpMessage.trim v = v) :
    v.dropWhile HttpMessage.isBlank = v := by
  refine (List.dropWhile_suffix _).eq_of_length (Nat.le_antisymm ?_ ?_)
  · exact (List.dropWhile_suffix _).length_le
  · have hle := (List.rdropWhile_prefix HttpMessage.isBlank
      (v.dropWhile HttpMessage.isBlank)).length_le
    rwa [show (v.dropWhile HttpMessage.isBlank).rdropWhile HttpMessage.isBlank = v from h] at hle

theorem split_line {l : HeaderLine} {name value : Bytes} (hname : 58 ∉ name)
    (h : l.text = name++58::value) : l.name = name ∧ l.value = value := by
  have hfind := HeaderBlocks.find_colon l.noColon l.value
  rw [show l.name++58::l.value = name++58::value from h,
    HeaderBlocks.find_colon hname value] at hfind
  have hlen : name.length = l.name.length := Option.some.inj hfind
  obtain ⟨hn,hv⟩ := List.append_inj h hlen.symm
  exact ⟨hn,(List.cons.inj hv).2⟩

theorem entry_sent {l : HeaderLine} {p : JsString × JsString} (h : Normal p)
    (hl : l.text = fieldLine (toCString p.1,toCString p.2)) : entry l = some p := by
  have htokens : ∀ c ∈ p.1, Headers.isToken c = true := fun c hc => (h.token c hc).1
  have hlatin1 : ∀ u ∈ p.2, u ≤ 0xff := fun u hu => (h.value u hu).1
  obtain ⟨hname,hchars⟩ := RequestWire.toCString_token htokens
  have hcolon : 58 ∉ toCString p.1 := fun hmem =>
    (HttpMessage.isTokenChar_clean (hchars 58 (hname ▸ hmem))).2.2 rfl
  obtain ⟨hln,hlv⟩ := split_line hcolon hl
  have hcut : cStr l.name = p.1.map Nat.toUInt8 := by
    rw [hln,hname]
    refine RequestWire.cStr_of_ne fun b hb => ?_
    rintro rfl
    exact absurd (hchars 0 hb) (by decide)
  have hstrip : stripBlanks l.value = utf8 p.2 := by
    rw [hlv,stripBlanks_eq,RequestWire.toCString_value h]
    exact (List.dropWhile_cons_of_pos rfl).trans (dropWhile_of_trim (RequestWire.trim_value h))
  have hvalue : cStr (stripBlanks l.value) = utf8 p.2 := by
    rw [hstrip]
    exact RequestWire.cStr_of_ne fun b hb => (RequestWire.value_bytes h hb).1
  have htoken : p.1.map Nat.toUInt8 ≠ [] ∧
      (p.1.map Nat.toUInt8).all HttpMessage.isTokenChar = true :=
    ⟨mt List.map_eq_nil_iff.mp h.nonempty,List.all_eq_true.mpr hchars⟩
  rw [entry,hcut,hvalue,if_pos htoken,latin1Text_utf8 hlatin1,
    RequestWire.toNat_toUInt8_token htokens,
    Headers.toLowerCase_of_lower fun c hc => (h.token c hc).2]
  exact congrArg (fun v => some (p.1,v)) (HeaderList.trim_of_ends h.first h.last)

theorem filterMap_sent {ls : List HeaderLine} {ps : List (JsString × JsString)}
    (hs : ∀ p ∈ ps, Normal p)
    (h : ls.map HeaderLine.text = ps.map fun p => fieldLine (toCString p.1,toCString p.2)) :
    ls.filterMap entry = ps := by
  induction ps generalizing ls with
  | nil => rw [List.map_eq_nil_iff.mp h]; rfl
  | cons p ps ih =>
    obtain ⟨l,ls,rfl,hl,hls⟩ := List.map_eq_cons_iff.mp h
    obtain ⟨hp,hrest⟩ := List.forall_mem_cons.mp hs
    rw [List.filterMap_cons,entry_sent hp hl,ih hrest hls]

/-- Headers make it there and back: where a server answers with the lines that curl was given,
the script finds every header of its request in the response, unless a name has several values
and the last of them is empty. -/
theorem headers_echo {newString : Bytes → JsString} (hn : ReadsUtf8 newString) {r : Request}
    (hr : Reached r) (hlen : r.headers.list.length < 2^31) {sent : RequestWire.FetchOptions}
    (hsent : parseOptions (optionsOf r) = .ok sent) {cs : List Callback} {bs : List Block}
    {b : Block} (hecho : b.headers.map HeaderLine.text = headerLines (start sent))
    (hlines : cs.filterMap Callback.line? = bs.flatMap Block.lines++b.lines) {o : FetchOptions}
    {p : Report} (hp : p.error = none) (hredirects : ¬Redirects o p)
    (hacc : Accepted p b.content.statusText) (after : ℕ) :
    ∃ d res, Trace.run step {} cs = some d ∧
      settlements newString o p d after = [.resolved res] ∧
      ((∀ name, res.headers.get name = r.headers.get name) ↔
        ∀ n, ¬Headers.EndsEmpty r.headers n) := by
  have hnormal : HeaderList.AllNormal r.headers := hr.built.headers
  have hlist : b.headers.filterMap entry = r.headers.list := by
    refine filterMap_sent hnormal (hecho.trans ?_)
    rw [RequestWire.headerLines_start,(RequestWire.parseOptions_ok hsent).2.2,
      int32OfUInt64_of_lt hlen,Int.toNat_natCast,List.take_length,List.map_map]
    exact List.map_congr_left fun q hq => RequestWire.headerLine_eq (hnormal q hq)
  obtain ⟨d,hrun,-,htext,hheaders⟩ :=
    @collected newString hn cs bs b [] (by simpa using hlines)
  obtain ⟨-,-,hstatus,hraw,-⟩ := raw_ok newString d hp hredirects
  rw [htext] at hraw
  obtain ⟨res,hsettled,-,-,-,hresheaders⟩ := settlements_response newString d hp hredirects
    ((accepts_iff hn (statusText_clean b) hstatus hraw).mpr hacc) after
  refine ⟨d,res,hrun,hsettled,?_⟩
  rw [← Headers.get_copied_iff hnormal]
  refine forall_congr' fun name => ?_
  rw [hresheaders,hheaders,List.append_nil,hlist]
  rfl

end

theorem headers_echo_sample : ∃ d res, Trace.run step {} sampleCallbacks = some d ∧
    settlements sampleString ⟨ascii "http://a/",false⟩ { responseCode := 200 } d 0 =
      [.resolved res] ∧
    ((∀ name, res.headers.get name = RequestJs.sampleRequest.headers.get name) ↔
      ∀ n, ¬Headers.EndsEmpty RequestJs.sampleRequest.headers n) := by
  have hlines : sampleCallbacks.filterMap Callback.line? =
      [].flatMap Block.lines++sampleBlock.lines := by decide
  have hredirects : ¬Redirects ⟨ascii "http://a/",false⟩ { responseCode := 200 } := fun h =>
    absurd h.1 (by decide)
  exact @headers_echo _ sampleString_reads _ RequestJs.sampleRequest_reached (by decide)
    RequestWire.sampleOptions rfl _ _ _ (by decide +kernel) hlines _ _ rfl hredirects
    (by decide +kernel) 0

end ResponseWire
end AsioQuickjs
