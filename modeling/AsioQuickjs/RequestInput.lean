import AsioQuickjs.HeaderCopy
import AsioQuickjs.RequestOptions

/-! A `Request` as the input of another one: what a constructor that throws leaves of it, and
`clone`, which is such a use. -/
namespace AsioQuickjs
namespace RequestJs

open Headers (Guard normalizeName normalizeValue)

def bodyOf (r : Request) (init : Init) : Option Body :=
  init.body.getD (r.content.map Content.body)

def headersOf (r : Request) (init : Init) : HeaderList.Init :=
  match init.headers with
  | .undefined => iterable r.headers
  | given => given

/-- What comes out of the checks. -/
structure Read (r : Request) (init : Init) (v : Validated) : Prop where
  url : v.url = r.url
  method : normalizeMethod (if init.method.isUndefined then .string r.method else init.method) =
    .ok v.method
  body : v.body = bodyOf r init
  headers : ∃ h, HeaderList.new (headersOf r init) = .ok h ∧ v.headers.list = h.list
  guard : v.headers.guard ≠ .immutable
  referrer : checkReferrer init = .ok ()

theorem ofJs_eq_ok {α : Type} {y : Except JsError α} {a : α} (h : ofJs y = .ok a) : y = .ok a := by
  cases y with
  | error e => cases h
  | ok b => cases h; rfl

theorem requestHeaders_ok {inputRequest : Option Request} {init : Init} {given : HeaderList.Init}
    {headers : Headers} (h : requestHeaders inputRequest init given = .ok headers) :
    ∃ t, HeaderList.new given = .ok t ∧ headers.list = t.list ∧ headers.guard ≠ .immutable := by
  obtain ⟨t,ht,hrest⟩ := bind_eq_ok h
  cases hrest
  refine ⟨t,ofJs_eq_ok ht,?_⟩
  rw [HeaderList.after_ok (HeaderList.setGuard_eq t _)]
  refine ⟨rfl,?_⟩
  split <;> simp

theorem source_request {r : Request} {init : Init} {x : Source}
    (h : source (some r) .request init = .ok x) :
    x = { url := r.url, method := r.method, headersInit := iterable r.headers,
          body := r.content.map Content.body } := by
  rw [source] at h
  split at h
  · cases h
  · cases h
    rfl

theorem read_of_validate {r : Request} {init : Init} {v : Validated}
    (h : validate (some r) .request init = .ok v) : Read r init v := by
  obtain ⟨x,method,headers,hx,hmethod,hreferrer,-,hheaders,rfl⟩ := validate_ok h
  obtain rfl := source_request hx
  obtain ⟨t,ht,hlist,hguard⟩ := requestHeaders_ok hheaders
  exact ⟨rfl,hmethod,rfl,⟨t,ht,hlist⟩,hguard,hreferrer⟩

section

variable {α : Type}

def Fails (y : Except Thrown α) : Prop := ∃ e, y = .error e

theorem fails_bind {β : Type} {y : Except Thrown α} {k : α → Except Thrown β} :
    Fails (y >>= k) ↔ Fails y ∨ ∃ a, y = .ok a ∧ Fails (k a) := by
  cases y with
  | error e => exact iff_of_true ⟨e,rfl⟩ (.inl ⟨e,rfl⟩)
  | ok a =>
    refine ⟨fun h => .inr ⟨a,rfl,h⟩,?_⟩
    rintro (⟨e,he⟩ | ⟨b,hb,h⟩)
    · cases he
    · cases hb
      exact h

theorem not_fails_ok (a : α) : ¬ Fails (.ok a : Except Thrown α) := by
  rintro ⟨e,he⟩
  cases he

end

/-- The content type of the body is none that a header can have, and is not given. -/
def BadType (headers : HeaderList.Init) (extracted : Extracted) : Prop :=
  ∃ ct h e, extracted.contentType = some ct ∧ HeaderList.new headers = .ok h ∧
    h.list.any (·.1 = js "content-type") = false ∧ normalizeValue ct = .error e

theorem withContentType_fails {headers : Headers} (hg : headers.guard ≠ .immutable)
    (contentType : Option JsString) :
    Fails (withContentType headers contentType) ↔ ∃ ct e, contentType = some ct ∧
      headers.list.any (·.1 = js "content-type") = false ∧ normalizeValue ct = .error e := by
  cases contentType with
  | none => exact iff_of_false (not_fails_ok _) (by simp)
  | some ct =>
    have hname : normalizeName (js "content-type") = .ok (js "content-type") := by decide +kernel
    rw [withContentType]
    by_cases hany : headers.list.any (·.1 = js "content-type") = true
    · rw [if_pos hany]
      exact iff_of_false (not_fails_ok _) (by simp [hany])
    · rw [if_neg hany,Headers.append,if_neg hg,hname]
      rw [Bool.not_eq_true] at hany
      cases hv : normalizeValue ct with
      | error e => exact iff_of_true ⟨_,rfl⟩ ⟨ct,e,rfl,hany,hv⟩
      | ok v =>
        refine iff_of_false ?_ ?_
        · simp only [Except.bind,HeaderList.forbiddenOrNoCors_eq,Bool.false_eq_true,if_false]
          exact not_fails_ok _
        · rintro ⟨ct',e,hct,-,he⟩
          cases hct
          cases hv.symm.trans he

theorem referrerOf_not_fails {s : Option Request} {init : Init}
    (h : checkReferrer init = .ok ()) : ¬ Fails (referrerOf s init) := by
  rw [referrerOf]
  cases hr : init.referrer with
  | undefined => exact not_fails_ok _
  | null => exact not_fails_ok _
  | string t => exact not_fails_ok _
  | other t text =>
    simp only [checkReferrer,hr] at h
    obtain ⟨ref,href,-⟩ := bind_eq_ok h
    rw [href]
    exact not_fails_ok _

theorem signalOf_fails (s : Option Request) (init : Init) :
    Fails (signalOf init s) ↔ init.signal = .object false := by
  rw [signalOf]
  cases init.signal with
  | object t =>
    cases t with
    | true => exact iff_of_false (not_fails_ok _) (by simp)
    | false => exact iff_of_true ⟨_,rfl⟩ rfl
  | _ => exact iff_of_false (not_fails_ok _) (by simp)

/-- The body cannot be converted, its content type is no header value, or the signal is an
object that takes no listener. -/
def FailsLate (r : Request) (init : Init) : Prop :=
  Fails (extract (bodyOf r init)) ∨
    (∃ extracted, extract (bodyOf r init) = .ok extracted ∧ BadType (headersOf r init) extracted) ∨
    init.signal = .object false

theorem complete_fails {r : Request} {init : Init} {v : Validated} (hv : Read r init v) :
    Fails (complete (some r) init v) ↔ FailsLate r init := by
  obtain ⟨h,hnew,hlist⟩ := hv.headers
  rw [complete,fails_bind,hv.body,FailsLate]
  cases hextract : extract (bodyOf r init) with
  | error e => exact iff_of_true (.inl ⟨e,rfl⟩) (.inl ⟨e,rfl⟩)
  | ok extracted =>
    have hrest (headers : Headers) :
        Fails (referrerOf (some r) init >>= fun referrer => signalOf init (some r) >>= fun signal =>
          pure (build (some r) init v extracted headers referrer signal)) ↔
            init.signal = .object false := by
      rw [fails_bind,or_iff_right (referrerOf_not_fails hv.referrer)]
      cases href : referrerOf (some r) init with
      | error e => exact absurd ⟨e,href⟩ (referrerOf_not_fails hv.referrer)
      | ok referrer =>
        simp only [Except.ok.injEq,exists_eq_left',fails_bind,signalOf_fails]
        refine or_iff_left ?_
        rintro ⟨signal,-,hok⟩
        exact not_fails_ok _ hok
    have htype : Fails (withContentType v.headers extracted.contentType) ↔
        BadType (headersOf r init) extracted := by
      rw [withContentType_fails hv.guard,hlist,BadType]
      constructor
      · rintro ⟨ct,e,hct,hany,hbad⟩
        exact ⟨ct,h,e,hct,hnew,hany,hbad⟩
      · rintro ⟨ct,h',e,hct,hnew',hany,hbad⟩
        cases hnew.symm.trans hnew'
        exact ⟨ct,e,hct,hany,hbad⟩
    simp only [Except.ok.injEq,exists_eq_left',or_iff_right (not_fails_ok _)]
    rw [fails_bind,htype]
    cases hct : withContentType v.headers extracted.contentType with
    | error e => exact iff_of_true (.inl (htype.mp ⟨e,hct⟩)) (.inl (htype.mp ⟨e,hct⟩))
    | ok headers =>
      simp only [Except.ok.injEq,exists_eq_left']
      exact or_congr_right (hrest headers)

/-- If the constructor throws, the request that is its input is as it was. -/
def Atomic (r : Request) (init : Init) : Prop :=
  ∀ e t, construct .request init (some r) = .error e t → t = some r

/-- The checks let the input through. -/
def Passes (r : Request) (init : Init) : Prop := ∃ v, validate (some r) .request init = .ok v

theorem disturbed_some (r : Request) : disturbed (some r) (some r) = some r ↔
    ¬ (r.body.isSome = true ∧ r.bodyUsed = false) := by
  rw [disturbed]
  by_cases hb : r.body.isSome = true
  · rw [Option.any_some,if_pos hb,Option.map_some,Option.some.injEq]
    constructor
    · rintro heq ⟨-,hu⟩
      rw [← heq] at hu
      cases hu
    · intro hnot
      have hused : r.bodyUsed = true := by
        rw [← Bool.not_eq_false]
        exact fun hu => hnot ⟨hb,hu⟩
      rw [Request.setBodyUsed,← hused]
  · simp [hb]

/-- The constructor leaves its input alone when it throws, unless it marks it and then cannot
convert the body, its type or the signal. -/
theorem atomic_iff (r : Request) (init : Init) :
    Atomic r init ↔ ¬ (Passes r init ∧ r.body.isSome = true ∧ r.bodyUsed = false ∧
      FailsLate r init) := by
  have hrun := construct_eq (some r) .request init
  simp only [Input.request?] at hrun
  cases hvalidate : validate (some r) .request init with
  | error e =>
    rw [hvalidate] at hrun
    refine iff_of_true (fun e' t h => ?_) fun hall => ?_
    · cases hrun.symm.trans h
      rfl
    · obtain ⟨v,hv⟩ := hall.1
      cases hvalidate.symm.trans hv
  | ok v =>
    have hlate := complete_fails (read_of_validate hvalidate)
    have hpasses : Passes r init := ⟨v,hvalidate⟩
    rw [← hlate]
    simp only [hvalidate] at hrun
    cases hcomplete : complete (some r) init v with
    | error e =>
      simp only [hcomplete] at hrun
      have hfails : Fails (Except.error e : Except Thrown Request) := ⟨e,rfl⟩
      simp only [hpasses,hfails,and_true,true_and]
      rw [← disturbed_some]
      refine ⟨fun h => h e _ hrun,fun h e' t he => ?_⟩
      cases hrun.symm.trans he
      exact h
    | ok r' =>
      simp only [hcomplete] at hrun
      refine iff_of_true (fun e' t h => ?_) fun hall => not_fails_ok _ hall.2.2.2
      cases hrun.symm.trans h

def postInit : Init :=
  { method := .string (js "POST"), body := some (some (.string (js "x"))) }

def sampleRequest : Request where
  url := js "http://a/"
  method := js "POST"
  headers := { list := [(js "content-type",textPlain)], guard := .request }
  content := some (.text (js "x"))
  body := some .placeholder
  cache := .string (js "default")
  credentials := .string (js "same-origin")
  integrity := .string (js "")
  keepalive := false
  mode := .string (js "cors")
  redirect := .string (js "follow")
  referrer := js "about:client"
  referrerPolicy := .string (js "")

/-- A signal that is an object and no signal is found out about when the input is marked. -/
theorem input_marked :
    construct sampleInput postInit none = .ok sampleRequest none ∧
      sampleRequest.bodyUsed = false ∧
      ∃ e t, construct .request { headers := .keys [], signal := .object false }
        (some sampleRequest) = .error e (some t) ∧ t.bodyUsed = true :=
  ⟨rfl,rfl,.error (.typeError (js "not a function")),sampleRequest.setBodyUsed,rfl,rfl⟩

/-- `r` is made by the constructor, from an input that is one of these if it is a request, or
comes from such a one: its headers are edited, it is read or used as input, something happens
to its signal. -/
inductive Reached : Request → Prop
  | construct {input : Input} {init : Init} {s t : Option Request} {r : Request}
      (hinput : ∀ r₀, input.request? s = some r₀ → Reached r₀)
      (h : construct input init s = .ok r t) : Reached r
  | headers {r : Request} (h : Reached r) (ops : List HeaderList.Op) :
      Reached { r with headers := HeaderList.run r.headers ops }
  | used {r : Request} (h : Reached r) : Reached r.setBodyUsed
  | signal {r : Request} (h : Reached r) (signal : Signal) : Reached { r with signal := signal }

structure Built (r : Request) : Prop where
  method : normalizeMethod (.string r.method) = .ok r.method
  headers : HeaderList.AllNormal r.headers
  body : r.body = none → r.content = none

theorem typeError_ne_ok {α : Type} {message : JsString} {a : α} :
    (typeError message : Except Thrown α) ≠ .ok a := fun h => by cases h

theorem normalizeMethod_string (w : JsString) :
    normalizeMethod (.string w) =
      if normalized.contains (toUpperCase w) then .ok (toUpperCase w)
      else if isMethodToken w && !forbidden.contains (toUpperCase w) then .ok w
      else typeError (js "Invalid method") := by
  simp only [normalizeMethod,JsValue.text,ok_bind]
  by_cases hn : normalized.contains (toUpperCase w) = true
  · simp only [if_pos hn]
    rfl
  · simp only [if_neg hn]
    cases isMethodToken w <;> cases forbidden.contains (toUpperCase w) <;> rfl

theorem normalizeMethod_idem {x : JsValue} {m : JsString} (h : normalizeMethod x = .ok m) :
    normalizeMethod (.string m) = .ok m := by
  obtain ⟨w,htext,-⟩ := bind_eq_ok h
  have hwords : ∀ n ∈ normalized, toUpperCase n = n := by decide +kernel
  have hw : normalizeMethod (.string w) = .ok m := by
    rw [← h]
    simp only [normalizeMethod,htext]
    rfl
  rw [normalizeMethod_string] at hw
  split at hw
  · next hnorm =>
    cases hw
    have hup := hwords _ (List.contains_iff_mem.mp hnorm)
    rw [normalizeMethod_string,hup,if_pos hnorm]
  · next hnorm =>
    split at hw
    · next htoken =>
      cases hw
      rw [normalizeMethod_string,if_neg hnorm,if_pos htoken]
    · exact absurd hw typeError_ne_ok

theorem validate_built {s : Option Request} {input : Input} {init : Init} {v : Validated}
    (h : validate s input init = .ok v) :
    normalizeMethod (.string v.method) = .ok v.method ∧ HeaderList.AllNormal v.headers := by
  obtain ⟨x,method,headers,-,hmethod,-,-,hheaders,rfl⟩ := validate_ok h
  obtain ⟨t,ht,hlist,-⟩ := requestHeaders_ok hheaders
  refine ⟨normalizeMethod_idem hmethod,fun p hp => ?_⟩
  rw [hlist] at hp
  exact HeaderList.new_normal ht p hp

theorem withContentType_normal {h t : Headers} {contentType : Option JsString}
    (hs : HeaderList.AllNormal h) (ht : withContentType h contentType = .ok t) :
    HeaderList.AllNormal t := by
  cases contentType with
  | none =>
    cases ht
    exact hs
  | some ct =>
    rw [withContentType] at ht
    split at ht
    · cases ht
      exact hs
    · have happend := HeaderList.append_normal hs (js "content-type") ct
      rw [HeaderList.after,HeaderList.append_eq,ofJs_eq_ok ht] at happend
      exact happend

theorem built_construct {input : Input} {init : Init} {s t : Option Request} {r : Request}
    (h : construct input init s = .ok r t) : Built r := by
  rw [construct_eq] at h
  cases hv : validate (input.request? s) input init with
  | error e => simp [hv] at h
  | ok v =>
    obtain ⟨hmethod,hheaders⟩ := validate_built hv
    cases hc : complete (input.request? s) init v with
    | error e => simp [hv,hc] at h
    | ok r' =>
      simp only [hv,hc] at h
      cases h
      obtain ⟨extracted,-,hc⟩ := bind_eq_ok hc
      obtain ⟨headers,hct,hc⟩ := bind_eq_ok hc
      obtain ⟨referrer,-,hc⟩ := bind_eq_ok hc
      obtain ⟨signal,-,hc⟩ := bind_eq_ok hc
      cases hc
      refine ⟨hmethod,withContentType_normal hheaders hct,fun hbody => ?_⟩
      simp only [build] at hbody ⊢
      split at hbody
      · cases hbody
      · exact Option.map_eq_none_iff.mp hbody

theorem Reached.built {r : Request} (h : Reached r) : Built r := by
  induction h with
  | construct _ h _ => exact built_construct h
  | headers _ ops ih => exact ⟨ih.method,HeaderList.run_normal ih.headers ops,ih.body⟩
  | used _ ih => exact ⟨ih.method,ih.headers,ih.body⟩
  | signal _ σ ih => exact ⟨ih.method,ih.headers,ih.body⟩

/-- `_consume`: the request behind the call and what the promise is settled with. A null body is
the empty string and stays. -/
def consume (r : Request) : Request × Except Thrown Content :=
  if r.bodyUsed then (r,typeError (js "Already read"))
  else match r.content with
    | none => (r,.ok (.text []))
    | some c => (r.setBodyUsed,.ok c)

/-- The body can be read, and if there is one a second time not. -/
def Readable (r : Request) (content : Option Content) : Prop :=
  (consume r).2 = .ok (content.getD (.text [])) ∧
    (content.isSome = true → (consume (consume r).1).2 = typeError (js "Already read"))

theorem readable_of_content {r : Request} {content : Option Content} (hu : r.bodyUsed = false)
    (hc : r.content = content) : Readable r content := by
  subst hc
  rw [Readable]
  cases hc : r.content with
  | none => simp [consume,hu,hc]
  | some c => simp [consume,hu,hc,Request.setBodyUsed]

/-- The clone has the parts of the request, and both can still be read. -/
def CloneLaw (r : Request) : Prop :=
  ∃ c r', clone (some r) = .ok c (some r') ∧ c.method = r.method ∧ c.url = r.url ∧
    c.mode = r.mode ∧ c.redirect = r.redirect ∧
    (∀ name, c.headers.get name = r.headers.get name) ∧ r'.bodyUsed = false ∧
    Readable r' r.content ∧ Readable c r.content

theorem clone_unused {r : Request} (hu : r.bodyUsed = false) :
    clone (some r) = construct .request {} (some r) := by
  rw [clone,get_bind]
  simp only [Option.any_some,hu]
  rfl

theorem new_iterable {h : Headers} (hs : HeaderList.AllNormal h) :
    HeaderList.new (iterable h) = .ok h.copied := by
  rw [iterable,HeaderList.new_pairs]
  exact Headers.ofHeaders_eq hs

theorem validate_unused {r : Request} (hr : Built r) (hu : r.bodyUsed = false)
    (hc : r.content = none) :
    ∃ v, validate (some r) .request {} = .ok v ∧ v.url = r.url ∧ v.method = r.method ∧
      v.body = none ∧ v.headers.list = r.headers.copied.list := by
  have hsource : source (some r) .request {} = .ok
      { url := r.url, method := r.method, headersInit := iterable r.headers, body := none } := by
    simp [source,hu,hc]
  obtain ⟨g,hheaders⟩ : ∃ g, requestHeaders (some r) {} (iterable r.headers) =
      .ok { r.headers.copied with guard := g } := by
    simp only [requestHeaders,new_iterable hr.headers,ofJs,ok_bind,
      HeaderList.after_ok (HeaderList.setGuard_eq _ _)]
    exact ⟨_,rfl⟩
  refine ⟨{ url := r.url, method := r.method, headers := { r.headers.copied with guard := g },
            body := none },?_,rfl,rfl,rfl,rfl⟩
  have hmode : checkMode {} r.method = .ok () := rfl
  have hcache : checkCache {} = .ok () := rfl
  have hreferrer : checkReferrer {} = .ok () := rfl
  have hoptions : checkOptions {} = .ok () := rfl
  have hurl : checkUrl .request = .ok () := rfl
  simp only [validate,hsource,ok_bind,checkWindow,JsValue.isUndefined,if_true,hr.method,hmode,hcache,
    hreferrer,hoptions,hurl,hheaders,Option.getD_none]
  rfl

theorem clone_null {r : Request} (hr : Built r) (hu : r.bodyUsed = false) (hb : r.body = none) :
    ∃ c r', clone (some r) = .ok c (some r') ∧ c.method = r.method ∧ c.url = r.url ∧
      c.mode = r.mode ∧ c.redirect = r.redirect ∧ c.headers.list = r.headers.copied.list ∧
      r'.bodyUsed = false ∧ Readable r' r.content ∧ Readable c r.content := by
  have hc := hr.body hb
  obtain ⟨v,hv,hurl,hmethod,hbody,hlist⟩ := validate_unused hr hu hc
  let c := build (some r) {} v {} v.headers r.referrer { aborted := r.signal.aborted }
  have hcomplete : complete (some r) {} v = .ok c := by
    simp only [complete,hbody,extract,ok_bind,withContentType]
    rfl
  have hdisturbed : disturbed (some r) (some r) = some r := by
    simp [disturbed,hb]
  let r' := if listens {} (some r) then r.addListener else r
  have hused : r'.bodyUsed = false := by
    simp only [r']
    split <;> exact hu
  have hcontent : r'.content = r.content := by
    simp only [r']
    split <;> rfl
  refine ⟨c,r',?_,hmethod,hurl,?_,?_,hlist,hused,readable_of_content hused hcontent,
    readable_of_content rfl hc.symm⟩
  · rw [clone_unused hu,construct_eq]
    simp only [Input.request?,hv,hcomplete,hdisturbed,Option.map_some,r']
    split <;> rfl
  · simp [c,build,inherit,JsValue.or,JsValue.truthy]
  · simp [c,build,inherit,JsValue.or,JsValue.truthy]

theorem clone_marks {r c : Request} {t : Option Request} (hu : r.bodyUsed = false)
    (hb : r.body.isSome = true) (h : clone (some r) = .ok c t) :
    ∃ r', t = some r' ∧ r'.bodyUsed = true := by
  rw [clone_unused hu,construct_eq] at h
  have hdisturbed : disturbed (some r) (some r) = some r.setBodyUsed := by
    simp [disturbed,hb]
  simp only [Input.request?,hdisturbed] at h
  split at h
  · cases h
  · split at h
    · cases h
    · cases h
      split
      · exact ⟨_,rfl,rfl⟩
      · exact ⟨_,rfl,rfl⟩

/-- `clone` does what it is for exactly with a null body, and headers whose values survive
being joined and trimmed. -/
theorem clone_law_iff {r : Request} (hr : Reached r) (hu : r.bodyUsed = false) :
    CloneLaw r ↔ r.body = none ∧ ∀ n, ¬ Headers.EndsEmpty r.headers n := by
  have hbuilt := hr.built
  have hget {c : Request} (hlist : c.headers.list = r.headers.copied.list) :
      (∀ name, c.headers.get name = r.headers.get name) ↔
        ∀ n, ¬ Headers.EndsEmpty r.headers n := by
    rw [← Headers.get_copied_iff hbuilt.headers]
    simp only [Headers.get,hlist]
  constructor
  · rintro ⟨c,r',hclone,-,-,-,-,hheaders,hused,-⟩
    have hb : r.body = none := by
      by_contra hne
      obtain ⟨r'',heq,hmarked⟩ := clone_marks hu (Option.isSome_iff_ne_none.mpr hne) hclone
      cases heq
      simp [hused] at hmarked
    obtain ⟨c',r'',hclone',-,-,-,-,hlist,-⟩ := clone_null hbuilt hu hb
    cases hclone.symm.trans hclone'
    exact ⟨hb,(hget hlist).mp hheaders⟩
  · rintro ⟨hb,hnone⟩
    obtain ⟨c,r',hclone,hmethod,hurl,hmode,hredirect,hlist,hused,hreads,hreadc⟩ :=
      clone_null hbuilt hu hb
    exact ⟨c,r',hclone,hmethod,hurl,hmode,hredirect,(hget hlist).mpr hnone,hused,hreads,hreadc⟩

theorem sampleRequest_reached : Reached sampleRequest :=
  @Reached.construct sampleInput postInit none none _ (fun _ h => by cases h) rfl

theorem clone_law_iff_sample :
    CloneLaw sampleRequest ↔ sampleRequest.body = none ∧
      ∀ n, ¬ Headers.EndsEmpty sampleRequest.headers n :=
  clone_law_iff sampleRequest_reached rfl

/-- The clone of a request with a body leaves the request used. -/
theorem clone_disturbs : Reached sampleRequest ∧ sampleRequest.bodyUsed = false ∧
    ¬ CloneLaw sampleRequest := by
  refine ⟨sampleRequest_reached,rfl,?_⟩
  rintro ⟨c,r',hclone,-,-,-,-,-,hused,-⟩
  obtain ⟨r'',heq,hmarked⟩ := clone_marks rfl rfl hclone
  cases heq
  simp [hused] at hmarked

end RequestJs
end AsioQuickjs
