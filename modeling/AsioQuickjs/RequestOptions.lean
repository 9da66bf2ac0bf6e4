import AsioQuickjs.RequestJs

/-! Which option values the constructor of `Request` takes. Its tables are object literals, so
the names of `Object.prototype` pass for values of every table. -/
namespace AsioQuickjs
namespace RequestJs

open Headers (Guard isToken)

/-- `new Request(input, init)` returns, for an input that is no `Request`. -/
def Accepts (input : Input) (init : Init) : Prop := ∃ r t, construct input init none = .ok r t

def ThrowsTypeError (input : Input) (init : Init) : Prop :=
  ∃ message t, construct input init none = .error (.error (.typeError message)) t

/-- The value is taken if it is listed, and is a `TypeError` if not. -/
def ExactAt (input : Input) (init : Init) (listed : Prop) : Prop :=
  (listed → Accepts input init) ∧ (¬ listed → ThrowsTypeError input init)

theorem not_accepts_of_throws {input : Input} {init : Init} (h : ThrowsTypeError input init) :
    ¬ Accepts input init := by
  rintro ⟨r,t,hr⟩
  obtain ⟨m,t',hm⟩ := h
  cases hm.symm.trans hr

/-- Where a table is behind the test, it is exact but for the names of `Object.prototype`. -/
theorem exactAt_iff {input : Input} {init : Init} {table : List JsString} {v : JsString}
    (htake : lookup table v = true → Accepts input init)
    (hthrow : lookup table v = false → ThrowsTypeError input init)
    (hnone : ∀ n ∈ objectPrototype, n ∉ table) :
    ExactAt input init (v ∈ table) ↔ v ∉ objectPrototype := by
  constructor
  · rintro ⟨-,hnot⟩ hv
    refine not_accepts_of_throws (hnot (hnone v hv)) (htake ?_)
    simp [lookup,hv]
  · intro hv
    refine ⟨fun hin => htake ?_,fun hout => hthrow ?_⟩
    · simp [lookup,hin]
    · simp [lookup,hv,hout]

/-- What is known of an input that is taken without options. -/
structure Good (input : Input) : Prop where
  source : ∃ url, ∀ init, source none input init = .ok { url := url }
  url : checkUrl input = .ok ()

theorem source_none (input : Input) (init : Init) :
    source none input init = source none input {} := by
  cases input <;> rfl

theorem source_ok {input : Input} {x : Source} (h : source none input {} = .ok x) :
    x = { url := x.url } := by
  cases input with
  | request => cases h
  | url href => cases h; rfl
  | string s => cases h; rfl
  | other text =>
    cases text with
    | error e => cases h
    | ok s => cases h; rfl
  | nullish => cases h

section

variable {α β : Type}

theorem bind_eq_ok {y : Except Thrown α} {k : α → Except Thrown β} {b : β}
    (h : (y >>= k) = .ok b) : ∃ a, y = .ok a ∧ k a = .ok b := by
  cases y with
  | error e => cases h
  | ok a => exact ⟨a,rfl,h⟩

end

theorem validate_of_accepts {input : Input} {init : Init} (h : Accepts input init) :
    ∃ v, validate none input init = .ok v := by
  obtain ⟨r,t,hr⟩ := h
  rw [construct_eq,show input.request? none = none by cases input <;> rfl] at hr
  cases hv : validate none input init with
  | error e => simp [hv] at hr
  | ok v => exact ⟨v,rfl⟩

theorem validate_ok {s : Option Request} {input : Input} {init : Init} {v : Validated}
    (h : validate s input init = .ok v) : ∃ x method headers,
      source s input init = .ok x ∧
      normalizeMethod (if init.method.isUndefined then .string x.method else init.method) =
        .ok method ∧
      checkReferrer init = .ok () ∧ checkUrl input = .ok () ∧
      requestHeaders s init (match init.headers with
        | .undefined => x.headersInit
        | given => given) = .ok headers ∧
      v = { url := x.url, method := method, headers := headers,
            body := init.body.getD x.body } := by
  obtain ⟨x,hx,h⟩ := bind_eq_ok h
  obtain ⟨_,-,h⟩ := bind_eq_ok h
  obtain ⟨method,hmethod,h⟩ := bind_eq_ok h
  obtain ⟨_,-,h⟩ := bind_eq_ok h
  obtain ⟨_,-,h⟩ := bind_eq_ok h
  obtain ⟨_,hreferrer,h⟩ := bind_eq_ok h
  obtain ⟨_,-,h⟩ := bind_eq_ok h
  obtain ⟨_,hurl,h⟩ := bind_eq_ok h
  obtain ⟨headers,hheaders,h⟩ := bind_eq_ok h
  refine ⟨x,method,headers,hx,hmethod,hreferrer,hurl,hheaders,?_⟩
  simp only at h
  split at h
  · cases h
  · cases h
    rfl

theorem good_of_accepts {input : Input} (h : Accepts input {}) : Good input := by
  obtain ⟨v,hv⟩ := validate_of_accepts h
  obtain ⟨x,_,_,hx,-,-,hurl,-⟩ := validate_ok hv
  refine ⟨⟨x.url,fun init => ?_⟩,hurl⟩
  rw [source_none,hx,← source_ok hx]

theorem request?_none (input : Input) : input.request? none = none := by
  cases input <;> rfl

def emptyHeaders (guard : Guard) : Headers := { guard := guard }

theorem requestHeaders_undefined (init : Init) :
    ∃ g, requestHeaders none init .undefined = .ok (emptyHeaders g) := by
  rw [requestHeaders,show ofJs (HeaderList.new .undefined) = .ok {} from rfl,ok_bind]
  split <;> exact ⟨_,rfl⟩

theorem construct_options {input : Input} (hin : Good input) {init : Init}
    (hwindow : init.window = .undefined) (hmethod : init.method = .undefined)
    (hcache : init.cache = .undefined) (hreferrer : init.referrer = .undefined)
    (hheaders : init.headers = .undefined) (hbody : init.body = none)
    (hsignal : init.signal = .absent) :
    (∀ e, (checkMode init (js "GET") >>= fun _ => checkOptions init) = .error e →
        construct input init none = .error e none) ∧
      ((checkMode init (js "GET") >>= fun _ => checkOptions init) = .ok () →
        Accepts input init) := by
  obtain ⟨url,hsource⟩ := hin.source
  obtain ⟨g,hrequest⟩ := requestHeaders_undefined init
  have hget : normalizeMethod (.string (js "GET")) = .ok (js "GET") := by decide +kernel
  have hwin : checkWindow init = .ok () := by rw [checkWindow,hwindow]
  have hcac : checkCache init = .ok () := by
    simp [checkCache,hcache,JsValue.isText]
  have href : checkReferrer init = .ok () := by
    simp only [checkReferrer,hreferrer]
    rfl
  have hvalidate : validate none input init =
      (checkMode init (js "GET") >>= fun _ => checkOptions init >>= fun _ =>
        .ok { url := url, method := js "GET", headers := emptyHeaders g, body := none }) := by
    simp only [validate,hsource,ok_bind,hwin,hmethod,JsValue.isUndefined,if_true,hget,hcac,href,
      hin.url,hheaders,hrequest,hbody,Option.getD_none]
    rfl
  have hcomplete (v : Validated) (hv : v.body = none) : ∃ r, complete none init v = .ok r := by
    refine ⟨build none init v {} v.headers (js "about:client") {},?_⟩
    simp only [complete,hv,extract,ok_bind,withContentType,referrerOf,hreferrer,JsValue.isUndefined,
      if_true,signalOf,hsignal]
    rfl
  rw [Accepts,construct_eq,request?_none,hvalidate]
  cases hcheck : checkMode init (js "GET") with
  | error e =>
    refine ⟨fun e' he => ?_,fun hok => by cases hok⟩
    cases he
    rfl
  | ok u =>
    simp only [ok_bind]
    cases hoptions : checkOptions init with
    | error e =>
      refine ⟨fun e' he => ?_,fun hok => by cases hok⟩
      cases he
      rfl
    | ok u' =>
      refine ⟨fun e' he => (by cases he),fun _ => ?_⟩
      simp only [ok_bind]
      obtain ⟨r,hr⟩ := hcomplete { url := url, method := js "GET", headers := emptyHeaders g,
                                   body := none } rfl
      rw [hr]
      exact ⟨_,_,rfl⟩

theorem checkOption_undefined (prop : String) (table : List JsString) :
    checkOption prop table .undefined = .ok () := rfl

theorem checkOption_string (prop : String) (table : List JsString) (v : JsString) :
    checkOption prop table (.string v) =
      if lookup table v then .ok () else typeError (js "Invalid "++js prop) := by
  have hrest : checkOption prop table (.string v) = (if !lookup table v then
      typeError (js "Invalid "++js prop) else pure () : Except Thrown Unit) := rfl
  rw [hrest]
  cases lookup table v <;> rfl

example : lookup redirects (js "follow") = true := by decide +kernel

theorem checkMode_undefined {init : Init} (h : init.mode = .undefined) (method : JsString) :
    checkMode init method = .ok () := by
  simp only [checkMode,h]
  rfl

theorem throws_of_check {input : Input} {init : Init} {e : Thrown}
    (h : construct input init none = .error e none) {message : JsString}
    (he : e = .error (.typeError message)) : ThrowsTypeError input init :=
  ⟨message,none,by rw [h,he]⟩

theorem exactAt_of_check (prop : String) {input : Input} (hin : Good input) {init : Init}
    {table : List JsString} {v : JsString} (hwindow : init.window = .undefined)
    (hmethod : init.method = .undefined) (hcache : init.cache = .undefined)
    (hreferrer : init.referrer = .undefined) (hheaders : init.headers = .undefined)
    (hbody : init.body = none) (hsignal : init.signal = .absent)
    (hcheck : (checkMode init (js "GET") >>= fun _ => checkOptions init) =
      checkOption prop table (.string v))
    (hnone : ∀ n ∈ objectPrototype, n ∉ table) :
    ExactAt input init (v ∈ table) ↔ v ∉ objectPrototype := by
  obtain ⟨hthrow,htake⟩ :=
    construct_options hin hwindow hmethod hcache hreferrer hheaders hbody hsignal
  rw [hcheck,checkOption_string] at hthrow htake
  refine exactAt_iff (fun hl => htake (if_pos hl)) (fun hl => ?_) hnone
  exact throws_of_check (hthrow _ (if_neg (by simp [hl]))) rfl

theorem redirect_exactAt {input : Input} (hin : Good input) (v : JsString) :
    ExactAt input { redirect := .string v } (v ∈ redirects) ↔ v ∉ objectPrototype :=
  exactAt_of_check "redirect" hin rfl rfl rfl rfl rfl rfl rfl rfl (by decide +kernel)

theorem credentials_exactAt {input : Input} (hin : Good input) (v : JsString) :
    ExactAt input { credentials := .string v } (v ∈ credentialModes) ↔ v ∉ objectPrototype := by
  refine exactAt_of_check "credentials" hin rfl rfl rfl rfl rfl rfl rfl ?_ (by decide +kernel)
  simp only [checkOptions,checkOption_undefined,checkOption_string]
  split <;> rfl

theorem referrerPolicy_exactAt {input : Input} (hin : Good input) (v : JsString) :
    ExactAt input { referrerPolicy := .string v } (v ∈ referrerPolicies) ↔ v ∉ objectPrototype := by
  refine exactAt_of_check "referrerPolicy" hin rfl rfl rfl rfl rfl rfl rfl ?_ (by decide +kernel)
  simp only [checkOptions,checkOption_undefined,checkOption_string]
  split <;> rfl

def requestModes : List JsString := [js "same-origin",js "no-cors",js "cors"]

theorem checkMode_string {v : JsString} (hv : v ≠ js "navigate") {init : Init}
    (hmode : init.mode = .string v) : checkMode init (js "GET") = .ok () := by
  have hnavigate : init.mode.isText "navigate" = false := by
    rw [hmode]
    exact decide_eq_false hv
  have hget : lookup [js "GET",js "HEAD",js "POST"] (js "GET") = true := by decide
  simp only [checkMode,hnavigate,hget,Bool.not_true,Bool.and_false]
  rfl

theorem lookup_modes {v : JsString} (hv : v ≠ js "navigate") :
    lookup modes v = lookup requestModes v := by
  simp only [lookup,modes,requestModes,List.contains_cons,List.contains_nil,
    beq_false_of_ne hv,Bool.or_false]

example : lookup modes (js "navigate") = true := by decide +kernel

theorem mode_exactAt {input : Input} (hin : Good input) (v : JsString) :
    ExactAt input { mode := .string v } (v ∈ requestModes) ↔ v ∉ objectPrototype := by
  obtain ⟨hthrow,htake⟩ := @construct_options _ hin { mode := .string v }
    rfl rfl rfl rfl rfl rfl rfl
  by_cases hv : v = js "navigate"
  · subst hv
    have hthrows := throws_of_check (hthrow _ rfl) rfl
    exact iff_of_true ⟨fun hin => absurd hin (by decide),fun _ => hthrows⟩ (by decide +kernel)
  · have hcheck : (checkMode { mode := .string v } (js "GET") >>= fun _ =>
        checkOptions { mode := .string v }) = checkOption "mode" modes (.string v) := by
      rw [checkMode_string hv rfl,ok_bind]
      simp only [checkOptions,checkOption_undefined,checkOption_string]
      split <;> rfl
    rw [hcheck,checkOption_string,lookup_modes hv] at hthrow htake
    refine exactAt_iff (fun hl => htake (if_pos hl)) (fun hl => ?_) (by decide +kernel)
    exact throws_of_check (hthrow _ (if_neg (by simp [hl]))) rfl

def excluded : List JsString := methodsWithoutBody++forbidden

theorem normalizeMethod_token {m : JsString} (htoken : isMethodToken m = true)
    (hexcluded : toUpperCase m ∉ excluded) :
    normalizeMethod (.string m) =
      .ok (if normalized.contains (toUpperCase m) then toUpperCase m else m) := by
  have hforbidden : forbidden.contains (toUpperCase m) = false := by
    simp only [excluded,List.mem_append,not_or] at hexcluded
    simpa using hexcluded.2
  simp only [normalizeMethod,JsValue.text,ok_bind,htoken,hforbidden]
  split <;> rfl

/-- The table of methods without a body has no other token, but for `Object.prototype`. -/
theorem lookup_method {m : JsString} (hexcluded : toUpperCase m ∉ excluded) :
    lookup methodsWithoutBody (if normalized.contains (toUpperCase m) then toUpperCase m else m) =
      objectPrototype.contains m := by
  have hproto : ∀ n ∈ objectPrototype, toUpperCase n ∉ normalized := by decide +kernel
  have hwords : ∀ n ∈ normalized, n ∉ objectPrototype := by decide +kernel
  have hcase : ∀ n ∈ methodsWithoutBody, toUpperCase n = n := by decide +kernel
  have hup : toUpperCase m ∉ methodsWithoutBody := fun h => hexcluded (List.mem_append_left _ h)
  by_cases hm : toUpperCase m ∈ normalized
  · rw [if_pos (by simpa using hm)]
    have hnot : m ∉ objectPrototype := fun h => hproto m h hm
    simp [lookup,hup,hwords _ hm,hnot]
  · rw [if_neg (by simpa using hm)]
    have hnot : m ∉ methodsWithoutBody := fun h => hup (by rwa [hcase m h])
    simp [lookup,hnot]

example : lookup methodsWithoutBody (js "constructor") = true := by decide +kernel

/-- With a method and a body alone, the constructor tests the method for a body and takes the
body apart. -/
theorem accepts_body_iff {input : Input} (hin : Good input) {m : JsString} {b : Body}
    (htoken : isMethodToken m = true) (hexcluded : toUpperCase m ∉ excluded) :
    Accepts input { method := .string m, body := some (some b) } ↔
      m ∉ objectPrototype ∧ ∃ e h, extractBody b = .ok e ∧
        withContentType (emptyHeaders .request) e.contentType = .ok h := by
  obtain ⟨url,hsource⟩ := hin.source
  have hlookup := lookup_method hexcluded
  have hnormalize := normalizeMethod_token htoken hexcluded
  generalize (if normalized.contains (toUpperCase m) then toUpperCase m else m) = m' at *
  have hvalidate : validate none input { method := .string m, body := some (some b) } =
      if objectPrototype.contains m then
        typeError (js "Request with "++m'++js " method cannot have a body")
      else .ok { url := url, method := m', headers := emptyHeaders .request, body := some b } := by
    have hheaders : requestHeaders none { method := .string m, body := some (some b) } .undefined =
        .ok (emptyHeaders .request) := rfl
    have hoptions : checkOptions { method := .string m, body := some (some b) } = .ok () := rfl
    have hreferrer : checkReferrer { method := .string m, body := some (some b) } = .ok () := rfl
    have hcache : checkCache { method := .string m, body := some (some b) } = .ok () := rfl
    simp only [validate,hsource,ok_bind,checkWindow,JsValue.isUndefined,Bool.false_eq_true,if_false,
      hnormalize,checkMode_undefined,hcache,hreferrer,hoptions,hin.url,hheaders,Option.getD_some,
      Option.isSome_some,Bool.true_and,hlookup]
    split <;> rfl
  rw [Accepts,construct_eq,request?_none,hvalidate]
  by_cases hm : m ∈ objectPrototype
  · rw [if_pos (by simpa using hm)]
    refine iff_of_false ?_ fun h => h.1 hm
    rintro ⟨r,t,hr⟩
    cases hr
  · rw [if_neg (by simpa using hm)]
    simp only [hm,not_false_eq_true,true_and,complete,extract]
    cases hb : extractBody b with
    | error e => simp [error_bind]
    | ok extracted =>
      simp only [ok_bind,Except.ok.injEq]
      cases hct : withContentType (emptyHeaders .request) extracted.contentType with
      | error e =>
        refine iff_of_false ?_ ?_
        · rintro ⟨r,t,hr⟩
          cases hr
        · rintro ⟨_,headers,rfl,hheaders⟩
          cases hct.symm.trans hheaders
      | ok headers => exact iff_of_true ⟨_,_,rfl⟩ ⟨extracted,headers,rfl,hct⟩

/-- A body that `POST` takes goes with a method unless its name is one of `Object.prototype`. -/
theorem method_takes_body_iff {input : Input} (hin : Good input) {b : Body}
    (hb : Accepts input { method := .string (js "POST"), body := some (some b) }) {m : JsString}
    (htoken : isMethodToken m = true) (hexcluded : toUpperCase m ∉ excluded) :
    Accepts input { method := .string m, body := some (some b) } ↔ m ∉ objectPrototype := by
  have hpost := (accepts_body_iff hin (by decide +kernel) (by decide +kernel)).mp hb
  rw [accepts_body_iff hin htoken hexcluded]
  exact and_iff_left hpost.2

/-- For an address that is taken: every table is exact but for the names of `Object.prototype`,
and those are the methods that cannot have a body without reason. -/
theorem options_exact_iff {input : Input} (hinput : Accepts input {}) :
    (∀ v, ExactAt input { redirect := .string v } (v ∈ redirects) ↔ v ∉ objectPrototype) ∧
    (∀ v, ExactAt input { credentials := .string v } (v ∈ credentialModes) ↔ v ∉ objectPrototype) ∧
    (∀ v, ExactAt input { referrerPolicy := .string v } (v ∈ referrerPolicies) ↔
      v ∉ objectPrototype) ∧
    (∀ v, ExactAt input { mode := .string v } (v ∈ requestModes) ↔ v ∉ objectPrototype) ∧
    ∀ b, Accepts input { method := .string (js "POST"), body := some (some b) } →
      ∀ m, isMethodToken m = true → toUpperCase m ∉ excluded →
        (Accepts input { method := .string m, body := some (some b) } ↔ m ∉ objectPrototype) := by
  have hin := good_of_accepts hinput
  exact ⟨redirect_exactAt hin,credentials_exactAt hin,referrerPolicy_exactAt hin,mode_exactAt hin,
    fun b hb m htoken hexcluded => method_takes_body_iff hin hb htoken hexcluded⟩

def sampleInput : Input := .string (js "http://a/")

theorem sampleInput_accepted : Accepts sampleInput {} := ⟨_,_,rfl⟩

theorem options_exact_iff_sample :
    (ExactAt sampleInput { redirect := .string (js "manual") } (js "manual" ∈ redirects) ↔
      js "manual" ∉ objectPrototype) ∧
    (ExactAt sampleInput { mode := .string (js "x") } (js "x" ∈ requestModes) ↔
      js "x" ∉ objectPrototype) ∧
    (Accepts sampleInput { method := .string (js "put"), body := some (some (.string (js "b"))) } ↔
      js "put" ∉ objectPrototype) := by
  have hall := options_exact_iff sampleInput_accepted
  refine ⟨hall.1 (js "manual"),hall.2.2.2.1 (js "x"),hall.2.2.2.2 _ ⟨_,_,rfl⟩ (js "put") ?_ ?_⟩
  · decide +kernel
  · decide +kernel

/-- A redirect mode that is not listed is taken, and a token is refused as a method. -/
theorem prototype_names :
    js "toString" ∉ redirects ∧ Accepts sampleInput { redirect := .string (js "toString") } ∧
      isMethodToken (js "constructor") = true ∧ toUpperCase (js "constructor") ∉ excluded ∧
      ¬ Accepts sampleInput
        { method := .string (js "constructor"), body := some (some (.string (js "b"))) } := by
  refine ⟨by decide,⟨_,_,rfl⟩,by decide +kernel,by decide +kernel,?_⟩
  exact not_accepts_of_throws ⟨_,_,rfl⟩

end RequestJs
end AsioQuickjs
