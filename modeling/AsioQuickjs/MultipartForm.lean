import AsioQuickjs.Cutting
import AsioQuickjs.JsText

/-! What `FormData` makes of its entries, and when the entries can be told from it. -/
namespace AsioQuickjs
namespace MultipartForm

open BodyBytes (units stringToBytes)
open Cutting

/-- `_boundary`. There is no line break and no quote in it. -/
structure Boundary where
  text : JsString
  plain : ∀ u ∈ text, u ≠ 10 ∧ u ≠ 13 ∧ u ≠ 34

def hexUnit (d : Fin 16) : ℕ := if d.val < 10 then 48+d.val else 87+d.val

/-- The digits are those of `Math.random().toString(16).slice(2)`. -/
def Boundary.random (digits : List (Fin 16)) : Boundary where
  text := js "----asioqjs"++digits.map hexUnit++js "boundary"
  plain := by
    have hdigit : ∀ d : Fin 16, hexUnit d ≠ 10 ∧ hexUnit d ≠ 13 ∧ hexUnit d ≠ 34 := by decide
    have hstart : ∀ u ∈ js "----asioqjs", u ≠ 10 ∧ u ≠ 13 ∧ u ≠ 34 := by decide
    have hend : ∀ u ∈ js "boundary", u ≠ 10 ∧ u ≠ 13 ∧ u ≠ 34 := by decide
    intro u hu
    rcases List.mem_append.mp hu with hu | hu
    · rcases List.mem_append.mp hu with hu | hu
      · exact hstart u hu
      · obtain ⟨d,-,rfl⟩ := List.mem_map.mp hu
        exact hdigit d
    · exact hend u hu

abbrev Entries := List (JsString × JsString)

structure FormData where
  boundary : Boundary
  entries : Entries := []

def FormData.new (digits : List (Fin 16)) : FormData := { boundary := .random digits }

def FormData.append (d : FormData) (name value : JsString) : FormData :=
  { d with entries := d.entries++[(name,value)] }

theorem foldl_append (digits : List (Fin 16)) (es : Entries) :
    es.foldl (fun d e => d.append e.1 e.2) (FormData.new digits) = ⟨.random digits,es⟩ := by
  have hall (es es' : Entries) : es.foldl (fun d e => d.append e.1 e.2)
      (⟨.random digits,es'⟩ : FormData) = ⟨.random digits,es'++es⟩ := by
    induction es generalizing es' with
    | nil => rw [List.foldl_nil,List.append_nil]
    | cons e es ih =>
      rw [List.foldl_cons,FormData.append,ih,List.append_assoc]
      rfl
  exact hall es []

def FormData.toMultipart (d : FormData) : JsString :=
  if d.entries = [] then []
  else
    d.entries.flatMap (fun e =>
      js "--"++d.boundary.text++js "\r\nContent-Disposition: form-data; name=\""++e.1++
        js "\"\r\n\r\n"++e.2++js "\r\n")++
      (js "--"++d.boundary.text++js "--\r\n")

def crlf : JsString := js "\r\n"

def Boundary.delimiter (b : Boundary) : JsString := js "--"++b.text

/-- The lines of a part before its first empty line are one line. -/
def SingleHeader (part : JsString) : Prop :=
  ∃ header body, part.dropInfix? (crlf++crlf) = some (crlf++header,body) ∧ header ≠ [] ∧
    ¬ crlf <:+: header

/-- Between the delimiters there is a part for each entry. -/
def OnePartEach (d : FormData) : Prop :=
  ∃ parts, split d.boundary.delimiter d.toMultipart.length d.toMultipart =
      []::parts++[js "--\r\n"] ∧
    parts.length = d.entries.length ∧ ∀ part ∈ parts, SingleHeader part

/-- Different strings, with different bytes if they are well-formed. -/
def DifferentBytes (x y : JsString) : Prop :=
  x ≠ y ∧ ∀ s t, x = units s → y = units t → stringToBytes s ≠ stringToBytes t

def separator : JsString := js "\"\r\n\r\n"

def disposition : JsString := js "Content-Disposition: form-data; name=\""

def part (e : JsString × JsString) : JsString :=
  crlf++(disposition++(e.1++(separator++(e.2++crlf))))

theorem toMultipart_eq (b : Boundary) {es : Entries} (hes : es ≠ []) :
    FormData.toMultipart ⟨b,es⟩ =
      ([]::es.map part).flatMap (·++b.delimiter)++js "--\r\n" := by
  have hentries (es : Entries) : es.flatMap (fun e =>
      js "--"++b.text++js "\r\nContent-Disposition: form-data; name=\""++e.1++
        js "\"\r\n\r\n"++e.2++js "\r\n")++b.delimiter =
      b.delimiter++(es.map part).flatMap (·++b.delimiter) := by
    induction es with
    | nil => simp
    | cons e es ih =>
      have hpart : js "--"++b.text++js "\r\nContent-Disposition: form-data; name=\""++e.1++
          js "\"\r\n\r\n"++e.2++js "\r\n" = b.delimiter++part e := by
        have hline : js "\r\nContent-Disposition: form-data; name=\"" = crlf++disposition := by
          decide
        simp only [part,hline,Boundary.delimiter,separator,crlf,List.append_assoc]
      rw [List.flatMap_cons,List.append_assoc,ih,hpart,List.map_cons,List.flatMap_cons]
      simp only [List.append_assoc]
  have hsplit := hentries es
  rw [FormData.toMultipart,if_neg hes,List.flatMap_cons,List.nil_append,← hsplit]
  simp only [Boundary.delimiter,List.append_assoc]

theorem delimiter_plain (b : Boundary) :
    10 ∉ b.delimiter ∧ 13 ∉ b.delimiter ∧ 34 ∉ b.delimiter := by
  have hplain : ∀ u ∈ b.delimiter, u ≠ 10 ∧ u ≠ 13 ∧ u ≠ 34 := by
    intro u hu
    rcases List.mem_append.mp hu with hu | hu
    · have hdash : ∀ u ∈ js "--", u ≠ 10 ∧ u ≠ 13 ∧ u ≠ 34 := by decide
      exact hdash u hu
    · exact b.plain u hu
  exact ⟨fun h => (hplain 10 h).1 rfl,fun h => (hplain 13 h).2.1 rfl,
    fun h => (hplain 34 h).2.2 rfl⟩

/-- The boundary is in no name and no value. -/
def Free (b : Boundary) (e : JsString × JsString) : Prop :=
  ¬ b.text <:+: e.1 ∧ ¬ b.text <:+: e.2

theorem text_in_delimiter (b : Boundary) : b.text <:+: b.delimiter := ⟨js "--",[],by
  rw [List.append_nil,Boundary.delimiter]⟩

theorem cutsAt_part {b : Boundary} {e : JsString × JsString} (he : Free b e) :
    CutsAt b.delimiter (part e) := by
  obtain ⟨hlf,hcr,hquote⟩ := delimiter_plain b
  have hdash : js "--" <:+: b.delimiter := ⟨[],b.text,rfl⟩
  have hfield : ¬ b.delimiter <:+: js "Content-Disposition: form-data; name=" :=
    fun h => absurd (hdash.trans h) (by decide)
  have hempty : ¬ b.delimiter <:+: [] := fun h => absurd (hdash.trans h) (by decide)
  have hname : ¬ b.delimiter <:+: e.1 := fun h => he.1 ((text_in_delimiter b).trans h)
  have hvalue : ¬ b.delimiter <:+: e.2 := fun h => he.2 ((text_in_delimiter b).trans h)
  have hpart : part e = ([]++13::([]++10::(js "Content-Disposition: form-data; name="++34::
      (e.1++34::([]++13::([]++10::([]++13::([]++10::(e.2++13::[])))))))))++[10] := by
    simp [part,crlf,disposition,separator,js]
  rw [hpart]
  refine cutsAt_concat hlf ?_
  simp only [infix_append_cons hlf,infix_append_cons hcr,infix_append_cons hquote,hfield,hempty,
    hname,hvalue,or_self,not_false_eq_true]

theorem split_toMultipart {b : Boundary} {es : Entries} (hes : es ≠ [])
    (hfree : ∀ e ∈ es, Free b e) :
    split b.delimiter (FormData.toMultipart ⟨b,es⟩).length (FormData.toMultipart ⟨b,es⟩) =
      []::es.map part++[js "--\r\n"] := by
  refine split_pieces (by simp [Boundary.delimiter,js]) (fun p hp => ?_) (fun h => ?_)
    (toMultipart_eq b hes)
  · rcases List.mem_cons.mp hp with rfl | hp
    · exact cutsAt_nil
    · obtain ⟨e,he,rfl⟩ := List.mem_map.mp hp
      exact cutsAt_part (hfree e he)
  · obtain ⟨e,he⟩ := List.exists_mem_of_ne_nil es hes
    obtain ⟨hlf,hcr,-⟩ := delimiter_plain b
    have hclose : js "--\r\n" = js "--"++13::([]++10::[]) := by decide
    rw [hclose,infix_append_cons hcr,infix_append_cons hlf,or_self] at h
    have hempty : b.text = [] := by
      rcases h with h | h
      · have hle := h.length_le
        simp only [Boundary.delimiter,List.length_append] at hle
        exact List.length_eq_zero_iff.mp (by omega)
      · have hnil := List.infix_nil.mp h
        exact (List.append_eq_nil_iff.mp hnil).2
    refine (hfree e he).1 ?_
    rw [hempty]
    exact List.nil_infix

theorem crlf_unbordered : Unbordered crlf := by decide

theorem crlf_ne_nil : crlf ≠ [] := by decide

/-- The first line of what follows the delimiter is the header, if an empty line follows it. -/
theorem singleHeader_iff {u : ℕ} (hu : u ≠ 13) (l : JsString) :
    SingleHeader (crlf++u::l) ↔ ∃ r, (u::l).dropInfix? crlf = some r ∧ crlf <+: r.2 := by
  constructor
  · rintro ⟨header,body,hcut,-,hline⟩
    obtain ⟨hl,-⟩ := eq_of_dropInfix? hcut
    have htail : u::l = header++crlf++(crlf++body) := by
      simp only [List.append_assoc,List.append_cancel_left_eq] at hl
      rw [hl,List.append_assoc]
    refine ⟨(header,crlf++body),?_,List.prefix_append _ _⟩
    rw [htail]
    exact dropInfix?_unbordered crlf_unbordered hline
  · rintro ⟨⟨header,rest⟩,hcut,body,rfl⟩
    obtain ⟨hl,hfirst⟩ := eq_of_dropInfix? hcut
    refine ⟨header,body,?_,?_,not_infix_of_dropInfix? crlf_ne_nil hcut⟩
    · have hpart : crlf++u::l = (crlf++header)++(crlf++crlf)++body := by
        rw [hl]
        simp only [List.append_assoc]
      rw [hpart]
      refine dropInfix?_of_first fun p' s' h => ?_
      rw [← hpart] at h
      -- an empty line starts neither at the line break nor inside of it
      rcases p' with _ | ⟨x,_ | ⟨y,p'⟩⟩
      · have hunits : 13::10::13::10::s' = 13::10::u::l := h
        simp only [List.cons.injEq,true_and] at hunits
        exact absurd hunits.1.symm hu
      · have hunits : x::13::10::13::10::s' = 13::10::u::l := h
        simp only [List.cons.injEq] at hunits
        exact absurd hunits.2.1 (by decide)
      · have hunits : x::y::(p'++(crlf++crlf)++s') = 13::10::u::l := h
        have htail : u::l = p'++crlf++(crlf++s') := by
          simp only [List.cons.injEq] at hunits
          rw [← hunits.2.2]
          simp only [List.append_assoc]
        have hle := hfirst p' _ htail
        simp only [List.length_append,List.length_cons] at hle ⊢
        have hcrlf : crlf.length = 2 := rfl
        omega
    · rintro rfl
      exact hu (List.cons.inj hl).1

/-- The first line break of a name, if there is one, is followed by another one. -/
def BreakDoubled (name : JsString) : Prop := ∀ r ∈ name.dropInfix? crlf, crlf <+: r.2

instance (name : JsString) : Decidable (BreakDoubled name) :=
  inferInstanceAs (Decidable (∀ r ∈ name.dropInfix? crlf, crlf <+: r.2))

theorem disposition_free {x : JsString} (hx : ¬ crlf <:+: x) : ¬ crlf <:+: disposition++x := by
  have hquote : 34 ∉ crlf := by decide
  have hline : disposition++x = js "Content-Disposition: form-data; name="++34::x := by
    simp [disposition,js]
  rw [hline,infix_append_cons hquote]
  exact not_or.mpr ⟨by decide,hx⟩

theorem singleHeader_part (e : JsString × JsString) :
    SingleHeader (part e) ↔ BreakDoubled e.1 := by
  obtain ⟨n,v⟩ := e
  have hquote : 34 ∉ crlf := by decide
  have hpart : part (n,v) = crlf++67::(disposition.tail++(n++(separator++(v++crlf)))) := rfl
  have hrest : 67::(disposition.tail++(n++(separator++(v++crlf)))) =
      disposition++(n++(separator++(v++crlf))) := rfl
  rw [hpart,singleHeader_iff (by decide),hrest]
  by_cases hname : crlf <:+: n
  · obtain ⟨⟨x,y⟩,hcut⟩ := exists_dropInfix? hname
    obtain ⟨rfl,-⟩ := eq_of_dropInfix? hcut
    have hx := not_infix_of_dropInfix? crlf_ne_nil hcut
    have hline : (disposition++(x++crlf++y++(separator++(v++crlf)))).dropInfix? crlf =
        some (disposition++x,y++(separator++(v++crlf))) := by
      have hassoc : disposition++(x++crlf++y++(separator++(v++crlf))) =
          (disposition++x)++crlf++(y++(separator++(v++crlf))) := by
        simp only [List.append_assoc]
      rw [hassoc]
      exact dropInfix?_unbordered crlf_unbordered (disposition_free hx)
    rw [hline,BreakDoubled,hcut]
    simp only [Option.some.injEq,exists_eq_left',Option.mem_def,forall_eq']
    exact prefix_append_cons hquote
  · have hline : (disposition++(n++(separator++(v++crlf)))).dropInfix? crlf =
        some (disposition++(n++[34]),crlf++(v++crlf)) := by
      have hassoc : disposition++(n++(separator++(v++crlf))) =
          (disposition++(n++[34]))++crlf++(crlf++(v++crlf)) := by
        have hsep : separator = [34]++(crlf++crlf) := by decide
        simp only [hsep,List.append_assoc]
      rw [hassoc]
      refine dropInfix?_unbordered crlf_unbordered (disposition_free ?_)
      rw [infix_append_cons hquote]
      exact not_or.mpr ⟨hname,by decide⟩
    rw [hline,BreakDoubled,dropInfix?_eq_none hname]
    exact iff_of_true ⟨_,rfl,List.prefix_append _ _⟩ (fun r hr => by cases hr)

/-- The entries differ only in which `"\r\n\r\n` of one text separates name and value. -/
def Recut (e f : JsString × JsString) : Prop :=
  e = f ∨ (∃ m, f.1 = e.1++separator++m ∧ e.2 = m++separator++f.2) ∨
    ∃ m, e.1 = f.1++separator++m ∧ f.2 = m++separator++e.2

theorem part_eq_iff (e f : JsString × JsString) : part e = part f ↔ Recut e f := by
  have hsep : Unbordered separator := by decide
  have htext (e : JsString × JsString) :
      part e = crlf++(disposition++(e.1++separator++e.2++crlf)) := by
    simp only [part,List.append_assoc]
  rw [htext,htext,List.append_cancel_left_eq,List.append_cancel_left_eq,
    List.append_cancel_right_eq,cut_eq_iff hsep,Recut,Prod.ext_iff]

theorem toMultipart_eq_iff {b : Boundary} {es fs : Entries} (hes : es ≠ []) (hfs : fs ≠ [])
    (hfree : ∀ e ∈ es, Free b e) (hfree' : ∀ f ∈ fs, Free b f) :
    FormData.toMultipart ⟨b,es⟩ = FormData.toMultipart ⟨b,fs⟩ ↔ List.Forall₂ Recut es fs := by
  have hparts : es.map part = fs.map part ↔ List.Forall₂ Recut es fs := by
    rw [← List.forall₂_eq_eq_eq,List.forall₂_map_left_iff,List.forall₂_map_right_iff]
    simp only [part_eq_iff]
  rw [← hparts]
  constructor
  · intro h
    have hsplit := split_toMultipart hes hfree
    rw [h,split_toMultipart hfs hfree'] at hsplit
    exact ((List.cons.inj (List.append_inj_left' hsplit rfl)).2).symm
  · intro h
    rw [toMultipart_eq b hes,toMultipart_eq b hfs,h]

theorem differentBytes_iff {x y : JsString} : DifferentBytes x y ↔ x ≠ y := by
  refine ⟨And.left,fun h => ⟨h,?_⟩⟩
  rintro s t rfl rfl hbytes
  rw [BodyBytes.stringToBytes_eq,BodyBytes.stringToBytes_eq] at hbytes
  have htext := Utf8.text_encode s
  rw [hbytes,Utf8.text_encode t] at htext
  exact h (congrArg units (Option.some.inj htext).symm)

theorem onePartEach_iff {b : Boundary} {es : Entries} (hes : es ≠ [])
    (hfree : ∀ e ∈ es, Free b e) : OnePartEach ⟨b,es⟩ ↔ ∀ e ∈ es, BreakDoubled e.1 := by
  have hparts : (∀ p ∈ es.map part, SingleHeader p) ↔ ∀ e ∈ es, BreakDoubled e.1 := by
    rw [List.forall_mem_map]
    simp only [singleHeader_part]
  rw [← hparts]
  constructor
  · rintro ⟨parts,hsplit,-,hsingle⟩
    rw [split_toMultipart hes hfree] at hsplit
    have heq := (List.cons.inj (List.append_inj_left' hsplit rfl)).2
    rw [heq]
    exact hsingle
  · exact fun h => ⟨es.map part,split_toMultipart hes hfree,List.length_map _,h⟩

theorem eq_of_recut {e f : JsString × JsString} (he : ¬ crlf <:+: e.1) (hf : ¬ crlf <:+: f.1)
    (h : Recut e f) : e = f := by
  have hsep : crlf <:+: separator := by decide
  have hmid (x m : JsString) : crlf <:+: x++separator++m := hsep.trans ⟨x,m,rfl⟩
  rcases h with rfl | ⟨m,hm,-⟩ | ⟨m,hm,-⟩
  · rfl
  · exact absurd (hm ▸ hmid e.1 m) hf
  · exact absurd (hm ▸ hmid f.1 m) he

theorem eq_of_forall₂_recut {es fs : Entries} (h : List.Forall₂ Recut es fs)
    (hes : ∀ e ∈ es, ¬ crlf <:+: e.1) (hfs : ∀ f ∈ fs, ¬ crlf <:+: f.1) : es = fs := by
  induction h with
  | nil => rfl
  | cons h _ ih =>
    rw [eq_of_recut (hes _ (by simp)) (hfs _ (by simp)) h,
      ih (fun e he => hes e (List.mem_cons_of_mem _ he))
        (fun f hf => hfs f (List.mem_cons_of_mem _ hf))]

theorem unambiguous_of_names {b : Boundary} {es fs : Entries} (hes : es ≠ []) (hfs : fs ≠ [])
    (hne : es ≠ fs) (hfree : ∀ e ∈ es++fs, Free b e) (hnames : ∀ e ∈ es++fs, ¬ crlf <:+: e.1) :
    DifferentBytes (FormData.toMultipart ⟨b,es⟩) (FormData.toMultipart ⟨b,fs⟩) ∧
      OnePartEach ⟨b,es⟩ ∧ OnePartEach ⟨b,fs⟩ := by
  obtain ⟨hfree,hfree'⟩ := List.forall_mem_append.mp hfree
  obtain ⟨hnames,hnames'⟩ := List.forall_mem_append.mp hnames
  have hbreak {n : JsString} (hn : ¬ crlf <:+: n) : BreakDoubled n := fun r hr => by
    rw [dropInfix?_eq_none hn] at hr
    cases hr
  refine ⟨differentBytes_iff.mpr fun h => ?_,(onePartEach_iff hes hfree).mpr fun e he => ?_,
    (onePartEach_iff hfs hfree').mpr fun f hf => ?_⟩
  · exact hne (eq_of_forall₂_recut ((toMultipart_eq_iff hes hfs hfree hfree').mp h) hnames hnames')
  · exact hbreak (hnames e he)
  · exact hbreak (hnames' f hf)

/-- Two forms with the same boundary, and no boundary in their names and values: there are
different bytes and one part with one header line for each entry exactly if the first line break
of a name is followed by another one and no form is the other one recut. -/
theorem multipart_iff (b : Boundary) {es fs : Entries} (hes : es ≠ []) (hfs : fs ≠ [])
    (hfree : ∀ e ∈ es++fs, Free b e) :
    (DifferentBytes (FormData.toMultipart ⟨b,es⟩) (FormData.toMultipart ⟨b,fs⟩) ∧
        OnePartEach ⟨b,es⟩ ∧ OnePartEach ⟨b,fs⟩) ↔
      (∀ e ∈ es++fs, BreakDoubled e.1) ∧ ¬ List.Forall₂ Recut es fs := by
  obtain ⟨hfree,hfree'⟩ := List.forall_mem_append.mp hfree
  rw [differentBytes_iff,Ne,toMultipart_eq_iff hes hfs hfree hfree',onePartEach_iff hes hfree,
    onePartEach_iff hfs hfree',List.forall_mem_append,and_comm]

theorem multipart_iff_sample :
    DifferentBytes
      (FormData.toMultipart ⟨.random [0],[(js "a",js "x\r\ny"),(js "b",[])]⟩)
      (FormData.toMultipart ⟨.random [0],[(js "a",js "x")]⟩) := by
  have hiff := @multipart_iff (.random [0]) [(js "a",js "x\r\ny"),(js "b",[])]
    [(js "a",js "x")] (by decide) (by decide) (by simp only [Free]; decide +kernel)
  refine (hiff.mpr ⟨by decide +kernel,fun h => ?_⟩).1
  exact absurd h.length_eq (by decide)

/-- Two forms with the same bytes, and a form with two header lines in its part. -/
theorem recut_collision :
    (Free (.random [0]) (js "a\"\r\n\r\nb",js "c") ∧
        Free (.random [0]) (js "a",js "b\"\r\n\r\nc") ∧
        (js "a\"\r\n\r\nb",js "c") ≠ (js "a",js "b\"\r\n\r\nc") ∧
        FormData.toMultipart ⟨.random [0],[(js "a\"\r\n\r\nb",js "c")]⟩ =
          FormData.toMultipart ⟨.random [0],[(js "a",js "b\"\r\n\r\nc")]⟩) ∧
      Free (.random [0]) (js "a\r\nX: b",js "c") ∧
        ¬ OnePartEach ⟨.random [0],[(js "a\r\nX: b",js "c")]⟩ := by
  have hfree : Free (.random [0]) (js "a\r\nX: b",js "c") := by
    simp only [Free]
    decide +kernel
  refine ⟨by simp only [Free]; decide +kernel,hfree,fun h => ?_⟩
  have hbreak := (onePartEach_iff (by decide) (List.forall_mem_singleton.mpr hfree)).mp h
  exact absurd hbreak (by decide +kernel)

end MultipartForm
end AsioQuickjs
