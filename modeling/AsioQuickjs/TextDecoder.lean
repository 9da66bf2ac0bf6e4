import AsioQuickjs.Bits
import AsioQuickjs.UrlencodedForm

/-! `TextDecoder`, made before there is a `Buffer`: it writes code units into a window that it
empties into strings. -/
namespace AsioQuickjs
namespace TextDecoder

open BodyBytes (units View)

/-- `r[e]&63`, where `undefined` counts as zero. -/
def low (r : Bytes) (e : ℕ) : ℕ := ((r[e]?.map (·.toNat)).getD 0) &&& 63

/-- The units of the character at `e`, and where the next one is read. -/
def character (r : Bytes) (e : ℕ) : List ℕ × ℕ :=
  let a := (r[e]?.map (·.toNat)).getD 0
  if a &&& 128 = 0 then ([a],e+1)
  else if a &&& 224 = 192 then ([(a &&& 31) <<< 6 ||| low r (e+1)],e+2)
  else if a &&& 240 = 224 then
    ([(a &&& 31) <<< 12 ||| low r (e+1) <<< 6 ||| low r (e+2)],e+3)
  else if a &&& 248 = 240 then
    let c := (a &&& 7) <<< 18 ||| low r (e+1) <<< 12 ||| low r (e+2) <<< 6 ||| low r (e+3)
    if c > 65535 then
      ([(c-65536) >>> 10 &&& 1023 ||| 55296,56320 ||| (c-65536) &&& 1023],e+4)
    else ([c],e+4)
  else ([],e+1)

theorem character_lt (r : Bytes) (e : ℕ) : e < (character r e).2 := by
  simp only [character]
  split_ifs <;> simp only <;> omega

/-- What is left to read, the window with how much of it is filled, and the strings so far. -/
structure Decoder where
  r : Bytes
  e : ℕ
  n : List ℕ
  o : ℕ
  i : List JsString

/-- `n[o++]=u`. A `Uint16Array` keeps sixteen bits, and nothing past its end. -/
def Decoder.put (s : Decoder) (u : ℕ) : Decoder :=
  { s with n := s.n.set s.o (u % 2^16), o := s.o+1 }

/-- `i.push(String.fromCharCode.apply(null,n.subarray(0,o)))`, and the window is empty again. -/
def Decoder.flush (s : Decoder) : Decoder :=
  { s with r := s.r.drop s.e, e := 0, o := 0, i := s.i++[s.n.take s.o] }

def Decoder.read (s : Decoder) : Decoder :=
  { (character s.r s.e).1.foldl Decoder.put s with e := (character s.r s.e).2 }

def Decoder.room (f : ℕ) (s : Decoder) : Decoder := if s.o ≥ f-1 then s.flush else s

theorem foldl_put_r (us : List ℕ) (s : Decoder) : (us.foldl Decoder.put s).r = s.r := by
  induction us generalizing s with
  | nil => rfl
  | cons u us ih => exact ih (s.put u)

theorem Decoder.room_left (f : ℕ) (s : Decoder) :
    (s.room f).r.length-(s.room f).e = s.r.length-s.e := by
  rw [Decoder.room]
  split
  · simp [Decoder.flush]
  · rfl

theorem Decoder.read_left {s : Decoder} (h : 0 < s.r.length-s.e) :
    s.read.r.length-s.read.e < s.r.length-s.e := by
  have hnext := character_lt s.r s.e
  simp only [Decoder.read,foldl_put_r]
  omega

/-- The loop, with a window of `f` units. -/
def decodeLoop (f : ℕ) (s : Decoder) : JsString :=
  if s.e < s.r.length then decodeLoop f (s.room f).read
  else s.flush.i.flatten
termination_by s.r.length-s.e
decreasing_by
  have hleft := s.room_left f
  have hread := (s.room f).read_left (by omega)
  omega

def windowLength (r : Bytes) : ℕ := min (256*256) (r.length+1)

/-- `TextDecoder.decode` on bytes. -/
def decode (r : Bytes) : JsString :=
  decodeLoop (windowLength r) ⟨r,0,List.replicate (windowLength r) 0,0,[]⟩

def plain (r : Bytes) (e : ℕ) : JsString :=
  if e < r.length then (character r e).1++plain r (character r e).2 else []
termination_by r.length-e
decreasing_by
  have hnext := character_lt r e
  omega

theorem plain_eq (r : Bytes) (e : ℕ) : plain r e =
    if e < r.length then (character r e).1++plain r (character r e).2 else [] := by
  conv_lhs => rw [plain]

theorem low_lt (r : Bytes) (e : ℕ) : low r e < 64 := by
  rw [low,show (63 : ℕ) = 2^6-1 from rfl,Bits.and_low]
  exact Nat.mod_lt _ (by decide)

def wideUnits (c : ℕ) : List ℕ :=
  if c > 65535 then [55296+(c-65536)/1024 % 1024,56320+(c-65536) % 1024] else [c]

theorem ite_wide (c e : ℕ) :
    (if c > 65535 then ([55296+(c-65536)/1024 % 1024,56320+(c-65536) % 1024],e) else ([c],e)) =
      (wideUnits c,e) := by
  rw [wideUnits]
  split <;> rfl

theorem surrogates (c : ℕ) : [c >>> 10 &&& 1023 ||| 55296,56320 ||| c &&& 1023] =
    [55296+c/1024 % 1024,56320+c % 1024] := by
  have hmask : (1023 : ℕ) = 2^10-1 := rfl
  rw [hmask,Bits.and_low,Bits.and_low,Nat.or_comm,
    @Bits.or_eq_add 55296 _ 10 (by decide) (Nat.mod_lt _ (by decide)),
    @Bits.or_eq_add 56320 _ 10 (by decide) (Nat.mod_lt _ (by decide)),
    Nat.shiftRight_eq_div_pow]
  rfl

theorem byte_kinds : ∀ a < 256, (a &&& 128 = 0 ↔ a < 128) ∧
    (a &&& 224 = 192 ↔ 192 ≤ a ∧ a < 224) ∧ (a &&& 240 = 224 ↔ 224 ≤ a ∧ a < 240) ∧
    (a &&& 248 = 240 ↔ 240 ≤ a ∧ a < 248) := by
  decide +kernel

theorem character_eq {r : Bytes} {e : ℕ} {b : UInt8} (hb : r[e]? = some b) :
    character r e =
      if b.toNat < 128 then ([b.toNat],e+1)
      else if b.toNat < 192 then ([],e+1)
      else if b.toNat < 224 then ([(b.toNat-192)*64+low r (e+1)],e+2)
      else if b.toNat < 240 then
        ([(b.toNat-224)*4096+low r (e+1)*64+low r (e+2)],e+3)
      else if b.toNat < 248 then
        (wideUnits ((b.toNat-240)*262144+low r (e+1)*4096+low r (e+2)*64+low r (e+3)),e+4)
      else ([],e+1) := by
  have hlt := b.toNat_lt
  obtain ⟨hone,htwo,hthree,hfour⟩ := byte_kinds b.toNat hlt
  have h1 := low_lt r (e+1)
  have h2 := low_lt r (e+2)
  have h3 := low_lt r (e+3)
  have hseven : b.toNat &&& 7 = b.toNat % 8 := Bits.and_low _ 3
  have hthirtyone : b.toNat &&& 31 = b.toNat % 32 := Bits.and_low _ 5
  simp only [character,hb,Option.map_some,Option.getD_some,hone,htwo,hthree,hfour,
    Bits.pack_two _ _ h1,Bits.pack_three _ _ _ h1 h2,Bits.pack_four _ _ _ _ h1 h2 h3,hseven,
    hthirtyone,surrogates,ite_wide]
  rcases Nat.lt_or_ge b.toNat 128 with hb1 | hb1
  · simp [hb1]
  rcases Nat.lt_or_ge b.toNat 192 with hb2 | hb2
  · rw [if_neg (by omega),if_neg (by omega),if_neg (by omega),if_neg (by omega),
      if_neg (by omega),if_pos hb2]
  rcases Nat.lt_or_ge b.toNat 224 with hb3 | hb3
  · rw [if_neg (by omega),if_pos ⟨hb2,hb3⟩,if_neg (by omega),if_neg (by omega),if_pos hb3]
    have hmod : b.toNat % 32 = b.toNat-192 := by omega
    rw [hmod]
  rcases Nat.lt_or_ge b.toNat 240 with hb4 | hb4
  · rw [if_neg (by omega),if_neg (by omega),if_pos ⟨hb3,hb4⟩,if_neg (by omega),
      if_neg (by omega),if_neg (by omega),if_pos hb4]
    have hmod : b.toNat % 32 = b.toNat-224 := by omega
    rw [hmod]
  rcases Nat.lt_or_ge b.toNat 248 with hb5 | hb5
  · rw [if_neg (by omega),if_neg (by omega),if_neg (by omega),if_pos ⟨hb4,hb5⟩,
      if_neg (by omega),if_neg (by omega),if_neg (by omega),if_neg (by omega),if_pos hb5]
    have hmod : b.toNat % 8 = b.toNat-240 := by omega
    rw [hmod]
  · rw [if_neg (by omega),if_neg (by omega),if_neg (by omega),if_neg (by omega),
      if_neg (by omega),if_neg (by omega),if_neg (by omega),if_neg (by omega),if_neg (by omega)]

theorem wideUnits_spec (c : ℕ) : (wideUnits c).length ≤ 2 ∧ ∀ u ∈ wideUnits c, u < 2^16 := by
  rw [wideUnits]
  split
  · refine ⟨by simp,fun u hu => ?_⟩
    simp only [List.mem_cons,List.not_mem_nil,or_false] at hu
    omega
  · refine ⟨by simp,fun u hu => ?_⟩
    rw [List.mem_singleton] at hu
    omega

theorem character_units {r : Bytes} {e : ℕ} (he : e < r.length) :
    (character r e).1.length ≤ 2 ∧ ∀ u ∈ (character r e).1, u < 2^16 := by
  have hb : r[e]? = some r[e] := List.getElem?_eq_getElem he
  have hlt := r[e].toNat_lt
  have h1 := low_lt r (e+1)
  have h2 := low_lt r (e+2)
  have h3 := low_lt r (e+3)
  rw [character_eq hb]
  split_ifs with _ _ _ _ hfour
  · exact ⟨by simp,by simp; omega⟩
  · simp
  · exact ⟨by simp,by simp; omega⟩
  · exact ⟨by simp,by simp; omega⟩
  · exact wideUnits_spec _
  · simp

theorem low_drop (r : Bytes) (k e : ℕ) : low (r.drop k) e = low r (k+e) := by
  rw [low,low,List.getElem?_drop]

theorem character_drop (r : Bytes) (k e : ℕ) :
    (character (r.drop k) e).1 = (character r (k+e)).1 ∧
      k+(character (r.drop k) e).2 = (character r (k+e)).2 := by
  simp only [character,low_drop,List.getElem?_drop,Nat.add_assoc]
  split_ifs <;> exact ⟨rfl,rfl⟩

theorem plain_drop (r : Bytes) (k e : ℕ) : plain (r.drop k) e = plain r (k+e) := by
  induction hm : (r.drop k).length-e using Nat.strongRecOn generalizing e with
  | ind m ih =>
    obtain ⟨hunits,hnext⟩ := character_drop r k e
    have hlt := character_lt (r.drop k) e
    have hlength : (r.drop k).length = r.length-k := List.length_drop
    rw [plain_eq (r.drop k) e,plain_eq r (k+e)]
    by_cases he : e < (r.drop k).length
    · rw [if_pos he,if_pos (by omega),hunits,ih _ (by omega) (character (r.drop k) e).2 rfl,hnext]
    · rw [if_neg he,if_neg (by omega)]

def Decoder.made (s : Decoder) : JsString := s.i.flatten++s.n.take s.o

theorem foldl_put {us : List ℕ} {s : Decoder} (hus : ∀ u ∈ us, u < 2^16)
    (hroom : s.o+us.length ≤ s.n.length) :
    (us.foldl Decoder.put s).n.length = s.n.length ∧
      (us.foldl Decoder.put s).o = s.o+us.length ∧
      (us.foldl Decoder.put s).made = s.made++us := by
  induction us generalizing s with
  | nil => simp
  | cons u us ih =>
    rw [List.length_cons] at hroom
    have hput : (s.put u).made = s.made++[u] := by
      simp only [Decoder.made,Decoder.put]
      rw [Nat.mod_eq_of_lt (hus u (by simp)),List.take_succ_eq_append_getElem
        (by rw [List.length_set]; omega),List.take_set_of_le (le_refl _),List.getElem_set_self,
        List.append_assoc]
    have hlength : (s.put u).n.length = s.n.length := List.length_set
    obtain ⟨hn,ho,hmade⟩ := ih (s := s.put u) (fun v hv => hus v (by simp [hv]))
      (by rw [hlength]; simp only [Decoder.put]; omega)
    refine ⟨hn.trans hlength,?_,?_⟩
    · rw [List.foldl_cons,ho]
      simp only [Decoder.put,List.length_cons]
      omega
    · rw [List.foldl_cons,hmade,hput,List.append_assoc]
      rfl

/-- The window is filled no further than it is long, and holds two units where there is
something to read. -/
structure Fits (f : ℕ) (s : Decoder) : Prop where
  window : s.n.length = f
  filled : s.o ≤ f
  two : s.e < s.r.length → 2 ≤ f

theorem flush_made (s : Decoder) : s.flush.made = s.made := by
  simp [Decoder.made,Decoder.flush]

theorem room_spec {f : ℕ} {s : Decoder} (h : Fits f s) (he : s.e < s.r.length) :
    (s.room f).n.length = f ∧ (s.room f).o+2 ≤ f ∧ (s.room f).made = s.made ∧
      (s.room f).e < (s.room f).r.length ∧
      plain (s.room f).r (s.room f).e = plain s.r s.e := by
  have htwo := h.two he
  rw [Decoder.room]
  split
  · refine ⟨h.window,htwo,flush_made s,?_,plain_drop s.r s.e 0⟩
    simp only [Decoder.flush,List.length_drop]
    omega
  · exact ⟨h.window,by omega,rfl,he,rfl⟩

theorem read_spec {f : ℕ} {s : Decoder} (h : Fits f s) (he : s.e < s.r.length) :
    Fits f (s.room f).read ∧
      (s.room f).read.made++plain (s.room f).read.r (s.room f).read.e =
        s.made++plain s.r s.e := by
  obtain ⟨hwindow,hroom,hmade,hlt,hplain⟩ := room_spec h he
  obtain ⟨hlength,hunits⟩ := character_units hlt
  obtain ⟨hn,ho,hput⟩ := foldl_put hunits (by rw [hwindow]; omega)
  refine ⟨⟨hn.trans hwindow,?_,fun _ => h.two he⟩,?_⟩
  · simp only [Decoder.read,ho]
    omega
  · have hread : (s.room f).read.made = s.made++(character (s.room f).r (s.room f).e).1 := by
      rw [← hmade]
      exact hput
    have hr : (s.room f).read.r = (s.room f).r := foldl_put_r _ _
    have hnext : (s.room f).read.e = (character (s.room f).r (s.room f).e).2 := rfl
    rw [hread,hr,hnext,List.append_assoc,← hplain]
    rw [plain_eq _ (s.room f).e,if_pos hlt]

theorem decodeLoop_eq {f : ℕ} {s : Decoder} (h : Fits f s) :
    decodeLoop f s = s.made++plain s.r s.e := by
  induction hm : s.r.length-s.e using Nat.strongRecOn generalizing s with
  | ind m ih =>
    rw [decodeLoop]
    split
    · next he =>
      obtain ⟨hfits,heq⟩ := read_spec h he
      have hleft := s.room_left f
      have hread := (s.room f).read_left (by omega)
      rw [ih _ (by omega) hfits rfl,heq]
    · next he =>
      rw [plain_eq,if_neg he,List.append_nil]
      simp [Decoder.made,Decoder.flush]

theorem decode_eq_plain (r : Bytes) : decode r = plain r 0 := by
  have hfits : Fits (windowLength r) ⟨r,0,List.replicate (windowLength r) 0,0,[]⟩ := by
    refine ⟨List.length_replicate,Nat.zero_le _,fun he => ?_⟩
    simp only at he
    rw [windowLength]
    omega
  rw [decode,decodeLoop_eq hfits]
  simp [Decoder.made]

theorem low_of_mid {r : Bytes} {e : ℕ} {c : UInt8} (hc : r[e]? = some c) (h : 0x80 ≤ c.toNat)
    (h' : c.toNat ≤ 0xBF) : low r e = c.toNat-0x80 := by
  rw [low,hc,Option.map_some,Option.getD_some,show (63 : ℕ) = 2^6-1 from rfl,Bits.and_low]
  omega

theorem plain_char {bs : Bytes} {us : List ℕ} {n : ℕ} (hbs : 0 < bs.length)
    (h : character bs 0 = (us,n)) : plain bs 0 = us++plain (bs.drop n) 0 := by
  rw [plain_eq,if_pos hbs,h,plain_drop,Nat.add_zero]

theorem wideUnits_eq {c : ℕ} (hc : c < 0x110000) : wideUnits c = Utf8.units c := by
  rw [wideUnits,Utf8.units]
  split
  · rw [if_neg (by omega),Nat.mod_eq_of_lt (by omega)]
  · rw [if_pos (by omega)]

section

variable {low high acc : ℕ} {bs : Bytes} {us : List ℕ}

theorem inside_more {left : ℕ}
    (h : Utf8.decodeFrom (.inside (left+1) low high acc) bs = some us) :
    ∃ c cs, bs = c::cs ∧ low ≤ c.toNat ∧ c.toNat ≤ high ∧
      Utf8.decodeFrom (.inside left 0x80 0xBF (64*acc+(c.toNat-0x80))) cs = some us := by
  cases bs with
  | nil => cases h
  | cons c cs =>
    rw [Utf8.decodeFrom_cons] at h
    by_cases hc : low ≤ c.toNat ∧ c.toNat ≤ high
    · rw [JsText.step_inside hc.1 hc.2] at h
      exact ⟨c,cs,rfl,hc.1,hc.2,by simpa using h⟩
    · simp [Utf8.step,if_neg hc] at h

theorem inside_last (h : Utf8.decodeFrom (.inside 0 low high acc) bs = some us) :
    ∃ c cs vs, bs = c::cs ∧ low ≤ c.toNat ∧ c.toNat ≤ high ∧
      Utf8.decodeFrom .start cs = some vs ∧ us = Utf8.units (64*acc+(c.toNat-0x80))++vs := by
  cases bs with
  | nil => cases h
  | cons c cs =>
    rw [Utf8.decodeFrom_cons] at h
    by_cases hc : low ≤ c.toNat ∧ c.toNat ≤ high
    · simp only [Utf8.step,if_pos hc,Option.bind_some,Option.map_eq_some_iff] at h
      obtain ⟨vs,hvs,rfl⟩ := h
      exact ⟨c,cs,vs,rfl,hc.1,hc.2,hvs,rfl⟩
    · simp [Utf8.step,if_neg hc] at h

end

theorem plain_of_decode {bs : Bytes} {us : List ℕ} (h : Utf8.decode bs = some us) :
    plain bs 0 = us := by
  rw [Utf8.decode] at h
  induction hm : bs.length using Nat.strongRecOn generalizing bs us with
  | ind m ih =>
    cases bs with
    | nil =>
      cases h
      rw [plain_eq]
      rfl
    | cons b bs =>
      have hb := b.toNat_lt
      rw [List.length_cons] at hm
      have hfirst : (b::bs)[0]? = some b := rfl
      rw [Utf8.decodeFrom_cons] at h
      rcases Nat.lt_or_ge b.toNat 0x80 with hone | hone
      · rw [Utf8.step_start_ascii hone] at h
        simp only [Option.bind_some,Option.map_eq_some_iff] at h
        obtain ⟨vs,hvs,rfl⟩ := h
        rw [plain_char (by simp) ((character_eq hfirst).trans (if_pos hone))]
        exact congrArg (b.toNat::·) (ih bs.length (by omega) hvs rfl)
      rcases Nat.lt_or_ge b.toNat 0xC2 with htwo | htwo
      · simp [Utf8.step,Nat.not_lt.mpr hone,htwo] at h
      rcases Nat.lt_or_ge b.toNat 0xE0 with hthree | hthree
      · rw [JsText.step_two htwo hthree] at h
        simp only [Option.bind_some,List.nil_append,Option.map_id'] at h
        obtain ⟨c,cs,vs,rfl,hc,hc',hvs,hus⟩ := inside_last h
        have hchar := character_eq hfirst
        rw [if_neg (by omega),if_neg (by omega),if_pos (by omega),
          low_of_mid (c := c) rfl hc hc'] at hchar
        have hvalue : (b.toNat-192)*64+(c.toNat-0x80) =
            64*(b.toNat-0xC0)+(c.toNat-0x80) := by omega
        rw [hvalue] at hchar
        rw [plain_char (by simp) hchar,hus,Utf8.units,if_pos (by omega)]
        rw [List.length_cons] at hm
        exact congrArg _ (ih cs.length (by omega) hvs rfl)
      rcases Nat.lt_or_ge b.toNat 0xF0 with hfour | hfour
      · rw [JsText.step_three hthree hfour] at h
        simp only [Option.bind_some,List.nil_append,Option.map_id'] at h
        obtain ⟨c,cs,rfl,hc,hc',h⟩ := inside_more h
        obtain ⟨d,ds,vs,rfl,hd,hd',hvs,hus⟩ := inside_last h
        have hmid : 0x80 ≤ c.toNat := by split at hc <;> omega
        have hchar := character_eq hfirst
        rw [if_neg (by omega),if_neg (by omega),if_neg (by omega),if_pos (by omega),
          low_of_mid (c := c) rfl hmid hc',low_of_mid (c := d) rfl hd hd'] at hchar
        have hvalue : (b.toNat-224)*4096+(c.toNat-0x80)*64+(d.toNat-0x80) =
            64*(64*(b.toNat-0xE0)+(c.toNat-0x80))+(d.toNat-0x80) := by omega
        rw [hvalue] at hchar
        rw [plain_char (by simp) hchar,hus,Utf8.units,if_pos (by omega)]
        rw [List.length_cons,List.length_cons] at hm
        exact congrArg _ (ih ds.length (by omega) hvs rfl)
      rcases Nat.lt_or_ge b.toNat 0xF5 with hfive | hfive
      · rw [JsText.step_four hfour hfive] at h
        simp only [Option.bind_some,List.nil_append,Option.map_id'] at h
        obtain ⟨c,cs,rfl,hc,hc',h⟩ := inside_more h
        obtain ⟨d,ds,rfl,hd,hd',h⟩ := inside_more h
        obtain ⟨g,gs,vs,rfl,hg,hg',hvs,hus⟩ := inside_last h
        have hmid : 0x80 ≤ c.toNat := by split at hc <;> omega
        have hmid' : c.toNat ≤ 0xBF := by split at hc' <;> omega
        have hchar := character_eq hfirst
        rw [if_neg (by omega),if_neg (by omega),if_neg (by omega),if_neg (by omega),
          if_pos (by omega),low_of_mid (c := c) rfl hmid hmid',low_of_mid (c := d) rfl hd hd',
          low_of_mid (c := g) rfl hg hg'] at hchar
        have hvalue : (b.toNat-240)*262144+(c.toNat-0x80)*4096+(d.toNat-0x80)*64+(g.toNat-0x80) =
            64*(64*(64*(b.toNat-0xF0)+(c.toNat-0x80))+(d.toNat-0x80))+(g.toNat-0x80) := by omega
        have hbound : 64*(64*(64*(b.toNat-0xF0)+(c.toNat-0x80))+(d.toNat-0x80))+(g.toNat-0x80) <
            0x110000 := by split at hc' <;> omega
        rw [hvalue,wideUnits_eq hbound] at hchar
        rw [plain_char (by simp) hchar,hus]
        rw [List.length_cons,List.length_cons,List.length_cons] at hm
        exact congrArg _ (ih gs.length (by omega) hvs rfl)
      · have hnone : Utf8.step .start b.toNat = none := by
          simp only [Utf8.step]
          rw [if_neg (by omega),if_neg (by omega),if_neg (by omega),if_neg (by omega),
            if_neg (by omega)]
        rw [hnone] at h
        cases h

inductive Thrown
  | error (message : JsString)
  | rangeError (message : JsString)
  deriving DecidableEq

def js (s : String) : JsString := units s.toList

def checkOption (set : Bool) (method option : String) : Except Thrown Unit :=
  if set then .error (.error (js "Failed to "++js method++js ": the '"++js option++
    js "' option is unsupported."))
  else .ok ()

def toLower (s : JsString) : JsString := s.map fun u => if 65 ≤ u ∧ u ≤ 90 then u+32 else u

def labels : List JsString := [js "utf-8",js "utf8",js "unicode-1-1-utf-8"]

/-- `new TextDecoder(label,options)` and its `encoding`. -/
def construct (label : Option JsString) (fatal : Bool) : Except Thrown JsString := do
  checkOption fatal "construct 'TextDecoder'" "fatal"
  let encoding := match label with
    | none => js "utf-8"
    | some [] => js "utf-8"
    | some l => l
  if toLower encoding ∈ labels then .ok encoding
  else .error (.rangeError
    (js "Failed to  construct 'TextDecoder': the  encoding label provided ('"++encoding++
      js "') is invalid."))

/-- What is decoded: a view that is no `Uint8Array` stands for its whole buffer. -/
inductive Source
  | uint8Array (v : View)
  | view (v : View)
  | arrayBuffer (b : Bytes)

def Source.bytes : Source → Bytes
  | .uint8Array v => v.bytes
  | .view v => v.buffer
  | .arrayBuffer b => b

/-- `new TextDecoder(label,{fatal}).decode(source,{stream})`. -/
def decodeWith (label : Option JsString) (fatal stream : Bool) (source : Source) :
    Except Thrown JsString := do
  let _ ← construct label fatal
  checkOption stream "decode" "stream"
  return decode source.bytes

def Accepted (label : Option JsString) : Prop :=
  ∀ l, label = some l → l = [] ∨ toLower l ∈ labels

theorem construct_isOk (label : Option JsString) (fatal : Bool) :
    (∃ l, construct label fatal = .ok l) ↔ fatal = false ∧ Accepted label := by
  have hname : toLower (js "utf-8") ∈ labels := by decide
  cases fatal with
  | true => simp [construct,checkOption,bind,Except.bind]
  | false =>
    rcases label with _ | _ | ⟨u,us⟩
    · simp [construct,checkOption,bind,Except.bind,hname,Accepted]
    · simp [construct,checkOption,bind,Except.bind,hname,Accepted]
    · by_cases h : toLower (u::us) ∈ labels <;>
        simp [construct,checkOption,bind,Except.bind,h,Accepted]

/-- A decoder for one of the labels, without the options, reads every byte string as one pass
over its characters does, and well-formed bytes as the text they stand for. -/
theorem decodeWith_spec (label : Option JsString) (fatal stream : Bool) (source : Source) :
    (∀ s, decodeWith label fatal stream source = .ok s ↔
      fatal = false ∧ Accepted label ∧ stream = false ∧ s = plain source.bytes 0) ∧
    ∀ us, Utf8.decode source.bytes = some us → plain source.bytes 0 = us := by
  refine ⟨fun s => ?_,fun us h => plain_of_decode h⟩
  have hok := construct_isOk label fatal
  rw [decodeWith]
  cases hc : construct label fatal with
  | error f =>
    rw [hc] at hok
    have hnot : ¬(fatal = false ∧ Accepted label) := fun h => by simpa using hok.mpr h
    refine iff_of_false (by simp [bind,Except.bind]) fun h => hnot ⟨h.1,h.2.1⟩
  | ok l =>
    obtain ⟨hf,hl⟩ := hok.mp ⟨l,hc⟩
    cases stream with
    | true => simp [checkOption,bind,Except.bind]
    | false =>
      simp only [checkOption,bind,Except.bind,pure,Except.pure,decode_eq_plain,hf,hl,true_and,
        Bool.false_eq_true,if_false,Except.ok.injEq]
      exact eq_comm

theorem decodeWith_spec_sample :
    decodeWith (some (js "UTF8")) false false (.arrayBuffer [0xC3,0xA9]) = .ok [0xE9] := by
  obtain ⟨hok,hwell⟩ := decodeWith_spec (some (js "UTF8")) false false (.arrayBuffer [0xC3,0xA9])
  refine (hok [0xE9]).mpr ⟨rfl,?_,rfl,(hwell [0xE9] (by decide)).symm⟩
  intro l hl
  cases hl
  exact .inr (by decide)

end TextDecoder
end AsioQuickjs
