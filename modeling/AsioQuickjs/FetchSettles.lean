import AsioQuickjs.FetchJs

/-! When the promise of `fetch` settles. A raw result that the `Response` constructor
refuses is lost in the callback, and leaves the promise to a later abort or to nobody. -/
namespace AsioQuickjs
namespace Fetch

open NativeFetch (FetchResult movedFromResult)

theorem pairsToHeaders_valid (pairs : List (JsString × JsString)) :
    ∀ p ∈ (pairsToHeaders pairs).list, Headers.Valid p := by
  refine List.foldlRecOn pairs _ (motive := fun h : Headers => ∀ p ∈ h.list, Headers.Valid p)
    (by simp) fun h hs q _ => ?_
  cases happend : h.append q.1 q.2 with
  | ok t => exact Headers.append_valid hs happend
  | error e => exact hs

/-- What the constructor asks of a response with a body. -/
def Accepts (raw : RawResult) : Prop :=
  200 ≤ raw.status ∧ raw.status ≤ 599 ∧ Response.isNullBodyStatus raw.status = false ∧
    ∀ c ∈ raw.statusText, c ≤ 0xff ∧ c ≠ 0x0a ∧ c ≠ 0x0d

theorem responseFromRaw_cases (raw : RawResult) :
    (Accepts raw ∧ ∃ res, responseFromRaw raw = .ok res ∧ res.status = raw.status ∧
      res.body = some raw.body) ∨
    (¬ Accepts raw ∧ ∃ e, responseFromRaw raw = .error e) := by
  obtain ⟨headers,hheaders⟩ := Headers.ofHeaders_of_valid (pairsToHeaders_valid raw.headers)
  have htext : (raw.statusText.any fun c => 0xff < c || c = 0x0a || c = 0x0d) = true ↔
      ¬ ∀ c ∈ raw.statusText, c ≤ 0xff ∧ c ≠ 0x0a ∧ c ≠ 0x0d := by
    simp only [List.any_eq_true,Bool.or_eq_true,decide_eq_true_eq]
    push Not
    refine exists_congr fun c => and_congr_right fun _ => ?_
    omega
  simp only [responseFromRaw,Response.new,hheaders,Except.bind]
  by_cases hstatus : raw.status < 200 ∨ 599 < raw.status
  · refine .inr ⟨fun h => ?_,_,by rw [if_pos hstatus]; rfl⟩
    have := h.1
    have := h.2.1
    omega
  · rw [if_neg hstatus]
    by_cases hany : (raw.statusText.any fun c => 0xff < c || c = 0x0a || c = 0x0d) = true
    · exact .inr ⟨fun h => htext.mp hany h.2.2.2,_,by rw [if_pos hany]; rfl⟩
    · rw [if_neg hany]
      by_cases hnull : Response.isNullBodyStatus raw.status = true
      · refine .inr ⟨fun h => ?_,_,by rw [if_pos ⟨by simp,hnull⟩]; rfl⟩
        exact absurd h.2.2.1 (by simp [hnull])
      · refine .inl ⟨⟨by omega,by omega,by simpa using hnull,?_⟩,?_⟩
        · exact not_not.mp (fun h => hany (htext.mpr h))
        · rw [if_neg (fun h => hnull h.2)]
          exact ⟨_,rfl,rfl,rfl⟩

theorem step_settled {s : State} (hs : s.settled = true) (e : Event) :
    (step s e).settled = true ∧ (step s e).settlements = s.settlements := by
  cases e with
  | abort =>
    simp only [step,State.abort]
    split
    · exact ⟨hs,rfl⟩
    · split <;> simp [State.abortCb,State.settle,hs]
  | native raw =>
    simp only [step,State.onNative]
    split
    · simp [State.settle,hs]
    · split
      · simp [State.settle,hs]
      · split
        · simp [State.settle,hs]
        · exact ⟨hs,rfl⟩
  | nativeError e => simp [step,State.onNativeError,State.settle,hs]

theorem run_settled {s : State} (hs : s.settled = true) (es : List Event) :
    (run s es).settlements = s.settlements := by
  induction es generalizing s with
  | nil => rfl
  | cons e es ih =>
    obtain ⟨hsettled,hsame⟩ := step_settled hs e
    exact (ih hsettled).trans hsame

theorem run_aborted (newString : Bytes → JsString) (r : FetchResult) {before : ℕ}
    (hbefore : 0 < before) (after : ℕ) :
    (run {} (schedule newString r before after)).settlements = [.rejected .signalReason] := by
  obtain ⟨n,rfl⟩ := Nat.exists_eq_succ_of_ne_zero (Nat.ne_of_gt hbefore)
  exact run_settled (s := step {} .abort) rfl _

theorem run_native (raw : RawResult) (x : Settlement)
    (h : State.onNative {} raw = State.settle {} x) (n : ℕ) :
    (run {} (.native raw::List.replicate n .abort)).settlements = [x] := by
  have hrun := run_settled (s := State.settle {} x) rfl (List.replicate n .abort)
  exact (congrArg (fun s => (run s (List.replicate n .abort)).settlements) h).trans hrun

theorem onNative_response {raw : RawResult} {res : Response} (haborted : raw.aborted = false)
    (herror : raw.error = none) (hres : responseFromRaw raw = .ok res) :
    State.onNative {} raw = State.settle {} (.resolved res) := by
  simp [State.onNative,haborted,herror,hres]

theorem onNative_lost {raw : RawResult} {e : JsError} (haborted : raw.aborted = false)
    (herror : raw.error = none) (hres : responseFromRaw raw = .error e) :
    State.onNative {} raw = {} := by
  simp [State.onNative,haborted,herror,hres]

theorem int32OfLong_status {z : ℤ} (h : z = 0 ∨ 100 ≤ z ∧ z ≤ 999) : int32OfLong z = z := by
  have hmod : z % 2^32 = z := by omega
  rw [int32OfLong,hmod,if_pos (by omega)]

/-- `fetch` settles once and as it should, whatever aborts follow, exactly where the
fetch was aborted before or the native result is a failure with an error text or a
response that the constructor takes. -/
theorem fetch_settles_iff (newString : Bytes → JsString)
    (hstring : ∀ b, newString b = [] ↔ b = []) (r : FetchResult)
    (hstatus : r.status = 0 ∨ 100 ≤ r.status ∧ r.status ≤ 999) (before : ℕ) :
    (∀ after, (run {} (schedule newString r before after)).settlements.map Settlement.answer =
      [expected r before]) ↔ Settles newString r before := by
  by_cases hbefore : 0 < before
  · have hne : before ≠ 0 := Nat.ne_of_gt hbefore
    refine iff_of_true (fun after => ?_) (.inl hbefore)
    rw [run_aborted newString r hbefore]
    simp [expected,hne,Settlement.answer]
  · obtain rfl : before = 0 := by omega
    have hsched (after : ℕ) : schedule newString r 0 after =
        .native (makeRawResult newString r)::List.replicate after .abort := by simp [schedule]
    simp only [hsched]
    by_cases haborted : r.aborted = true
    · refine iff_of_true (fun after => ?_) (.inr (.inl haborted))
      have hnative : State.onNative {} (makeRawResult newString r) =
          State.settle {} (.rejected .abortError) := by
        simp [State.onNative,makeRawResult,haborted]
      rw [run_native _ _ hnative]
      simp [expected,haborted,Settlement.answer]
    · by_cases herror : r.error = []
      · have hnone : (makeRawResult newString r).error = none := by simp [makeRawResult,herror]
        have hkept : (makeRawResult newString r).aborted = false := by
          simp [makeRawResult,haborted]
        have hraw : (makeRawResult newString r).status = r.status := int32OfLong_status hstatus
        have haccepts : Accepts (makeRawResult newString r) ↔
            200 ≤ r.status ∧ r.status ≤ 599 ∧ Response.isNullBodyStatus r.status = false ∧
              ∀ c ∈ newString r.statusText, c ≤ 0xff ∧ c ≠ 0x0a ∧ c ≠ 0x0d := by
          rw [Accepts,hraw]
          rfl
        obtain ⟨hacc,res,hres,hst,hbody⟩ | ⟨hacc,e,hres⟩ :=
          responseFromRaw_cases (makeRawResult newString r)
        · have hnative := onNative_response hkept hnone hres
          have hanswer (after : ℕ) := run_native _ _ hnative after
          have hbody' : res.body = some r.body := hbody
          simp only [hanswer,List.map_cons,List.map_nil,Settlement.answer,hst,hbody',hraw]
          simp only [Settles,haborted,herror,← haccepts,hacc]
          cases hok : r.ok <;> simp [expected,hok,haborted]
        · have hnative := onNative_lost hkept hnone hres
          refine iff_of_false (fun h => ?_) ?_
          · -- no event but the native result, and it is lost
            have hnone := h 0
            have hstep : step {} (.native (makeRawResult newString r)) = {} := hnative
            simp [run,hstep] at hnone
          · simp only [Settles,haborted,herror,← haccepts,hacc]
            simp
      · obtain ⟨c,cs,htext⟩ := List.exists_cons_of_ne_nil (mt (hstring r.error).mp herror)
        have hnative : State.onNative {} (makeRawResult newString r) =
            State.settle {} (.rejected (.error (.typeError (c::cs)))) := by
          simp [State.onNative,makeRawResult,haborted,herror,htext]
        simp only [run_native _ _ hnative,List.map_cons,List.map_nil,Settlement.answer]
        cases hok : r.ok <;> simp [expected,Settles,hok,haborted,herror]

def asciiString (s : Bytes) : JsString := s.map (·.toNat)

theorem fetch_settles_iff_sample :
    (∀ b, asciiString b = [] ↔ b = []) ∧
    ((∀ after, (run {} (schedule asciiString { ok := true, status := 404 } 0 after)).settlements.map
        Settlement.answer = [expected { ok := true, status := 404 } 0]) ↔
      Settles asciiString { ok := true, status := 404 } 0) :=
  have hstring (b : Bytes) : asciiString b = [] ↔ b = [] := by simp [asciiString]
  ⟨hstring,fetch_settles_iff asciiString hstring { ok := true, status := 404 } (by decide) 0⟩

/-- A `204` and a transfer that could not be added leave the promise pending. -/
theorem fetch_stays_pending :
    (run {} (schedule asciiString { ok := true, status := 204 } 0 0)).settlements = [] ∧
    expected { ok := true, status := 204 } 0 = .response 204 (some []) ∧
    (run {} (schedule asciiString movedFromResult 0 0)).settlements = [] ∧
    expected movedFromResult 0 = .rejected := by
  decide +kernel

end Fetch
end AsioQuickjs
