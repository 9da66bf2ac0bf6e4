import AsioQuickjs.HttpHost

/-! Which session gets the reply of which handler. The connection id is read from the
script's global object when a promise settles, so the reply goes to the request that
was attached last, if that one still waits. -/
namespace AsioQuickjs
namespace HttpHost

open Trace

variable {S : Type}

section frames

variable (h : Host S)

@[simp] theorem sendJsResponse_nextConnId (id : ℕ) (d : Data) :
    (h.sendJsResponse id d).nextConnId = h.nextConnId := by
  rw [Host.sendJsResponse]
  split <;> rfl

@[simp] theorem sendJsResponse_httpConnIdTmp (id : ℕ) (d : Data) :
    (h.sendJsResponse id d).httpConnIdTmp = h.httpConnIdTmp := by
  rw [Host.sendJsResponse]
  split <;> rfl

@[simp] theorem sendHttpResponseNative_nextConnId (d : Data) (id : ℤ) :
    (h.sendHttpResponseNative d id).nextConnId = h.nextConnId := by
  rw [Host.sendHttpResponseNative]
  split <;> rfl

@[simp] theorem sendHttpResponseNative_httpConnIdTmp (d : Data) (id : ℤ) :
    (h.sendHttpResponseNative d id).httpConnIdTmp = h.httpConnIdTmp := by
  rw [Host.sendHttpResponseNative]
  split <;> rfl

@[simp] theorem onRequest_nextConnId (session : S) (o : Outcome) :
    (h.onRequest session o).nextConnId = h.nextConnId+1 := by
  cases o <;> simp [Host.onRequest,Host.sendResponse]

theorem onRequest_httpConnIdTmp (session : S) (o : Outcome) :
    (h.onRequest session o).httpConnIdTmp =
      if o = .promise ∨ o = .attachThrows then some (int32OfUInt64 h.nextConnId)
      else h.httpConnIdTmp := by
  cases o <;> simp [Host.onRequest,Host.sendResponse]

@[simp] theorem onSettled_nextConnId (r : Settlement) :
    (h.onSettled r).nextConnId = h.nextConnId := by
  rw [Host.onSettled]
  cases r.data <;> simp

@[simp] theorem onSettled_httpConnIdTmp (r : Settlement) :
    (h.onSettled r).httpConnIdTmp = h.httpConnIdTmp := by
  rw [Host.onSettled]
  cases r.data <;> simp

@[simp] theorem nativeStream_nextConnId (ct : Option Bytes) :
    (h.nativeStream ct).nextConnId = h.nextConnId := by
  rw [Host.nativeStream]
  split <;> rfl

@[simp] theorem nativeStream_httpConnIdTmp (ct : Option Bytes) :
    (h.nativeStream ct).httpConnIdTmp = h.httpConnIdTmp := by
  rw [Host.nativeStream]
  split <;> rfl

end frames

theorem onRequest_sent (h : Host S) (session : S) (o : Outcome) :
    (h.onRequest session o).sent = h.sent++due session o.reply := by
  cases o <;> simp [Host.onRequest,Host.sendResponse,Host.sendJsResponse,due,Outcome.reply]

/-- The global object names the request attached last, which is one that arrived. -/
structure Inv (s : Sys S) : Prop where
  tmp : s.httpConnIdTmp = s.attached.map int32OfUInt64
  arrived : ∀ id ∈ s.attached, id < s.nextConnId
  running : s.attached = none → s.handlers = ∅

theorem Inv.step {s t : Sys S} {a : Action S} (hs : Inv s) (h : step s a = some t) : Inv t := by
  cases a with
  | request session o =>
    obtain rfl := Option.some.inj h
    refine ⟨?_,?_,?_⟩
    · simp only [onRequest_httpConnIdTmp,hs.tmp]
      split <;> rfl
    · intro id hid
      simp only [onRequest_nextConnId]
      simp only at hid
      split at hid
      · obtain rfl : s.nextConnId = id := by simpa using hid
        omega
      · have := hs.arrived id hid
        omega
    · intro hnone
      simp only at hnone ⊢
      split at hnone
      · cases hnone
      · next ho => rw [if_neg (fun hp => ho (.inl hp)),hs.running hnone]
  | stream id ct =>
    obtain ⟨session,-,rfl⟩ := Option.map_eq_some_iff.mp h
    exact ⟨by simpa using hs.tmp,by simpa using hs.arrived,hs.running⟩
  | settle id r =>
    obtain ⟨session,-,rfl⟩ := Option.map_eq_some_iff.mp h
    refine ⟨by simpa using hs.tmp,by simpa using hs.arrived,fun hnone => ?_⟩
    rw [hs.running hnone]
    rfl

theorem nextConnId_le_of_step {s t : Sys S} {a : Action S} (h : step s a = some t) :
    s.nextConnId ≤ t.nextConnId := by
  cases a with
  | request session o =>
    obtain rfl := Option.some.inj h
    simp
  | stream id ct =>
    obtain ⟨session,-,rfl⟩ := Option.map_eq_some_iff.mp h
    simp
  | settle id r =>
    obtain ⟨session,-,rfl⟩ := Option.map_eq_some_iff.mp h
    simp

theorem sendHttpResponseNative_sent (h : Host S) (d : Data) {z : ℤ} {id : ℕ}
    (hz : uint64OfInt32 z = id) :
    (h.sendHttpResponseNative d z).sent =
      h.sent++(h.httpConnections.lookup id).toList.flatMap (due · (some d.response)) := by
  subst hz
  rw [Host.sendHttpResponseNative]
  cases h.httpConnections.lookup (uint64OfInt32 z) <;> simp [Host.sendResponse,due]

theorem onSettled_sent {s : Sys S} (hs : Inv s) (hid : s.nextConnId ≤ 2^31)
    (hrun : s.handlers ≠ ∅) (r : Settlement) :
    (s.toHost.onSettled r).sent = s.sent++r.data.toList.flatMap fun d =>
      (s.attached.bind (s.httpConnections.lookup ·)).toList.flatMap (due · (some d.response)) := by
  cases hatt : s.attached with
  | none => exact absurd (hs.running hatt) hrun
  | some id =>
    have hlt := hs.arrived id hatt
    have hround : uint64OfInt32 (int32OfUInt64 id) = id :=
      uint64OfInt32_int32OfUInt64 (by omega)
    have htmp : uint64OfInt32 (s.httpConnIdTmp.getD 0) = id := by
      rw [hs.tmp,hatt]
      exact hround
    rw [Host.onSettled]
    cases r.data with
    | none => simp
    | some data => simpa using sendHttpResponseNative_sent s.toHost data htmp

theorem nativeStream_sent (h : Host S) (ct : Option Bytes) :
    (h.nativeStream ct).sent = h.sent++h.httpSessionPtr.toList.map
      (·,.chunked 200 (ct.getD (ascii "text/plain"))) := by
  rw [Host.nativeStream]
  cases h.httpSessionPtr <;> simp

/-- The ways a handler settles: without anything due, without a text, or with a response. -/
theorem settlement_cases (s : Sys S) (id : ℕ) (r : Settlement) :
    r = .streamHandled ∨ r = .rejected none ∨
    ∃ d : Data, r.data = some d ∧ r.reply = some d.response ∧
      (Undisturbed s (.settle id r) ↔ Awaits s (s.handlers.lookup id)) := by
  cases r with
  | streamHandled => exact .inl rfl
  | fulfilled data => exact .inr (.inr ⟨data,rfl,rfl,Iff.rfl⟩)
  | rejected msg =>
    cases msg with
    | none => exact .inr (.inl rfl)
    | some msg => exact .inr (.inr ⟨.ofError msg,rfl,rfl,Iff.rfl⟩)

/-- Each step adds to the replies sent at most what it adds to the replies due, and
exactly that where it is undisturbed. -/
theorem step_logs {s t : Sys S} {a : Action S} (hs : Inv s) (hid : s.nextConnId ≤ 2^31)
    (h : step s a = some t) :
    ∃ ps qs, t.sent = s.sent++ps ∧ t.expected = s.expected++qs ∧ ps.length ≤ qs.length ∧
      (ps = qs ↔ Undisturbed s a) := by
  cases a with
  | request session o =>
    obtain rfl := Option.some.inj h
    exact ⟨_,_,onRequest_sent s.toHost session o,rfl,le_rfl,iff_of_true rfl trivial⟩
  | stream id ct =>
    obtain ⟨session,hl,rfl⟩ := Option.map_eq_some_iff.mp h
    refine ⟨_,_,nativeStream_sent s.toHost ct,rfl,?_,?_⟩
    · cases s.httpSessionPtr <;> simp
    · rw [Undisturbed,hl]
      cases s.httpSessionPtr <;> simp
  | settle id r =>
    obtain ⟨session,hl,rfl⟩ := Option.map_eq_some_iff.mp h
    have hrun : s.handlers ≠ ∅ := by
      intro hempty
      rw [hempty] at hl
      cases hl
    refine ⟨_,_,onSettled_sent hs hid hrun r,rfl,?_,?_⟩
    · obtain rfl | rfl | ⟨d,hdata,hreply,-⟩ := settlement_cases s id r
      · simp [Settlement.data]
      · simp [Settlement.data]
      · rw [hdata,hreply]
        cases s.attached.bind (s.httpConnections.lookup ·) <;> simp [due]
    · obtain rfl | rfl | ⟨d,hdata,hreply,hU⟩ := settlement_cases s id r
      · simp [Undisturbed,due,Settlement.data,Settlement.reply]
      · simp [Undisturbed,due,Settlement.data,Settlement.reply]
      · rw [hU,Awaits,hl,hdata,hreply]
        cases s.attached.bind (s.httpConnections.lookup ·) <;> simp [due]

/-- All connection ids given out so far are positive `int32_t` values. -/
def IdsFit (s : Sys S) : Prop := s.nextConnId ≤ 2^31

theorem IdsFit.of_step {s t : Sys S} {a : Action S} (h : step s a = some t) (ht : IdsFit t) :
    IdsFit s :=
  Nat.le_trans (nextConnId_le_of_step h) ht

/-- Every reply reaches the session it is due to, and only that one, exactly in the
runs whose every step is undisturbed. -/
theorem replies_routed_iff {as : List (Action S)} {t : Sys S}
    (h : run step {} as = some t) (hid : IdsFit t) :
    t.sent = t.expected ↔ Meets step Undisturbed {} as := by
  have hinit : Inv ({} : Sys S) := ⟨rfl,by simp,fun _ => rfl⟩
  exact logs_agree_iff_meets (fun s a t hstep => IdsFit.of_step hstep)
    (fun s a t hs _ hstep => hs.step hstep)
    (fun s a t hs ht hstep => step_logs hs (IdsFit.of_step hstep ht) hstep) hinit rfl h hid

/-- Two requests on two connections; the first handler is the first to settle. -/
def twoInFlight : List (Action ℕ) :=
  [.request 1 .promise,.request 2 .promise,.settle 1 (.fulfilled { body := some (ascii "one") }),
    .settle 2 (.fulfilled { body := some (ascii "two") })]

theorem replies_routed_iff_sample :
    ∃ t : Sys ℕ, run step {} twoInFlight = some t ∧ IdsFit t ∧
      (t.sent = t.expected ↔ Meets step Undisturbed {} twoInFlight) :=
  have hid : IdsFit ((run step {} twoInFlight).getD {}) :=
    (by decide : ((run step {} twoInFlight).getD {}).nextConnId ≤ 2^31)
  ⟨_,rfl,hid,replies_routed_iff rfl hid⟩

/-- The first response goes out on the second connection, the second response nowhere. -/
theorem responses_cross :
    ∃ t : Sys ℕ, run step {} twoInFlight = some t ∧ IdsFit t ∧
      t.sent = [(2,.response { body := ascii "one" })] ∧
      t.expected = [(1,.response { body := ascii "one" }),(2,.response { body := ascii "two" })] ∧
      t.sent ≠ t.expected := by
  refine ⟨_,rfl,?_,rfl,rfl,fun h => ?_⟩
  · exact (by decide : ((run step {} twoInFlight).getD {}).nextConnId ≤ 2^31)
  · exact absurd (congrArg List.length h) (by decide)

end HttpHost
end AsioQuickjs
