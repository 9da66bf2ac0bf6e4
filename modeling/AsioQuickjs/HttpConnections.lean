import AsioQuickjs.HttpRouting

/-! The entries of `http_connections`. A request enters it when it arrives; it leaves where
its reply is given at once, and where a settled promise's response is sent under the id
that the global object names by then. -/
namespace AsioQuickjs
namespace HttpHost

open Trace

variable {S : Type}

def Sys.named (s : Sys S) : ℕ := uint64OfInt32 (s.httpConnIdTmp.getD 0)

theorem mem_sendHttpResponseNative {h : Host S} {d : Data} {z : ℤ} {j : ℕ} :
    j ∈ (h.sendHttpResponseNative d z).httpConnections ↔
      j ∈ h.httpConnections ∧ j ≠ uint64OfInt32 z := by
  rw [Host.sendHttpResponseNative]
  cases hl : h.httpConnections.lookup (uint64OfInt32 z) with
  | none =>
    have habsent := AList.lookup_eq_none.mp hl
    refine ⟨fun hj => ⟨hj,?_⟩,And.left⟩
    rintro rfl
    exact habsent hj
  | some session => simp [Host.sendResponse,AList.mem_erase,and_comm]

/-- No response is sent for a handler that settles so. -/
def Settlement.Silent (r : Settlement) : Prop := r.data = none

instance (r : Settlement) : Decidable r.Silent := inferInstanceAs (Decidable (_ = _))

theorem mem_onSettled {s : Sys S} {r : Settlement} {j : ℕ} :
    j ∈ (s.toHost.onSettled r).httpConnections ↔
      j ∈ s.httpConnections ∧ (r.Silent ∨ j ≠ s.named) := by
  rw [Host.onSettled,Settlement.Silent]
  cases r.data with
  | none => simp
  | some data => simp [mem_sendHttpResponseNative,Sys.named]

theorem mem_onRequest {h : Host S} {session : S} {o : Outcome} {j : ℕ}
    (hnew : h.nextConnId ∉ h.httpConnections) :
    j ∈ (h.onRequest session o).httpConnections ↔
      j ∈ h.httpConnections ∨ o = .promise ∧ j = h.nextConnId := by
  have hinsert : j ∈ h.httpConnections.insert h.nextConnId session ↔
      j ∈ h.httpConnections ∨ j = h.nextConnId := by
    rw [AList.mem_insert,or_comm]
  have herase : j ∈ (h.httpConnections.insert h.nextConnId session).erase h.nextConnId ↔
      j ∈ h.httpConnections := by
    rw [AList.mem_erase,hinsert]
    by_cases hj : j = h.nextConnId
    · simp [hj,hnew]
    · simp [hj]
  cases o with
  | evalThrows => simpa [Host.onRequest,Host.sendResponse] using herase
  | attachThrows => simpa [Host.onRequest,Host.sendResponse] using herase
  | promise => simpa [Host.onRequest] using hinsert
  | notPromise data =>
    simpa [Host.onRequest,Host.sendJsResponse,Host.sendResponse,AList.lookup_insert] using herase

@[simp] theorem nativeStream_httpConnections (h : Host S) (ct : Option Bytes) :
    (h.nativeStream ct).httpConnections = h.httpConnections := by
  rw [Host.nativeStream]
  split <;> rfl

inductive Progress
  | dispatched (connId : ℕ)
  | answered (connId : ℕ)
  deriving DecidableEq

/-- The requests that a settled promise is the end of, read off what is sent: the one whose
entry a response is sent through, or, where none is sent, its own. -/
def replied (s : Sys S) (connId : ℕ) (r : Settlement) : List ℕ :=
  if r.Silent then [connId] else if s.named ∈ s.httpConnections then [s.named] else []

/-- The same, read off the handlers: a request is answered with what its own produced. -/
def finished (_ : Sys S) (connId : ℕ) (_ : Settlement) : List ℕ := [connId]

def progress (answers : Sys S → ℕ → Settlement → List ℕ) (s : Sys S) : Action S → List Progress
  | .request _ o => .dispatched s.nextConnId::if o = .promise then [] else [.answered s.nextConnId]
  | .stream _ _ => []
  | .settle connId r => (answers s connId r).map .answered

/-- `http_connections` holds exactly what has been dispatched and not fully answered. -/
def Exact (s : Sys S) (l : List Progress) : Prop :=
  ∀ j, j ∈ s.httpConnections ↔ .dispatched j ∈ l ∧ .answered j ∉ l

/-- No handler settles without a response while its request is in the table. -/
def Unstreamed (s : Sys S) : Action S → Prop
  | .settle connId r => r.Silent → connId ∉ s.httpConnections
  | _ => True

/-- Every handler settles with a response, while the global object names its request. -/
def Closes (s : Sys S) : Action S → Prop
  | .settle connId r => ¬ r.Silent ∧ s.named = connId
  | _ => True

/-- Ids are new when they are given out. -/
structure Known (s : Sys S) (l : List Progress) : Prop where
  connections : ∀ j ∈ s.httpConnections, j < s.nextConnId
  handlers : ∀ j ∈ s.handlers, j < s.nextConnId
  log : ∀ j, .dispatched j ∈ l ∨ .answered j ∈ l → j < s.nextConnId

section steps

variable {answers : Sys S → ℕ → Settlement → List ℕ} {s t : Sys S} {l : List Progress}

theorem Known.request (hk : Known s l) {session : S} {o : Outcome}
    (h : step s (.request session o) = some t) :
    Known t (l++progress answers s (.request session o)) := by
  obtain rfl := Option.some.inj h
  have hnew : s.nextConnId ∉ s.httpConnections := fun hj => Nat.lt_irrefl _ (hk.connections _ hj)
  refine ⟨?_,?_,?_⟩
  · intro j hj
    rw [onRequest_nextConnId]
    rcases (mem_onRequest hnew).mp hj with hold | ⟨-,rfl⟩
    · exact Nat.lt_succ_of_lt (hk.connections j hold)
    · exact Nat.lt_succ_self _
  · intro j hj
    rw [onRequest_nextConnId]
    change j ∈ (if o = .promise then s.handlers.insert s.nextConnId session else s.handlers) at hj
    split at hj
    · rcases AList.mem_insert _ |>.mp hj with rfl | hold
      · exact Nat.lt_succ_self _
      · exact Nat.lt_succ_of_lt (hk.handlers j hold)
    · exact Nat.lt_succ_of_lt (hk.handlers j hj)
  · intro j hj
    rw [onRequest_nextConnId]
    have hcases : (.dispatched j ∈ l ∨ .answered j ∈ l) ∨ j = s.nextConnId := by
      rcases hj with hj | hj <;> rcases List.mem_append.mp hj with hold | hnow
      · exact .inl (.inl hold)
      · refine .inr ?_
        cases o <;> simpa [progress] using hnow
      · exact .inl (.inr hold)
      · refine .inr ?_
        cases o <;> simp_all [progress]
    rcases hcases with hold | rfl
    · exact Nat.lt_succ_of_lt (hk.log j hold)
    · exact Nat.lt_succ_self _

theorem Known.settle (hk : Known s l) {id : ℕ} {r : Settlement}
    (hans : id ∈ s.handlers → ∀ j ∈ answers s id r, j < s.nextConnId)
    (h : step s (.settle id r) = some t) : Known t (l++progress answers s (.settle id r)) := by
  obtain ⟨session,hl,rfl⟩ := Option.map_eq_some_iff.mp h
  have hid : id ∈ s.handlers := AList.lookup_isSome.mp (by simp [hl])
  refine ⟨?_,?_,?_⟩
  · intro j hj
    rw [onSettled_nextConnId]
    exact hk.connections j (mem_onSettled.mp hj).1
  · intro j hj
    rw [onSettled_nextConnId]
    exact hk.handlers j (AList.mem_erase.mp hj).2
  · intro j hj
    rw [onSettled_nextConnId]
    simp only [progress,List.mem_append,List.mem_map,reduceCtorEq,and_false,exists_false,or_false,
      Progress.answered.injEq,exists_eq_right] at hj
    rcases hj with hold | hold | hnow
    · exact hk.log j (.inl hold)
    · exact hk.log j (.inr hold)
    · exact hans hid j hnow

theorem known_step (hk : Known s l) {a : Action S}
    (hans : ∀ id ∈ s.handlers, ∀ r, ∀ j ∈ answers s id r, j < s.nextConnId)
    (h : step s a = some t) : Known t (l++progress answers s a) := by
  cases a with
  | request session o => exact hk.request h
  | stream id ct =>
    obtain ⟨session,-,rfl⟩ := Option.map_eq_some_iff.mp h
    exact ⟨by simpa using hk.connections,by simpa using hk.handlers,by simpa [progress] using hk.log⟩
  | settle id r => exact hk.settle (fun hid => hans id hid r) h

theorem exact_request (hk : Known s l) (he : Exact s l) {session : S} {o : Outcome}
    (h : step s (.request session o) = some t) :
    Exact t (l++progress answers s (.request session o)) := by
  obtain rfl := Option.some.inj h
  have hnew : s.nextConnId ∉ s.httpConnections := fun hj => Nat.lt_irrefl _ (hk.connections _ hj)
  have hnone : .answered s.nextConnId ∉ l := fun hj => Nat.lt_irrefl _ (hk.log _ (.inr hj))
  intro j
  change j ∈ (s.toHost.onRequest session o).httpConnections ↔ _
  rw [mem_onRequest hnew,he j]
  by_cases ho : o = .promise
  · by_cases hj : j = s.nextConnId
    · simp [progress,ho,hj,hnone]
    · simp [progress,ho,hj]
  · by_cases hj : j = s.nextConnId
    · have hgone := mt (he j).mpr (hj ▸ hnew)
      simp only [progress,ho,hj]
      simpa [hj] using hgone
    · simp [progress,ho,hj]

theorem exact_settle (he : Exact s l) {id : ℕ} {r : Settlement}
    (h : step s (.settle id r) = some t) :
    Exact t (l++progress answers s (.settle id r)) ↔
      ∀ j ∈ s.httpConnections, j ∈ answers s id r ↔ ¬ r.Silent ∧ j = s.named := by
  obtain ⟨session,-,rfl⟩ := Option.map_eq_some_iff.mp h
  have hlog : ∀ j, (.dispatched j ∈ l++progress answers s (.settle id r) ∧
      .answered j ∉ l++progress answers s (.settle id r)) ↔
      j ∈ s.httpConnections ∧ j ∉ answers s id r := by
    intro j
    simp [progress,he j,and_assoc]
  refine forall_congr' fun j => ?_
  change (j ∈ (s.toHost.onSettled r).httpConnections ↔ _) ↔ _
  rw [hlog,mem_onSettled]
  tauto

end steps

theorem exact_stream {answers : Sys S → ℕ → Settlement → List ℕ} {s t : Sys S}
    {l : List Progress} {id : ℕ} {ct : Option Bytes} (he : Exact s l)
    (h : step s (.stream id ct) = some t) : Exact t (l++progress answers s (.stream id ct)) := by
  obtain ⟨session,-,rfl⟩ := Option.map_eq_some_iff.mp h
  intro j
  simpa [progress] using he j

theorem replied_known {s : Sys S} {l : List Progress} (hk : Known s l) (id : ℕ)
    (hid : id ∈ s.handlers) (r : Settlement) : ∀ j ∈ replied s id r, j < s.nextConnId := by
  intro j hj
  rw [replied] at hj
  split at hj
  · rw [List.mem_singleton.mp hj]
    exact hk.handlers id hid
  · split at hj
    · next hmem =>
      rw [List.mem_singleton.mp hj]
      exact hk.connections _ hmem
    · cases hj

theorem exact_step_replied {s t : Sys S} {a : Action S} {l : List Progress} (hk : Known s l)
    (he : Exact s l) (h : step s a = some t) :
    Exact t (l++progress replied s a) ↔ Unstreamed s a := by
  cases a with
  | request session o => exact iff_of_true (exact_request hk he h) trivial
  | stream id ct => exact iff_of_true (exact_stream he h) trivial
  | settle id r =>
    rw [exact_settle he h]
    by_cases hr : r.Silent
    · simp only [replied,Unstreamed,hr,if_true,not_true,false_and,iff_false,List.mem_singleton,
        true_imp_iff]
      exact ⟨fun h hid => h id hid rfl,fun h j hj hji => h (hji ▸ hj)⟩
    · refine iff_of_true (fun j hj => ?_) fun h => absurd h hr
      rw [replied,if_neg hr,and_iff_right hr]
      by_cases hn : s.named ∈ s.httpConnections
      · simp [hn]
      · simp only [hn,if_false,List.not_mem_nil,false_iff]
        rintro rfl
        exact hn hj

/-- Handlers that have not settled have requests that are not answered. -/
structure Pending (s : Sys S) (l : List Progress) : Prop extends Known s l where
  pending : ∀ j ∈ s.handlers, .dispatched j ∈ l ∧ .answered j ∉ l

theorem pending_step {s t : Sys S} {a : Action S} {l : List Progress} (hp : Pending s l)
    (h : step s a = some t) : Pending t (l++progress finished s a) := by
  have hfinished : ∀ id ∈ s.handlers, ∀ r, ∀ j ∈ finished s id r, j < s.nextConnId := by
    intro id hid r j hj
    rw [List.mem_singleton.mp hj]
    exact hp.handlers id hid
  refine ⟨known_step hp.toKnown hfinished h,?_⟩
  cases a with
  | request session o =>
    obtain rfl := Option.some.inj h
    intro j hj
    change j ∈ (if o = .promise then s.handlers.insert s.nextConnId session else s.handlers) at hj
    have hnone : .answered s.nextConnId ∉ l := fun hj => Nat.lt_irrefl _ (hp.log _ (.inr hj))
    have hold : j ∈ s.handlers → j ≠ s.nextConnId := by
      rintro hj rfl
      exact Nat.lt_irrefl _ (hp.handlers _ hj)
    by_cases ho : o = .promise
    · rw [if_pos ho,AList.mem_insert] at hj
      rcases hj with rfl | hj
      · simp [progress,ho,hnone]
      · simpa [progress,ho,hold hj] using hp.pending j hj
    · rw [if_neg ho] at hj
      simpa [progress,ho,hold hj] using hp.pending j hj
  | stream id ct =>
    obtain ⟨session,-,rfl⟩ := Option.map_eq_some_iff.mp h
    simpa [progress] using hp.pending
  | settle id r =>
    obtain ⟨session,-,rfl⟩ := Option.map_eq_some_iff.mp h
    intro j hj
    obtain ⟨hne,hj⟩ := AList.mem_erase.mp hj
    simpa [progress,finished,hne] using hp.pending j hj

theorem exact_step_finished {s t : Sys S} {a : Action S} {l : List Progress} (hp : Pending s l)
    (he : Exact s l) (h : step s a = some t) :
    Exact t (l++progress finished s a) ↔ Closes s a := by
  cases a with
  | request session o => exact iff_of_true (exact_request hp.toKnown he h) trivial
  | stream id ct => exact iff_of_true (exact_stream he h) trivial
  | settle id r =>
    have hid : id ∈ s.httpConnections := by
      obtain ⟨session,hl,-⟩ := Option.map_eq_some_iff.mp h
      exact (he id).mpr (hp.pending id (AList.lookup_isSome.mp (by simp [hl])))
    rw [exact_settle he h]
    have hown : (∀ j ∈ s.httpConnections, j = id ↔ j = s.named) ↔ s.named = id := by
      constructor
      · exact fun hall => ((hall id hid).mp rfl).symm
      · rintro rfl
        simp
    rw [Closes,← hown]
    by_cases hr : r.Silent
    · simpa [finished,hr] using hid
    · simp [finished,hr]

theorem table_empty_of_answered {s : Sys S} {l : List Progress} (he : Exact s l)
    (hall : ∀ j, .dispatched j ∈ l → .answered j ∈ l) : s.httpConnections.keys = [] := by
  refine List.eq_nil_iff_forall_not_mem.mpr fun j hj => ?_
  obtain ⟨hdispatched,hopen⟩ := (he j).mp hj
  exact hopen (hall j hdispatched)

theorem pending_init : Pending ({} : Sys S) [] := ⟨⟨by simp,by simp,by simp⟩,by simp⟩

theorem exact_init : Exact ({} : Sys S) [] := fun j => by simp

/-- In every state along a run the table is exact, answers read off what is sent, exactly if
no handler settles without a response while its request is in the table; and, answers read
off the handlers, exactly if every handler settles with a response while its request is
named. Where it is exact and all requests are answered, it is empty. -/
theorem connections_exact_iff {s : Sys S} {as : List (Action S)} (h : run step {} as = some s) :
    ((∀ bs t, bs <+: as → run step {} bs = some t → Exact t (log step (progress replied) {} bs)) ↔
      Meets step Unstreamed {} as) ∧
    ((∀ bs t, bs <+: as → run step {} bs = some t → Exact t (log step (progress finished) {} bs)) ↔
      Meets step Closes {} as) ∧
    ∀ l, Exact s l → (∀ j, .dispatched j ∈ l → .answered j ∈ l) →
      s.httpConnections.keys = [] := by
  refine ⟨?_,?_,fun l => table_empty_of_answered⟩
  · have hkeep : ∀ (s : Sys S) a t l, Known s l → step s a = some t →
        Known t (l++progress replied s a) := fun s a t l hk => known_step hk (replied_known hk)
    exact holds_along_iff_meets hkeep (fun s a t l => exact_step_replied) pending_init.toKnown
      exact_init h
  · have hkeep : ∀ (s : Sys S) a t l, Pending s l → step s a = some t →
        Pending t (l++progress finished s a) := fun s a t l => pending_step
    exact holds_along_iff_meets hkeep (fun s a t l => exact_step_finished) pending_init exact_init h

def answeredOnce : List (Action ℕ) := [.request 7 .promise,.settle 1 (.fulfilled {})]

theorem connections_exact_iff_sample :
    Exact ((run step {} answeredOnce).get rfl) (log step (progress replied) {} answeredOnce) ∧
    Exact ((run step {} answeredOnce).get rfl) (log step (progress finished) {} answeredOnce) :=
  have h : run step {} answeredOnce = some ((run step {} answeredOnce).get rfl) := rfl
  have hmeets : Meets step Unstreamed {} answeredOnce ∧ Meets step Closes {} answeredOnce :=
    ⟨⟨trivial,fun hr => absurd hr (by decide),trivial⟩,⟨trivial,⟨by decide,rfl⟩,trivial⟩⟩
  ⟨(connections_exact_iff h).1.mpr hmeets.1 answeredOnce _ List.prefix_rfl h,
    (connections_exact_iff h).2.1.mpr hmeets.2 answeredOnce _ List.prefix_rfl h⟩

def streamedOnce : List (Action ℕ) := [.request 7 .promise,.stream 1 none,.settle 1 .streamHandled]

theorem stream_leaves_entry :
    ¬ ∀ as s, run step {} as = some s →
      Exact (S := ℕ) s (log step (progress replied) {} as) := by
  intro hall
  have hexact := hall streamedOnce _ rfl 1
  exact absurd hexact (by decide)

end HttpHost
end AsioQuickjs
