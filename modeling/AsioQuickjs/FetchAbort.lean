import AsioQuickjs.NativeFetch

/-! What an abort does to the fetch it names. A transfer is known to the host only
once the posted body of its fetch has run, so an abort before that finds nothing. -/
namespace AsioQuickjs
namespace NativeFetch

open Trace

section stages

variable (h : Host) (id j : ℕ)

@[simp] theorem stage_deliver (r : FetchResult) :
    (h.deliver id r).stage j = if j = id then some (.resolved r) else h.stage j :=
  lookup_insert_ite h.fetches id j _

@[simp] theorem transfers_deliver (r : FetchResult) :
    (h.deliver id r).fetchTransfers.lookup j =
      if j = id then none else h.fetchTransfers.lookup j :=
  lookup_erase_ite h.fetchTransfers id j

theorem stage_added (o : FetchOptions) :
    (h.startBody id o .added).stage j = if j = id then some (.inMulti o) else h.stage j :=
  lookup_insert_ite h.fetches id j _

theorem transfers_added (o : FetchOptions) :
    (h.startBody id o .added).fetchTransfers.lookup j =
      if j = id then some id else h.fetchTransfers.lookup j :=
  lookup_insert_ite h.fetchTransfers id j _

theorem stage_startBody {id j : ℕ} (hj : j ≠ id) (o : FetchOptions) (a : Start) :
    (h.startBody id o a).stage j = h.stage j := by
  cases a with
  | added => rw [stage_added,if_neg hj]
  | noClient => exact (stage_deliver h id j _).trans (if_neg hj)
  | notAdded => exact (stage_deliver h id j _).trans (if_neg hj)
  | doneAtOnce p => exact (stage_deliver h id j _).trans (if_neg hj)

theorem stage_nativeFetch {o : FetchOptions} (ho : o.url ≠ []) :
    (h.nativeFetch o).stage j =
      if j = h.nextFetchId then some (.posted o) else h.stage j := by
  rw [Host.nativeFetch,if_neg ho]
  exact lookup_insert_ite h.fetches _ j _

def afterAbort (o : FetchOptions) (inLoop : Bool) : Stage :=
  if inLoop then .resolved (abortedResult o) else .ready (abortedResult o)

/-- The state after an abort that found the transfer of `id`. -/
def cut (o : FetchOptions) (inLoop : Bool) : Host :=
  { h with fetchTransfers := h.fetchTransfers.erase id }.abortTransfer id o inLoop

theorem stage_cut (o : FetchOptions) (inLoop : Bool) :
    (cut h id o inLoop).stage j = if j = id then some (afterAbort o inLoop) else h.stage j := by
  cases inLoop
  · exact lookup_insert_ite h.fetches id j _
  · exact stage_deliver _ id j _

theorem transfers_cut (o : FetchOptions) (inLoop : Bool) :
    (cut h id o inLoop).fetchTransfers.lookup j =
      if j = id then none else h.fetchTransfers.lookup j := by
  cases inLoop
  · exact lookup_erase_ite h.fetchTransfers id j
  · refine (transfers_deliver _ id j _).trans ?_
    rw [lookup_erase_ite]
    split <;> rfl

@[simp] theorem nextFetchId_cut (o : FetchOptions) (inLoop : Bool) :
    (cut h id o inLoop).nextFetchId = h.nextFetchId := by
  cases inLoop <;> rfl

end stages

/-- Ids are handed out in order, a transfer in the multi handle is known under its id,
and what is known under an id is its own transfer. -/
structure Inv (h : Host) : Prop where
  fresh : ∀ id st, h.stage id = some st → id < h.nextFetchId
  known : ∀ id o, h.stage id = some (.inMulti o) → h.fetchTransfers.lookup id = some id
  own : ∀ id tr, h.fetchTransfers.lookup id = some tr → tr = id ∧ ∃ o, h.stage id = some (.inMulti o)
  aborted : ∀ id r, h.stage id = some (.ready r) → r.aborted = true

theorem Inv.init : Inv {} where
  fresh _ _ h := nomatch h
  known _ _ h := nomatch h
  own _ _ h := nomatch h
  aborted _ _ h := nomatch h

/-- Replacing the stage of one fetch keeps the invariant if its transfer is known
exactly when it is in the multi handle. -/
theorem Inv.update {h t : Host} (hs : Inv h) {id : ℕ} {st : Stage}
    (hstage : ∀ j, t.stage j = if j = id then some st else h.stage j)
    (htransfers : ∀ j, t.fetchTransfers.lookup j =
      if j = id then (match st with | .inMulti _ => some id | _ => none)
      else h.fetchTransfers.lookup j)
    (hid : id < t.nextFetchId) (hnext : h.nextFetchId ≤ t.nextFetchId)
    (hst : ∀ r, st = .ready r → r.aborted = true) : Inv t := by
  refine ⟨fun j st' hj => ?_,fun j o hj => ?_,fun j tr hj => ?_,fun j r hj => ?_⟩
  · rw [hstage] at hj
    split at hj
    · next hji => exact hji ▸ hid
    · have := hs.fresh j st' hj
      omega
  · rw [hstage] at hj
    rw [htransfers]
    split at hj
    · next hji =>
      cases hj
      rw [if_pos hji,hji]
    · next hji =>
      rw [if_neg hji]
      exact hs.known j o hj
  · rw [htransfers] at hj
    rw [hstage]
    split at hj
    · next hji =>
      rw [if_pos hji]
      cases st with
      | inMulti o =>
        cases hj
        exact ⟨hji.symm,o,rfl⟩
      | posted => cases hj
      | ready => cases hj
      | resolved => cases hj
    · next hji =>
      rw [if_neg hji]
      exact hs.own j tr hj
  · rw [hstage] at hj
    split at hj
    · cases hj
      exact hst r rfl
    · exact hs.aborted j r hj

theorem Inv.deliver {h : Host} (hs : Inv h) {id : ℕ} (hid : id < h.nextFetchId)
    (r : FetchResult) : Inv (h.deliver id r) :=
  hs.update (stage_deliver h id · r) (transfers_deliver h id · r) hid le_rfl (by simp)

theorem Inv.nativeFetch {h : Host} (hs : Inv h) (o : FetchOptions) : Inv (h.nativeFetch o) := by
  by_cases hurl : o.url = []
  · rwa [Host.nativeFetch,if_pos hurl]
  · have hnext : (h.nativeFetch o).nextFetchId = h.nextFetchId+1 := by simp [Host.nativeFetch,hurl]
    have htransfers : (h.nativeFetch o).fetchTransfers = h.fetchTransfers := by
      simp [Host.nativeFetch,hurl]
    refine hs.update (stage_nativeFetch h · hurl) (fun j => ?_) (by omega) (by omega) (by simp)
    rw [htransfers]
    split
    · next hj =>
      -- nothing is known yet under an id that is not handed out
      cases hl : h.fetchTransfers.lookup j with
      | none => rfl
      | some tr =>
        obtain ⟨-,o',ho⟩ := hs.own j tr hl
        exact absurd (hs.fresh j _ ho) (by omega)
    · rfl

theorem nativeFetchAbort_cases {h : Host} (hs : Inv h) (z : ℤ) (inLoop : Bool) :
    (h.fetchTransfers.lookup (uint64OfInt32 z) = none ∧ h.nativeFetchAbort z inLoop = h) ∨
    ∃ o, h.stage (uint64OfInt32 z) = some (.inMulti o) ∧
      h.nativeFetchAbort z inLoop = cut h (uint64OfInt32 z) o inLoop := by
  cases hl : h.fetchTransfers.lookup (uint64OfInt32 z) with
  | none => exact .inl ⟨rfl,by simp [Host.nativeFetchAbort,hl]⟩
  | some tr =>
    obtain ⟨rfl,o,ho⟩ := hs.own _ tr hl
    refine .inr ⟨o,ho,?_⟩
    simp only [Host.stage] at ho
    simp [Host.nativeFetchAbort,hl,Host.stage,ho,cut]

theorem Inv.nativeFetchAbort {h : Host} (hs : Inv h) (z : ℤ) (inLoop : Bool) :
    Inv (h.nativeFetchAbort z inLoop) := by
  obtain ⟨-,heq⟩ | ⟨o,ho,heq⟩ := nativeFetchAbort_cases hs z inLoop
  · rwa [heq]
  · rw [heq]
    have hid := hs.fresh _ _ ho
    refine hs.update (stage_cut h _ · o inLoop) (fun j => ?_) (by simpa using hid) (by simp) ?_
    · rw [transfers_cut]
      cases inLoop <;> rfl
    · cases inLoop <;> simp [afterAbort,abortedResult]

theorem Inv.step {h t : Host} {a : Action} (hs : Inv h) (ht : step h a = some t) : Inv t := by
  cases a with
  | fetch o =>
    cases ht
    exact hs.nativeFetch o
  | abort id inLoop =>
    simp only [NativeFetch.step] at ht
    split at ht
    · cases ht
      exact hs.nativeFetchAbort _ inLoop
    · cases ht
  | body id a =>
    simp only [NativeFetch.step] at ht
    split at ht
    · next o ho =>
      cases ht
      have hlt := hs.fresh id _ ho
      cases a with
      | added => exact hs.update (stage_added h id · o) (transfers_added h id · o) hlt le_rfl (by simp)
      | noClient => exact hs.deliver hlt _
      | notAdded => exact hs.deliver hlt _
      | doneAtOnce p => exact hs.deliver hlt _
    · cases ht
  | done id p =>
    simp only [NativeFetch.step] at ht
    split at ht
    · next o ho =>
      cases ht
      exact hs.deliver (hs.fresh id _ ho) _
    · cases ht
  | resume id =>
    simp only [NativeFetch.step] at ht
    split at ht
    · next r hr =>
      cases ht
      exact hs.deliver (hs.fresh id _ hr) _
    · cases ht

/-- The fetch has been aborted, and its result says so. -/
def Kept (h : Host) (id : ℕ) : Prop :=
  ∃ r, r.aborted = true ∧ (h.stage id = some (.ready r) ∨ h.stage id = some (.resolved r))

theorem makeResult_aborted (o : FetchOptions) (p : Report) : (makeResult o p).aborted = false := by
  simp only [makeResult]
  split
  · split <;> rfl
  · rfl

theorem stage_abort {h : Host} (hs : Inv h) {id : ℕ} {z : ℤ}
    (hid : uint64OfInt32 z = id → ∀ o, h.stage id ≠ some (.inMulti o)) (inLoop : Bool) :
    (h.nativeFetchAbort z inLoop).stage id = h.stage id := by
  obtain ⟨-,heq⟩ | ⟨o,ho,heq⟩ := nativeFetchAbort_cases hs z inLoop
  · rw [heq]
  · have hne : id ≠ uint64OfInt32 z := fun hz => hid hz.symm o (hz ▸ ho)
    rw [heq,stage_cut,if_neg hne]

theorem Kept.not_inMulti {h : Host} {id : ℕ} (hk : Kept h id) (o : FetchOptions) :
    h.stage id ≠ some (.inMulti o) := by
  obtain ⟨r,-,hr | hr⟩ := hk <;> simp [hr]

theorem Kept.not_posted {h : Host} {id : ℕ} (hk : Kept h id) (o : FetchOptions) :
    h.stage id ≠ some (.posted o) := by
  obtain ⟨r,-,hr | hr⟩ := hk <;> simp [hr]

theorem Kept.congr {h t : Host} {id : ℕ} (hk : Kept h id) (heq : t.stage id = h.stage id) :
    Kept t id := by
  rwa [Kept,heq]

theorem Kept.step {h t : Host} {id : ℕ} {a : Action} (hs : Inv h) (hk : Kept h id)
    (ht : step h a = some t) : Kept t id := by
  cases a with
  | fetch o =>
    cases ht
    by_cases hurl : o.url = []
    · rwa [Host.nativeFetch,if_pos hurl]
    · refine hk.congr ((stage_nativeFetch h id hurl).trans (if_neg ?_))
      rintro rfl
      obtain ⟨r,-,hr | hr⟩ := hk <;> exact absurd (hs.fresh _ _ hr) (lt_irrefl _)
  | abort j inLoop =>
    simp only [NativeFetch.step] at ht
    split at ht
    · cases ht
      exact hk.congr (stage_abort hs (fun _ => hk.not_inMulti) inLoop)
    · cases ht
  | body j a =>
    simp only [NativeFetch.step] at ht
    split at ht
    · next o ho =>
      cases ht
      refine hk.congr (stage_startBody h ?_ o a)
      rintro rfl
      exact hk.not_posted o ho
    · cases ht
  | done j p =>
    simp only [NativeFetch.step] at ht
    split at ht
    · next o ho =>
      cases ht
      refine hk.congr ((stage_deliver h j id _).trans (if_neg ?_))
      rintro rfl
      exact hk.not_inMulti o ho
    · cases ht
  | resume j =>
    simp only [NativeFetch.step] at ht
    split at ht
    · next r hr =>
      cases ht
      by_cases hj : id = j
      · subst hj
        exact ⟨r,hs.aborted id r hr,.inr (by simp)⟩
      · exact hk.congr ((stage_deliver h j id r).trans (if_neg hj))
    · cases ht

theorem Kept.run {h t : Host} {id : ℕ} {as : List Action} (hs : Inv h) (hk : Kept h id)
    (ht : run NativeFetch.step h as = some t) : Inv t ∧ Kept t id :=
  run_keeps (I := fun h => Inv h ∧ Kept h id)
    (fun _ _ _ hI hstep => ⟨hI.1.step hstep,hI.2.step hI.1 hstep⟩) ⟨hs,hk⟩ ht

theorem Timely.kept {h t : Host} {id : ℕ} {inLoop : Bool} (hs : Inv h) (hid : Timely h id)
    (ht : step h (.abort id inLoop) = some t) : Kept t id := by
  obtain ⟨⟨o,ho⟩,hround⟩ | ⟨r,hr⟩ := hid
  · simp only [step] at ht
    split at ht
    · cases ht
      obtain ⟨hnone,-⟩ | ⟨o',-,heq⟩ := nativeFetchAbort_cases hs (int32OfUInt64 id) inLoop
      · rw [hround,hs.known id o ho] at hnone
        cases hnone
      · rw [hround] at heq
        refine ⟨abortedResult o',rfl,?_⟩
        rw [heq,stage_cut,if_pos rfl]
        cases inLoop
        · exact .inl rfl
        · exact .inr rfl
    · cases ht
  · exact Kept.step hs ⟨r,hs.aborted id r hr,.inl hr⟩ ht

theorem Timely.abortKept {h : Host} {id : ℕ} (hs : Inv h) (hid : Timely h id) (inLoop : Bool) :
    AbortKept h id inLoop := by
  have hrun {as : List Action} {t : Host} (ht : run step h (.abort id inLoop::as) = some t) :
      ∃ u, Inv u ∧ Kept u id ∧ run step u as = some t := by
    obtain ⟨u,hu,hr⟩ := run_cons.mp ht
    exact ⟨u,hs.step hu,hid.kept hs hu,hr⟩
  refine ⟨fun as t ht o _ hmem => ?_,fun as t r ht hr => ?_,fun as t ht => ?_⟩
  · obtain ⟨u,hsu,hku,hr⟩ := hrun ht
    obtain ⟨bs,cs,rfl⟩ := List.append_of_mem hmem
    obtain ⟨v,hv,hr⟩ := run_append.mp hr
    obtain ⟨w,hw,-⟩ := run_cons.mp hr
    obtain ⟨-,hkv⟩ := hku.run hsu hv
    simp only [step] at hw
    split at hw
    · next opts hopts => exact hkv.not_posted opts hopts
    · cases hw
  · obtain ⟨u,hsu,hku,hru⟩ := hrun ht
    obtain ⟨-,r',hr',hready | hresolved⟩ := hku.run hsu hru
    · rw [hready] at hr
      cases hr
    · rw [hresolved] at hr
      cases hr
      exact hr'
  · obtain ⟨u,hsu,hku,hru⟩ := hrun ht
    obtain ⟨-,r,-,hready | hresolved⟩ := hku.run hsu hru
    · exact ⟨[.resume id],t.deliver id r,r,by simp [run,step,hready],by simp⟩
    · exact ⟨[],t,r,rfl,hresolved⟩

theorem timely_of_abortKept {h : Host} {id : ℕ} {inLoop : Bool} (hs : Inv h)
    (hid : Unresolved h id) (hk : AbortKept h id inLoop) : Timely h id := by
  obtain ⟨st,hst,hunres⟩ := hid
  have hlt := hs.fresh id st hst
  have habort : step h (.abort id inLoop) =
      some (h.nativeFetchAbort (int32OfUInt64 id) inLoop) := by simp [step,hlt]
  cases st with
  | posted o =>
    -- the body has yet to run, and adds the transfer when it does
    have hstage := (stage_abort hs (z := int32OfUInt64 id) (fun _ o' => by simp [hst]) inLoop).trans
      hst
    have hbody : step (h.nativeFetchAbort (int32OfUInt64 id) inLoop) (.body id .added) =
        some ((h.nativeFetchAbort (int32OfUInt64 id) inLoop).startBody id o .added) := by
      simp only [step,hstage]
    have hlost := hk.neverAdded [.body id .added] _
      (run_cons.mpr ⟨_,habort,run_cons.mpr ⟨_,hbody,rfl⟩⟩) .added rfl
    exact absurd (List.mem_singleton.mpr rfl) hlost
  | inMulti o =>
    by_cases hround : uint64OfInt32 (int32OfUInt64 id) = id
    · exact .inl ⟨⟨o,hst⟩,hround⟩
    · -- the id does not lead to the transfer, and curl reports it done in due course
      have hstage := (stage_abort hs (fun hz => absurd hz hround) inLoop).trans hst
      have hdone : step (h.nativeFetchAbort (int32OfUInt64 id) inLoop) (.done id {}) =
          some ((h.nativeFetchAbort (int32OfUInt64 id) inLoop).deliver id (makeResult o {})) := by
        simp only [step,hstage]
      have haborted := hk.onlyAborted [.done id {}] _ (makeResult o {})
        (run_cons.mpr ⟨_,habort,run_cons.mpr ⟨_,hdone,rfl⟩⟩) (by simp)
      rw [makeResult_aborted] at haborted
      cases haborted
  | ready r => exact .inr ⟨r,hst⟩
  | resolved r => exact absurd rfl (hunres r)

/-- In any run, an abort of an unresolved fetch is kept exactly if it is timely. -/
theorem abort_kept_iff {as : List Action} {h : Host} (hrun : run step {} as = some h) {id : ℕ}
    (hid : Unresolved h id) (inLoop : Bool) : AbortKept h id inLoop ↔ Timely h id := by
  have hs : Inv h := run_keeps (fun _ _ _ hI hstep => hI.step hstep) Inv.init hrun
  exact ⟨timely_of_abortKept hs hid,fun ht => ht.abortKept hs inLoop⟩

def sampleOptions : FetchOptions := { url := ascii "http://localhost/text" }

theorem abort_kept_iff_sample :
    ∃ h, run step {} [.fetch sampleOptions,.body 1 .added] = some h ∧ Unresolved h 1 ∧
      (AbortKept h 1 true ↔ Timely h 1) := by
  refine ⟨_,rfl,?_,abort_kept_iff
    (show run step {} [.fetch sampleOptions,.body 1 .added] = some _ from rfl) ?_ true⟩ <;>
    exact ⟨.inMulti sampleOptions,by decide,by simp⟩

/-- The script aborts a fetch right after starting it; the transfer is added all the
same and its result is delivered as that of an ordinary fetch. -/
theorem early_abort_lost :
    ∃ h, run step {} [.fetch sampleOptions] = some h ∧ Unresolved h 1 ∧
      ¬ AbortKept h 1 false ∧
      (run step h [.abort 1 false,.body 1 .added,.done 1 { responseCode := 200 }]).map
          (fun t => t.stage 1) =
        some (some (.resolved { ok := true, status := 200, url := sampleOptions.url })) := by
  refine ⟨_,rfl,⟨.posted sampleOptions,by decide,by simp⟩,fun hk => ?_,by decide⟩
  exact hk.neverAdded [.body 1 .added] _ rfl .added rfl (by simp)

end NativeFetch
end AsioQuickjs
