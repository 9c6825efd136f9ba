import VaultLink.TransferLeases

/-!
# Availability of a transfer

A request without a body asks whether a transfer could start, and a request with one starts it.
Only the second deletes expired and orphaned rows first. The cleanup keeps exactly the grants
that the access query can see, so both requests get the same answer, and the key of a new grant
is always free.
-/
namespace VaultLink

open Store
open KeyedTable

section Check

inductive TransferAvailabilityOutcome
  | unauthorized
  | available
  | alreadyCounted
  | limitReached
  | shareUnavailable
deriving DecidableEq

/-- The answer of the check for an access state. -/
def TransferAccessState.availability : TransferAccessState → TransferAvailabilityOutcome
  | .unauthorized => .unauthorized
  | .available => .available
  | .existingGrant _ true => .alreadyCounted
  | .existingGrant _ false => .available
  | .limitReached => .limitReached
  | .shareUnavailable => .shareUnavailable

/-- `check_authorized_transfer_availability`: a deferred transaction with reads only. -/
def checkAuthorizedTransferAvailability (now : Instant) (key : TransferKey)
    (unlockToken : Option String) (s : Store) : Store × TransferAvailabilityOutcome :=
  (s, (transferAccessState key unlockToken now s).availability)

/-- The outcome of a begin that corresponds to an answer of the check. -/
def TransferAvailabilityOutcome.begun : TransferAvailabilityOutcome → TransferLeaseBeginOutcome
  | .unauthorized => .unauthorized
  | .available => .newLease
  | .alreadyCounted => .alreadyCounted
  | .limitReached => .limitReached
  | .shareUnavailable => .shareUnavailable

end Check

section Cleanup

variable {now : Instant} {s : Store} {grant : Grant} {lease : Lease}

theorem liveLeased_iff : s.liveLeased now grant = true ↔
    ∃ lease ∈ s.leases, lease.grantId = grant.id ∧ now < lease.expiresAt := by
  simp [liveLeased]

/-- A lease is deleted with its grant and only then. -/
theorem mem_deleteGrantsWhere_leases {p : Grant → Bool} :
    lease ∈ (deleteGrantsWhere p s).leases ↔
      lease ∈ s.leases ∧ ∀ grant ∈ s.grants, grant.id = lease.grantId → p grant = false := by
  rw [deleteGrantsWhere, mem_deleteWhere]
  refine and_congr_right fun _ => ?_
  rw [← Bool.not_eq_true, any_iff]
  constructor
  · intro h grant hgr hid
    by_contra hp
    exact h ⟨grant, hgr, by simp [hid, Bool.eq_true_of_not_eq_false hp]⟩
  · rintro h ⟨grant, hgr, hcond⟩
    simp only [Bool.and_eq_true, decide_eq_true_eq] at hcond
    simp [h grant hgr hcond.1] at hcond

theorem mem_deleteGrantsWhere_grants {p : Grant → Bool} :
    grant ∈ (deleteGrantsWhere p s).grants ↔ grant ∈ s.grants ∧ p grant = false :=
  mem_deleteWhere

/-- The leases left by a cleanup: live ones of unexpired grants. -/
theorem mem_cleanup_leases : lease ∈ (cleanupTransferState now s).leases ↔
    lease ∈ s.leases ∧ now < lease.expiresAt ∧
      ∀ grant ∈ s.grants, grant.id = lease.grantId → now < grant.expiresAt := by
  simp only [cleanupTransferState, mem_deleteGrantsWhere_leases, mem_deleteGrantsWhere_grants,
    mem_deleteWhere, decide_eq_false_iff_not, not_le]
  constructor
  · rintro ⟨⟨⟨hlease, hlive⟩, hgrants⟩, -⟩
    exact ⟨hlease, hlive, hgrants⟩
  · rintro ⟨hlease, hlive, hgrants⟩
    refine ⟨⟨⟨hlease, hlive⟩, hgrants⟩, fun grant hgr hid => ?_⟩
    -- the lease itself keeps its grant from being an orphan
    have hserved : liveLeased (deleteGrantsWhere (fun grant => grant.expiresAt ≤ now)
        { s with leases := s.leases.deleteWhere fun lease => lease.expiresAt ≤ now }) now grant =
          true := by
      refine liveLeased_iff.mpr ⟨lease, mem_deleteGrantsWhere_leases.mpr ⟨?_, ?_⟩, hid.symm, hlive⟩
      · exact mem_deleteWhere.mpr ⟨hlease, by simpa using hlive⟩
      · intro other hoth hsame
        simpa using hgrants other hoth hsame
    simp [hserved]

/-- Whether an unexpired grant is served does not change. -/
theorem liveLeased_cleanup (hgr : grant ∈ s.grants) (hune : now < grant.expiresAt) :
    (cleanupTransferState now s).liveLeased now grant = s.liveLeased now grant := by
  rw [Bool.eq_iff_iff, liveLeased_iff, liveLeased_iff]
  constructor
  · rintro ⟨lease, hlease, hserves⟩
    exact ⟨lease, (mem_cleanup_leases.mp hlease).1, hserves⟩
  · rintro ⟨lease, hlease, hid, hlive⟩
    refine ⟨lease, mem_cleanup_leases.mpr ⟨hlease, hlive, fun other hoth hsame => ?_⟩, hid, hlive⟩
    have hone : other = grant := s.grants.eq_of_key_eq hoth hgr (hsame.trans hid)
    rwa [hone]

/-- The grants that an access query can see. -/
def Store.visibleGrant (s : Store) (now : Instant) (grant : Grant) : Bool :=
  now < grant.expiresAt && (grant.counted || s.liveLeased now grant)

theorem cleanup_grants_rows (now : Instant) (s : Store) :
    (cleanupTransferState now s).grants.rows = s.grants.rows.filter (s.visibleGrant now) := by
  simp only [cleanupTransferState, deleteGrantsWhere, deleteWhere, List.filter_filter]
  refine List.filter_congr fun grant hgr => ?_
  by_cases hune : now < grant.expiresAt
  · have hserved : liveLeased (deleteGrantsWhere (fun grant => grant.expiresAt ≤ now)
        { s with leases := s.leases.deleteWhere fun lease => lease.expiresAt ≤ now }) now grant =
          s.liveLeased now grant := by
      rw [Bool.eq_iff_iff, liveLeased_iff, liveLeased_iff]
      constructor
      · rintro ⟨lease, hlease, hserves⟩
        have hkept := (mem_deleteGrantsWhere_leases.mp hlease).1
        exact ⟨lease, (mem_deleteWhere.mp hkept).1, hserves⟩
      · rintro ⟨lease, hlease, hid, hlive⟩
        refine ⟨lease, mem_deleteGrantsWhere_leases.mpr ⟨?_, ?_⟩, hid, hlive⟩
        · exact mem_deleteWhere.mpr ⟨hlease, by simpa using hlive⟩
        · intro other hoth hsame
          have hone : other = grant := s.grants.eq_of_key_eq hoth hgr (hsame.trans hid)
          simpa [hone] using hune
    rw [visibleGrant, ← hserved]
    simp [hune, deleteGrantsWhere, deleteWhere]
  · simp [visibleGrant, hune, not_lt.mp hune]

theorem mem_cleanup_grants : grant ∈ (cleanupTransferState now s).grants ↔
    grant ∈ s.grants ∧ now < grant.expiresAt ∧
      (grant.counted = true ∨ s.liveLeased now grant = true) := by
  rw [mem_def, cleanup_grants_rows, List.mem_filter, ← mem_def]
  simp [visibleGrant]

end Cleanup

section Agreement

variable (now : Instant) (key : TransferKey) (unlockToken : Option String) (s : Store)

theorem existingGrant_cleanup :
    (cleanupTransferState now s).existingGrant key now = s.existingGrant key now := by
  rw [existingGrant, existingGrant, cleanup_grants_rows, ← List.head?_filter,
    ← List.head?_filter, List.filter_filter]
  refine congrArg List.head? (List.filter_congr fun grant hgr => ?_)
  by_cases hune : now < grant.expiresAt
  · rw [liveLeased_cleanup hgr hune, visibleGrant]
    cases decide (grant.key = key) <;> cases grant.counted || s.liveLeased now grant <;>
      simp [hune]
  · simp [visibleGrant, hune]

theorem pendingGrants_cleanup_eq (shareId : ℕ) :
    (cleanupTransferState now s).pendingGrants shareId now = s.pendingGrants shareId now := by
  rw [pendingGrants, pendingGrants, count, count,
    cleanup_grants_rows, List.countP_filter]
  refine List.countP_congr fun grant hgr => ?_
  by_cases hune : now < grant.expiresAt
  · rw [liveLeased_cleanup hgr hune, visibleGrant]
    simp only [hune, decide_true, Bool.true_and, Bool.and_true, Bool.and_eq_true,
      Bool.or_eq_true]
    tauto
  · simp [visibleGrant, hune]

/-- The three deletions never change the answer of the access query. -/
theorem transferAccessState_cleanup :
    transferAccessState key unlockToken now (cleanupTransferState now s) =
      transferAccessState key unlockToken now s := by
  simp only [transferAccessState, existingGrant_cleanup, pendingGrants_cleanup_eq]
  rfl

/-- A key that is still stored after the cleanup belongs to a grant the query finds. -/
theorem existingGrant_of_key {grant : Grant} (hgr : grant ∈ (cleanupTransferState now s).grants)
    (hkey : grant.key = key) :
    ((cleanupTransferState now s).existingGrant key now).isSome = true := by
  have hvis := mem_cleanup_grants.mp hgr
  rw [existingGrant, List.find?_isSome]
  refine ⟨grant, hgr, ?_⟩
  rw [liveLeased_cleanup hvis.1 hvis.2.1]
  simpa [hkey, hvis.2.1] using hvis.2.2

/-- What the access query has found when it answers `available`. -/
theorem transferAccessState_available
    (h : transferAccessState key unlockToken now s = .available) :
    (∃ share ∈ s.shares, share.id = key.shareId ∧ ∀ maximum, share.maxDownloads = some maximum →
      share.downloadCount + s.pendingGrants key.shareId now < maximum.value) ∧
      s.existingGrant key now = none := by
  unfold transferAccessState at h
  split at h
  · cases h
  · rename_i share hsh
    obtain ⟨hfound, -⟩ := Option.filter_eq_some_iff.mp hsh
    obtain ⟨hmem, hid⟩ := find?_some hfound
    split at h
    · cases h
    split at h
    · cases h
    · rename_i hnone
      split at h
      · cases h
      · rename_i hbelow
        refine ⟨⟨share, hmem, hid, fun maximum hmax => ?_⟩, hnone⟩
        simpa [hmax, Limit.le_saturatingAddI64_iff] using hbelow

theorem transferAccessState_existingGrant {grantId : ℕ} {counted : Bool}
    (h : transferAccessState key unlockToken now s = .existingGrant grantId counted) :
    ∃ grant ∈ s.grants, grant.id = grantId ∧ grant.counted = counted ∧ now < grant.expiresAt := by
  unfold transferAccessState at h
  split at h
  · cases h
  · split at h
    · cases h
    split at h
    · rename_i grant hfind
      cases h
      have hfound := List.find?_some hfind
      simp only [Bool.and_eq_true, decide_eq_true_eq] at hfound
      exact ⟨grant, List.mem_of_find?_eq_some hfind, rfl, rfl, hfound.1.2⟩
    · split at h <;> cases h

/-- A lease of a stored grant with an unused token is always accepted. -/
theorem insertLease_ok {token : String} {grantId : ℕ} {grant : Grant} (hgr : grant ∈ s.grants)
    (hid : grant.id = grantId) (hfr : ∀ lease ∈ s.leases, lease.tokenHash ≠ token) :
    ∃ s', insertLease token grantId now s = .ok s' := by
  obtain ⟨leases, hins⟩ := insert?_isSome
    (r := (⟨token, grantId, now, now, now + transferSessionTtl⟩ : Lease)) hfr
  refine ⟨{ s with leases }, ?_⟩
  rw [insertLease, if_pos (any_iff.mpr ⟨grant, hgr, by simpa using hid⟩), hins]

/-- A grant whose key is unused is refused only for an empty column. -/
theorem insertGrant_ok (hsh : ∃ share ∈ s.shares, share.id = key.shareId)
    (hkey : ∀ grant ∈ s.grants, grant.key ≠ key) (hresource : key.resourceKey ≠ "")
    (hactn : key.action ≠ "") :
    ∃ s' grant, insertGrant key now s = .ok (s', grant.id) ∧ grant ∈ s'.grants ∧
      s'.leases = s.leases := by
  obtain ⟨share, hsh, hshId⟩ := hsh
  have hfree : ∀ grant ∈ s.grants, grant.id ≠ nextRowid (s.grants.rows.map Grant.id) :=
    fun grant hgr => (lt_nextRowid (List.mem_map_of_mem hgr)).ne
  obtain ⟨grants, hins⟩ := insert?_isSome
    (r := (⟨nextRowid (s.grants.rows.map Grant.id), key.sessionTokenHash, key.shareId,
      key.resourceKey, key.action, false, now, now + transferSessionTtl⟩ : Grant)) hfree
  have hnokey : s.grants.any (fun grant => grant.key = key) = false := by
    rw [← Bool.not_eq_true, any_iff]
    rintro ⟨grant, hgr, hsame⟩
    exact hkey grant hgr (by simpa using hsame)
  have hshares : s.shares.any (fun share => share.id = key.shareId) = true :=
    any_iff.mpr ⟨share, hsh, by simpa using hshId⟩
  refine ⟨{ s with grants }, _, ?_, (mem_insert? hins).mpr (.inl rfl), rfl⟩
  simp only [insertGrant, hnokey, hshares, hresource, hactn, decide_false, Bool.or_self,
    Bool.not_true, Bool.false_eq_true, if_false, hins]

/-- A begin answers what the access query answers on the store it was given. -/
theorem begin_outcome {token : String} {s' : Store} {outcome : TransferLeaseBeginOutcome}
    (h : beginAuthorizedTransferLease now key unlockToken token s = .ok (s', outcome)) :
    outcome = (transferAccessState key unlockToken now s).availability.begun := by
  have hbegins := beginsLease h
  rw [← transferAccessState_cleanup]
  cases hbegins with
  | unauthorized hacc | limitReached hacc | shareUnavailable hacc
  | counted hacc | joined hacc | granted hacc => rw [hacc]; rfl

/-- With an unused lease token a begin fails only for an empty resource or action. -/
theorem begin_error {token : String} {e : DbError}
    (hfr : ∀ lease ∈ s.leases, lease.tokenHash ≠ token)
    (h : beginAuthorizedTransferLease now key unlockToken token s = .error e) :
    key.resourceKey = "" ∨ key.action = "" := by
  have hclean : ∀ lease ∈ (cleanupTransferState now s).leases, lease.tokenHash ≠ token :=
    fun lease hlease => hfr lease (mem_cleanup_leases.mp hlease).1
  simp only [beginAuthorizedTransferLease] at h
  split at h <;> rename_i hacc
  · cases h
  · rename_i grantId counted
    obtain ⟨grant, hmem, hid, -⟩ := transferAccessState_existingGrant _ _ _ _ hacc
    -- moving the expiry of an uncounted grant keeps its id
    obtain ⟨kept, hkept, hkeptId⟩ : ∃ kept ∈ (if counted then cleanupTransferState now s
        else setGrantExpiry grantId (now + transferSessionTtl) (cleanupTransferState now s)).grants,
        kept.id = grantId := by
      cases counted with
      | true => exact ⟨grant, hmem, hid⟩
      | false =>
        refine ⟨_, (mem_updateWhere).mpr ⟨grant, hmem, rfl⟩, ?_⟩
        split <;> exact hid
    have hleases : (if counted then cleanupTransferState now s
        else setGrantExpiry grantId (now + transferSessionTtl)
          (cleanupTransferState now s)).leases = (cleanupTransferState now s).leases := by
      split <;> rfl
    obtain ⟨s₃, hins⟩ := insertLease_ok now _ hkept hkeptId (by rwa [hleases])
    rw [hins] at h
    cases h
  · cases h
  · cases h
  · obtain ⟨⟨share, hsh, hshId, -⟩, hnone⟩ := transferAccessState_available _ _ _ _ hacc
    by_contra hemp
    obtain ⟨hresource, hactn⟩ := not_or.mp hemp
    have hkey : ∀ grant ∈ (cleanupTransferState now s).grants, grant.key ≠ key := by
      intro grant hgr hsame
      have hsome := existingGrant_of_key now key s hgr hsame
      simp [hnone] at hsome
    obtain ⟨s₂, grant, hins, hgr, hleases⟩ :=
      insertGrant_ok now key _ ⟨share, hsh, hshId⟩ hkey hresource hactn
    obtain ⟨s₃, hlease⟩ := insertLease_ok now _ hgr rfl (by rwa [hleases])
    simp [hins, hlease] at h

/-- The check and the begin of a transfer give the same answer at the same instant; the check
writes nothing, and with an unused lease token the begin inserts no row that is already there. -/
theorem transfer_check_agrees_with_begin (token : String) :
    (checkAuthorizedTransferAvailability now key unlockToken s).1 = s ∧
    (∀ s' outcome, beginAuthorizedTransferLease now key unlockToken token s = .ok (s', outcome) →
      outcome = (checkAuthorizedTransferAvailability now key unlockToken s).2.begun) ∧
    ((∀ lease ∈ s.leases, lease.tokenHash ≠ token) → ∀ e,
      beginAuthorizedTransferLease now key unlockToken token s = .error e →
        key.resourceKey = "" ∨ key.action = "") :=
  ⟨rfl, fun _ _ h => begin_outcome now key unlockToken s h,
    fun hfr _ h => begin_error now key unlockToken s hfr h⟩

end Agreement

section StaleTransfer

def fileTransfer : TransferKey := ⟨"client", 1, "file", "download"⟩

def downloadShare : NewShare where
  tokenHash := "share"
  linkAlias := none
  path := ['a']
  isDirectory := false
  permission := .downloadOnly
  expires := none
  maxDownloads := some 1
  maxUploadSize := none
  uploadTotal := none
  uploadFiles := none
  passwordHash := none
  uploadConflictStrategy := .reject
  createdBy := 1

/-- A share of one download whose only transfer was started and never finished. -/
def staleTransfer : Store :=
  let s := committed .empty (createShare 0 downloadShare none .empty)
  committed s (beginAuthorizedTransferLease 0 fileTransfer none "first" s)

/-- Once the unfinished transfer has expired, its grant is no obstacle to the same transfer. -/
theorem transfer_check_agrees_with_begin_again :
    staleTransfer.grants.any (fun grant => grant.key = fileTransfer) = true ∧
    (∀ s' outcome, beginAuthorizedTransferLease (seconds 900) fileTransfer none "second"
      staleTransfer = .ok (s', outcome) → outcome = .newLease) ∧
    ∀ e, beginAuthorizedTransferLease (seconds 900) fileTransfer none "second"
      staleTransfer ≠ .error e := by
  obtain ⟨-, hagree, hunique⟩ :=
    transfer_check_agrees_with_begin (seconds 900) fileTransfer none staleTransfer "second"
  have hans : (checkAuthorizedTransferAvailability (seconds 900) fileTransfer none
      staleTransfer).2.begun = .newLease := by decide +kernel
  have hfr : ∀ lease ∈ staleTransfer.leases.rows, lease.tokenHash ≠ "second" := by
    decide +kernel
  refine ⟨by decide +kernel, fun s' outcome h => (hagree s' outcome h).trans hans, ?_⟩
  intro e h
  exact absurd (hunique hfr e h) (by decide)

end StaleTransfer

end VaultLink
