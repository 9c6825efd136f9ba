import VaultLink.TransferAccess
import VaultLink.TransferServer

/-!
# The download limit

A share with a download limit admits a new grant only when its counter and the grants
that live leases are serving leave room. Grants are counted later, possibly by a
heartbeat that finds a lease long after its expiry, so the counter alone is not
inductive. The invariant bounds the counter together with every stored uncounted grant,
live or not. It is enough because admission runs right after a cleanup at the same
reading, and that cleanup leaves no uncounted grant without a live lease: the number
admission looks at is then the number of all stored uncounted grants.
-/
namespace VaultLink

open Store
open TransferServer
open KeyedTable

/-- Stored grants of a share that have not been counted, whatever their expiry. -/
def Store.uncountedGrants (s : Store) (shareId : ℕ) : ℕ :=
  s.grants.count fun grant => grant.shareId = shareId && !grant.counted

structure DownloadLimitInv (s : Store) : Prop where
  grant_share : ∀ grant ∈ s.grants, ∃ share ∈ s.shares, share.id = grant.shareId
  within : ∀ share ∈ s.shares, ∀ maximum, share.maxDownloads = some maximum →
    share.downloadCount + s.uncountedGrants share.id ≤ maximum.value

/-- `s'` has the shares of `s` and no more uncounted grants for any of them. -/
structure Releases (s s' : Store) : Prop where
  shares_eq : s'.shares = s.shares
  grant_share : ∀ grant ∈ s'.grants, ∃ grant₀ ∈ s.grants, grant₀.shareId = grant.shareId
  uncounted_le : ∀ shareId, s'.uncountedGrants shareId ≤ s.uncountedGrants shareId

variable {s s' : Store} {now : Instant}

namespace Releases

/-- A statement that touches neither shares nor grants. -/
theorem of_eq (hshares : s'.shares = s.shares) (hgrants : s'.grants = s.grants) :
    Releases s s' := by
  refine ⟨hshares, fun grant hgr => ⟨grant, by rwa [← hgrants], rfl⟩, fun id => ?_⟩
  rw [uncountedGrants, uncountedGrants, hgrants]

theorem deleteGrantsWhere (p : Grant → Bool) (s : Store) :
    Releases s (VaultLink.deleteGrantsWhere p s) := by
  refine ⟨rfl, ?_, fun id => s.grants.count_deleteWhere_le p _⟩
  intro grant hgr
  exact ⟨grant, (mem_deleteWhere.mp hgr).1, rfl⟩

theorem setGrantExpiry (grantId : ℕ) (expires : Instant) (s : Store) :
    Releases s (VaultLink.setGrantExpiry grantId expires s) := by
  constructor
  · rfl
  · intro grant hgr
    obtain ⟨grant₀, hgr₀, heq⟩ := (mem_updateWhere).mp hgr
    refine ⟨grant₀, hgr₀, ?_⟩
    rw [← heq]
    split <;> rfl
  · intro id
    unfold uncountedGrants VaultLink.setGrantExpiry
    rw [count_updateWhere_of_eq (by intros; rfl)]
    intros
    rfl

theorem insertLease {token : String} {grantId : ℕ}
    (h : VaultLink.insertLease token grantId now s = .ok s') : Releases s s' := by
  obtain ⟨-, leases, -, rfl⟩ := insertLease_inserts h
  exact of_eq rfl rfl

end Releases

/-- Fewer uncounted grants keep the invariant. -/
theorem DownloadLimitInv.releases (hinv : DownloadLimitInv s) (h : Releases s s') :
    DownloadLimitInv s' := by
  constructor
  · intro grant hgr
    obtain ⟨grant₀, hgr₀, hid⟩ := h.grant_share grant hgr
    obtain ⟨share, hsh, hshId⟩ := hinv.grant_share grant₀ hgr₀
    exact ⟨share, by rwa [h.shares_eq], hshId.trans hid⟩
  · intro share hsh maximum hmax
    rw [h.shares_eq] at hsh
    have := hinv.within share hsh maximum hmax
    have := h.uncounted_le share.id
    omega

section Admission

/-- After a cleanup every uncounted grant is unexpired and served by a live lease. -/
theorem cleanup_uncounted_live (now : Instant) (s : Store) (grant : Grant)
    (hgr : grant ∈ (cleanupTransferState now s).grants) (hcounted : grant.counted = false) :
    now < grant.expiresAt ∧ (cleanupTransferState now s).liveLeased now grant = true := by
  obtain ⟨hmem, hune, hserved⟩ := mem_cleanup_grants.mp hgr
  rw [liveLeased_cleanup hmem hune]
  exact ⟨hune, hserved.resolve_left (by simp [hcounted])⟩

/-- So the number admission compares with the limit is the number of stored uncounted
grants. -/
theorem pendingGrants_cleanup (now : Instant) (s : Store) (shareId : ℕ) :
    (cleanupTransferState now s).pendingGrants shareId now =
      (cleanupTransferState now s).uncountedGrants shareId := by
  refine count_congr fun grant hgr => ?_
  cases hcounted : grant.counted with
  | true => simp
  | false =>
    obtain ⟨hune, hlive⟩ := cleanup_uncounted_live now s grant hgr hcounted
    simp [hune, hlive]

/-- An admitted grant takes a slot that the limit has room for. -/
theorem DownloadLimitInv.insertGrant {key : TransferKey} {unlockToken : Option String} {grantId : ℕ}
    (hinv : DownloadLimitInv (cleanupTransferState now s))
    (hacc : transferAccessState key unlockToken now (cleanupTransferState now s) = .available)
    (h : VaultLink.insertGrant key now (cleanupTransferState now s) = .ok (s', grantId)) :
    DownloadLimitInv s' := by
  obtain ⟨⟨share, hsh, hshId, hroom⟩, -⟩ := transferAccessState_available _ _ _ _ hacc
  rw [pendingGrants_cleanup] at hroom
  generalize cleanupTransferState now s = s₁ at *
  obtain ⟨-, -, grants, hins, rfl⟩ := insertGrant_row h
  have hcount : ∀ id, uncountedGrants { s₁ with grants } id =
      s₁.uncountedGrants id + if key.shareId = id then 1 else 0 := by
    intro id
    unfold uncountedGrants
    rw [count_insert? hins]
    by_cases hid : key.shareId = id <;> simp [newGrant, hid]
  constructor
  · intro grant hgr
    rcases (mem_insert? hins).mp hgr with rfl | hgr
    · exact ⟨share, hsh, hshId⟩
    · exact hinv.grant_share grant hgr
  · intro other hoth maximum hmax
    rw [hcount]
    by_cases hid : key.shareId = other.id
    · obtain rfl : other = share :=
        s₁.shares.eq_of_key_eq hoth hsh (hid.symm.trans hshId.symm)
      have := hroom maximum hmax
      rw [if_pos hid, ← hid]
      omega
    · rw [if_neg hid, Nat.add_zero]
      exact hinv.within other hoth maximum hmax

end Admission

section Counting

/-- Counting a stored uncounted grant moves one unit from the grants to the counter. -/
theorem DownloadLimitInv.countGrant {grant : Grant} (hinv : DownloadLimitInv s)
    (hgr : grant ∈ s.grants) (hcounted : grant.counted = false)
    (h : VaultLink.countGrant now grant s = .ok s') : DownloadLimitInv s' := by
  obtain ⟨-, rfl⟩ := countGrant_ok h
  have honly : ∀ row ∈ s.grants, (row.id = grant.id && !row.counted) = true → row = grant := by
    intro row hrow hcond
    simp only [Bool.and_eq_true, decide_eq_true_eq] at hcond
    exact s.grants.eq_of_key_eq hrow hgr hcond.1
  have hone : s.grants.count (fun row => row.id = grant.id && !row.counted) = 1 :=
    count_eq_one hgr (by simp [hcounted]) honly
  constructor
  · intro row hrow
    obtain ⟨row₀, hrow₀, heq⟩ := (mem_updateWhere).mp hrow
    obtain ⟨share, hsh, hid⟩ := hinv.grant_share row₀ hrow₀
    refine ⟨_, (mem_updateWhere).mpr ⟨share, hsh, rfl⟩, ?_⟩
    rw [← heq]
    split <;> split <;> exact hid
  · intro share hsh maximum hmax
    obtain ⟨share₀, hsh₀, rfl⟩ := (mem_updateWhere).mp hsh
    unfold uncountedGrants markGrantCounted
    by_cases hid : share₀.id = grant.shareId
    · have hleave := count_updateWhere_leave (t := s.grants)
        (p := fun row => row.id = grant.id && !row.counted)
        (q := fun row => row.shareId = share₀.id && !row.counted)
        (f := fun row => { row with counted := true, expiresAt := now + transferSessionTtl })
        (by intros; rfl) (by
          intro row hrow hcond
          rw [honly row hrow hcond]
          simp [hid, hcounted])
      simp only [hid, decide_true, if_true] at hmax ⊢
      have := hinv.within share₀ hsh₀ maximum hmax
      rw [uncountedGrants, hid] at this
      rw [hone, hid] at hleave
      omega
    · simp only [hid, decide_false, Bool.false_eq_true, if_false] at hmax ⊢
      rw [count_updateWhere_of_eq (by intros; rfl)]
      · exact hinv.within share₀ hsh₀ maximum hmax
      · intro row hrow hcond
        rw [honly row hrow hcond]
        simp [Ne.symm hid]

end Counting

section LeaseCalls

variable {now : Instant} {token : String} {s s' : Store}

theorem DownloadLimitInv.statements (hinv : DownloadLimitInv s) (h : LeaseStatements s s') :
    DownloadLimitInv s' := by
  induction h with
  | refl => exact hinv
  | tail _ hsta ih =>
    cases hsta with
    | deleteLeases | renewLease | audits => exact ih.releases (.of_eq rfl rfl)
    | deleteGrants => exact ih.releases (.deleteGrantsWhere _ _)
    | setGrantExpiry => exact ih.releases (.setGrantExpiry _ _ _)
    | countGrant hgr hcounted hcount => exact ih.countGrant hgr hcounted hcount

theorem DownloadLimitInv.beginLease {key : TransferKey} {unlockToken : Option String}
    {outcome : TransferLeaseBeginOutcome} (hinv : DownloadLimitInv s)
    (h : beginAuthorizedTransferLease now key unlockToken token s = .ok (s', outcome)) :
    DownloadLimitInv s' := by
  have hclean := hinv.statements (cleanup_statements .refl now)
  cases beginsLease h with
  | unauthorized => exact hinv
  | counted _ hlease => exact hclean.releases (.insertLease hlease)
  | joined _ hlease =>
    exact (hclean.releases (.setGrantExpiry _ _ _)).releases (.insertLease hlease)
  | limitReached | shareUnavailable => exact hclean
  | granted hacc hgr hlease =>
    exact (hclean.insertGrant hacc hgr).releases (.insertLease hlease)

end LeaseCalls

section OtherCalls

/-- A statement that rewrites share rows but neither their limit nor their counter. -/
theorem DownloadLimitInv.updateShares {p : Share → Bool} {f : Share → Share}
    (hf : ∀ share, (f share).id = share.id) (hinv : DownloadLimitInv s)
    (hshares : s'.shares = s.shares.updateWhere p f hf) (hgrants : s'.grants = s.grants)
    (hmax : ∀ share, (f share).maxDownloads = share.maxDownloads)
    (hcount : ∀ share, (f share).downloadCount = share.downloadCount) : DownloadLimitInv s' := by
  constructor
  · intro grant hgr
    rw [hgrants] at hgr
    obtain ⟨share, hsh, hid⟩ := hinv.grant_share grant hgr
    rw [hshares]
    refine ⟨_, (mem_updateWhere hf).mpr ⟨share, hsh, rfl⟩, ?_⟩
    split
    · rw [hf, hid]
    · exact hid
  · intro share hsh maximum hmaxi
    rw [hshares] at hsh
    obtain ⟨share₀, hsh₀, rfl⟩ := (mem_updateWhere hf).mp hsh
    have hwithin := hinv.within share₀ hsh₀ maximum
    unfold uncountedGrants at hwithin ⊢
    rw [hgrants]
    split at hmaxi
    · rename_i hp
      rw [hmax] at hmaxi
      rw [if_pos hp, hf, hcount]
      exact hwithin hmaxi
    · rename_i hp
      rw [if_neg hp]
      exact hwithin hmaxi

theorem DownloadLimitInv.deleteShare (id : ℕ) (hinv : DownloadLimitInv s) :
    DownloadLimitInv (VaultLink.deleteShare id s).1 := by
  constructor
  · intro grant hgr
    obtain ⟨hmem, hoth⟩ := mem_deleteWhere.mp hgr
    obtain ⟨share, hsh, hshId⟩ := hinv.grant_share grant hmem
    refine ⟨share, mem_deleteWhere.mpr ⟨hsh, ?_⟩, hshId⟩
    rw [hshId]
    exact hoth
  · intro share hsh maximum hmax
    have hmem := (mem_deleteWhere.mp hsh).1
    have hle :=
      (Releases.deleteGrantsWhere (fun grant => grant.shareId = id) s).uncounted_le share.id
    have := hinv.within share hmem maximum hmax
    exact (Nat.add_le_add_left hle _).trans this

theorem DownloadLimitInv.createShare {new : NewShare} {detail : Option String} {id : ℕ}
    (hinv : DownloadLimitInv s) (h : VaultLink.createShare now new detail s = .ok (s', id)) :
    DownloadLimitInv s' := by
  obtain ⟨row, shares, audit, hins, rfl, hid, hnext, hcount, -⟩ := createShare_inserts h
  constructor
  · intro grant hgr
    obtain ⟨share, hsh, hid⟩ := hinv.grant_share grant hgr
    exact ⟨share, (mem_insert? hins).mpr (Or.inr hsh), hid⟩
  · intro share hsh maximum hmax
    rcases (mem_insert? hins).mp hsh with rfl | hsh
    · have hnone : s.uncountedGrants share.id = 0 := by
        refine count_eq_zero fun grant hgr => ?_
        obtain ⟨owner, hown, howned⟩ := hinv.grant_share grant hgr
        have hlt := lt_nextRowid (List.mem_map_of_mem (f := Share.id) hown)
        simp [← howned, hid, hnext, hlt.ne]
      exact (Nat.add_eq_zero_iff.mpr ⟨hcount, hnone⟩).trans_le (Nat.zero_le _)
    · exact hinv.within share hsh maximum hmax

end OtherCalls

section Runs

theorem DownloadLimitInv.keepsShares (hinv : DownloadLimitInv s) (h : KeepsShares s s') :
    DownloadLimitInv s' :=
  hinv.releases (Releases.of_eq h.shares_eq h.grants_eq)

theorem DownloadLimitInv.execute (now : Instant) (s : Store) (call : TransferCall)
    (hinv : DownloadLimitInv s) : DownloadLimitInv (call.execute now s) := by
  cases call with
  | beginLease => exact committed_inv hinv fun _ _ h => hinv.beginLease h
  | completeLease => exact hinv.statements (complete_statements now _ s)
  | cancelLease => exact hinv.statements (cancel_statements now _ s)
  | heartbeatLease => exact hinv.statements (heartbeat_statements now _ s)
  | beginReservation | extendReservation | commitReservation | cancelReservation =>
    exact hinv.keepsShares (TransferCall.keepsShares now s rfl)
  | createShare => exact committed_inv hinv fun _ _ h => hinv.createShare h
  | deleteShare id => exact hinv.deleteShare id
  | renamePaths | deactivatePaths | setShareActive | setSharePassword =>
    exact hinv.updateShares (by intros; rfl) rfl rfl (by intros; rfl) (by intros; rfl)
  | updateShareControls =>
    exact updateShareControls_inv hinv (hinv.releases (Releases.of_eq rfl rfl)) fun _ =>
      hinv.updateShares (by intros; rfl) rfl rfl (by intros; rfl) (by intros; rfl)
  | createUnlockSession =>
    exact createUnlockSession_inv fun _ _ => hinv.releases (Releases.of_eq rfl rfl)

theorem DownloadLimitInv.empty : DownloadLimitInv empty :=
  ⟨fun _ h => absurd h (not_mem_empty _), fun _ h => absurd h (not_mem_empty _)⟩

/-- In every committed state of every interleaving the counter of a share and its stored
uncounted grants together stay within the share's download limit. -/
theorem download_count_within_limit (events : List ServerEvent) (share : Share)
    (hshare : share ∈ (run events).store.shares) (maximum : Limit)
    (hmax : share.maxDownloads = some maximum) :
    share.downloadCount + (run events).store.uncountedGrants share.id
        ≤ maximum.value ∧
      share.downloadCount ≤ maximum.value := by
  have hinv := run_invariant DownloadLimitInv DownloadLimitInv.empty
    DownloadLimitInv.execute events
  have hwithin := hinv.within share hshare maximum hmax
  exact ⟨hwithin, by omega⟩

/-- A one-download share whose only lease is found by a heartbeat a day after it began. -/
def lateHeartbeatRun : List ServerEvent :=
  [.arrive (.createShare ⟨"share", none, ['a'], false, .downloadOnly, none, some 1, none, none,
      none, none, .reject, 1⟩ none) 0, .execute 0 0,
    .arrive (.beginLease ⟨"session", 1, "file", "download"⟩ none "lease") 5, .execute 0 0,
    .arrive (.heartbeatLease "lease") (seconds 86400), .execute 0 7]

/-- The share row after `lateHeartbeatRun`: its one download has been counted. -/
def lateHeartbeatShare : Share :=
  { id := 1, tokenHash := "share", linkAlias := none, relativePath := ['a'], isDirectory := false
    permission := .downloadOnly, expiresAt := none
    maxDownloads := some ⟨1, by decide, by decide⟩, maxUploadSize := none
    maxUploadTotalSize := none, maxUploadFiles := none, downloadCount := 1, active := true
    createdBy := 1, createdAt := 0, passwordHash := none, uploadConflictStrategy := .reject
    uploadPolicyEpoch := 0 }

theorem download_count_within_limit_lateHeartbeat :
    lateHeartbeatShare ∈ (run lateHeartbeatRun).store.shares ∧
      1 + (run lateHeartbeatRun).store.uncountedGrants 1 ≤ 1 ∧ 1 ≤ 1 :=
  have hsh : lateHeartbeatShare ∈ (run lateHeartbeatRun).store.shares := by decide
  ⟨hsh, download_count_within_limit lateHeartbeatRun lateHeartbeatShare hsh
    ⟨1, by decide, by decide⟩ rfl⟩

end Runs

end VaultLink
