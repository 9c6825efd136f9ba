import VaultLink.TransferServer

/-!
# Share rows under transactions

What a transaction may do to the row of a share, stated once for all calls. A row stays in place
with its epoch kept or advanced, or its share is deleted; the epoch advances whenever the upload
policy changes, the password changes only when it is set, and the download counter only in a
lease transaction.
-/
namespace VaultLink

open KeyedTable

section Columns

/-- The columns that decide what an upload to a share may do. -/
structure UploadPolicy where
  relativePath : Text
  active : Bool
  uploadConflictStrategy : UploadConflictStrategy
  maxUploadTotalSize : Option Limit
  maxUploadFiles : Option Limit
  passwordHash : Option String
deriving DecidableEq

def Share.policy (share : Share) : UploadPolicy :=
  ⟨share.relativePath, share.active, share.uploadConflictStrategy, share.maxUploadTotalSize,
    share.maxUploadFiles, share.passwordHash⟩

/-- The calls that revise a share even when they write the values it already has. -/
def TransferCall.rewrites (share : Share) : TransferCall → Bool
  | .renamePaths oldPath _ isDirectory _ => pathMatches oldPath isDirectory share
  | .setSharePassword id _ _ => share.id = id
  | _ => false

end Columns

section Steps

/-- What a call may do to a share row that it leaves in place. -/
structure ShareStep (call : TransferCall) (share share' : Share) : Prop where
  epoch_le : share.uploadPolicyEpoch ≤ share'.uploadPolicyEpoch
  epoch_lt : call.rewrites share = true ∨ share'.policy ≠ share.policy →
    share.uploadPolicyEpoch < share'.uploadPolicyEpoch
  password_eq : (∀ hash action, call ≠ .setSharePassword share.id hash action) →
    share'.passwordHash = share.passwordHash
  count_eq : call.servesLease = false → share'.downloadCount = share.downloadCount

variable {call : TransferCall} {share : Share} {id : ℕ} {s s' : Store}

/-- A call that neither rewrites a row nor changes its policy. -/
theorem ShareStep.of_policy_eq {share' : Share} (h : call.rewrites share = false)
    (hep : share'.uploadPolicyEpoch = share.uploadPolicyEpoch)
    (hpol : share'.policy = share.policy)
    (hcount : call.servesLease = false → share'.downloadCount = share.downloadCount) :
    ShareStep call share share' := by
  refine ⟨hep.ge, ?_, fun _ => congrArg UploadPolicy.passwordHash hpol, hcount⟩
  rintro (hrew | hchanged)
  · rw [h] at hrew
    cases hrew
  · exact absurd hpol hchanged

theorem ShareStep.refl (h : call.rewrites share = false) : ShareStep call share share :=
  ShareStep.of_policy_eq h rfl rfl fun _ => rfl

/-- A call that advances the epoch of a row. -/
theorem ShareStep.of_lt {share' : Share}
    (h : share.uploadPolicyEpoch < share'.uploadPolicyEpoch)
    (hpw : (∀ hash action, call ≠ .setSharePassword share.id hash action) →
      share'.passwordHash = share.passwordHash)
    (hcount : share'.downloadCount = share.downloadCount) : ShareStep call share share' :=
  ⟨h.le, fun _ => h, hpw, fun _ => hcount⟩

/-- The assignment of `update_share_controls` advances the epoch when it changes the policy. -/
theorem ShareStep.controlled (active : Option Bool) (strategy : Option UploadConflictStrategy)
    (limits : Option (Limit × Limit)) (h : call.rewrites share = false) :
    ShareStep call share (share.controlled active strategy limits) := by
  refine ⟨Nat.le_add_right _ _, ?_, fun _ => rfl, fun _ => rfl⟩
  rintro (hrew | hpol)
  · rw [h] at hrew
    cases hrew
  · by_contra hep
    refine hpol ?_
    simp only [Share.controlled, not_lt, add_le_iff_nonpos_right, nonpos_iff_eq_zero,
      ite_eq_right_iff, one_ne_zero, imp_false, Bool.or_eq_true, not_or] at hep
    obtain ⟨⟨⟨hact, hstrategy⟩, htot⟩, hfiles⟩ := hep
    simp only [Share.policy, Share.controlled, UploadPolicy.mk.injEq, true_and, and_true]
    cases active <;> cases strategy <;> cases limits <;> simp_all

/-- Creating a share leaves the stored rows alone. -/
theorem createShare_find? {now : Instant} {new : NewShare} {detail : Option String} {newId : ℕ}
    (h : createShare now new detail s = .ok (s', newId))
    (hfind : s.shares.find? id = some share) : s'.shares.find? id = some share := by
  obtain ⟨row, shares, audit, hins, rfl, -⟩ := createShare_inserts h
  obtain ⟨hmem, hid⟩ := find?_some hfind
  exact find?_eq_some_iff.mpr ⟨(mem_insert? hins).mpr (Or.inr hmem), hid⟩

/-- The columns that belong to a share from its creation to its deletion. -/
structure ShareOrigin where
  tokenHash : String
  linkAlias : Option String
  isDirectory : Bool
  permission : Permission
  expiresAt : Option Instant
  maxDownloads : Option Limit
  maxUploadSize : Option Limit
  createdBy : ℕ
  createdAt : Instant

def Share.origin (share : Share) : ShareOrigin :=
  ⟨share.tokenHash, share.linkAlias, share.isDirectory, share.permission, share.expiresAt,
    share.maxDownloads, share.maxUploadSize, share.createdBy, share.createdAt⟩

/-- Everything a call can do to the table of shares. -/
inductive ShareChange (now : Instant) (s : Store) (call : TransferCall) (s' : Store) : Prop
  | kept (shares_eq : s'.shares = s.shares) (spared : ∀ share, call.rewrites share = false)
  | updated (p : Share → Bool) (f : Share → Share) (id_eq : ∀ share, (f share).id = share.id)
      (shares_eq : s'.shares = s.shares.updateWhere p f id_eq)
      (origin_eq : ∀ share, (f share).origin = share.origin)
      (selected : ∀ share, p share = true → ShareStep call share (f share))
      (spared : ∀ share, p share = false → call.rewrites share = false)
  | created (new : NewShare) (detail : Option String) (id : ℕ)
      (call_eq : call = .createShare new detail)
      (result_eq : VaultLink.createShare now new detail s = .ok (s', id))
  | deleted (id : ℕ) (call_eq : call = .deleteShare id)
      (shares_eq : s'.shares = s.shares.deleteWhere fun share => share.id = id)

theorem ShareChange.of_keepsUploads {now : Instant} (h : KeepsUploads s s')
    (hspared : ∀ share, call.rewrites share = false) (hlease : call.servesLease = true) :
    ShareChange now s call s' := by
  obtain hshares | ⟨counted, hshares⟩ := h.shares_eq
  · exact .kept hshares hspared
  · refine .updated _ _ (by intros; rfl) hshares (fun _ => rfl) (fun share _ => ?_) fun share _ =>
      hspared share
    exact .of_policy_eq (hspared share) rfl rfl fun hnot => by simp [hlease] at hnot

theorem execute_shares (now : Instant) (s : Store) (call : TransferCall) :
    ShareChange now s call (call.execute now s) := by
  cases call with
  | beginLease | completeLease | cancelLease | heartbeatLease =>
    exact .of_keepsUploads (TransferCall.keepsUploads now s rfl) (fun _ => rfl) rfl
  | beginReservation | extendReservation | commitReservation | cancelReservation =>
    exact .kept (TransferCall.keepsShares now s rfl).shares_eq fun _ => rfl
  | createShare new detail =>
    exact committed_inv (.kept rfl fun _ => rfl) fun _ id h => .created new detail id rfl h
  | deleteShare id => exact .deleted id rfl rfl
  | renamePaths =>
    exact .updated _ _ (by intros; rfl) rfl (fun _ => rfl)
      (fun _ _ => .of_lt (Nat.lt_succ_self _) (fun _ => rfl) rfl) fun _ h => h
  | deactivatePaths =>
    exact .updated _ _ (by intros; rfl) rfl (fun _ => rfl)
      (fun _ _ => .of_lt (Nat.lt_succ_self _) (fun _ => rfl) rfl) fun _ _ => rfl
  | setShareActive other active =>
    refine .updated _ _ (by intros; rfl) rfl (fun _ => rfl)
      (fun share _ => ⟨Nat.le_add_right _ _, ?_, fun _ => rfl, fun _ => rfl⟩) fun _ _ => rfl
    rintro (hrew | hpol)
    · cases hrew
    · by_cases hact : share.active = active
      · exact absurd (by simp [Share.policy, hact]) hpol
      · simp [hact]
  | setSharePassword other hash action =>
    refine .updated _ _ (by intros; rfl) rfl (fun _ => rfl) (fun share hoth =>
      .of_lt (Nat.lt_succ_self _) (fun hnot => ?_) rfl) fun _ h => h
    exact absurd (by rw [of_decide_eq_true hoth]) (hnot hash action)
  | updateShareControls id active strategy =>
    exact updateShareControls_inv (.kept rfl fun _ => rfl) (.kept rfl fun _ => rfl) fun limits =>
      .updated _ _ (by intros; rfl) rfl (fun _ => rfl)
        (fun _ _ => .controlled active strategy limits rfl) fun _ _ => rfl
  | createUnlockSession => exact createUnlockSession_inv fun _ _ => .kept rfl fun _ => rfl

/-- Every call leaves a stored share in place or deletes it. -/
theorem execute_share (now : Instant) (s : Store) (call : TransferCall)
    (hfind : s.shares.find? id = some share) :
    call = .deleteShare id ∨
      ∃ share', (call.execute now s).shares.find? id = some share' ∧
        ShareStep call share share' := by
  obtain ⟨hshares, hspared⟩ | ⟨p, f, hid, hshares, -, hsel, hspared⟩ |
    ⟨new, detail, _, rfl, hres⟩ | ⟨other, rfl, hshares⟩ := execute_shares now s call
  · exact .inr ⟨share, by rwa [hshares], .refl (hspared share)⟩
  · refine .inr ⟨if p share then f share else share, ?_, ?_⟩
    · rw [hshares, find?_updateWhere, hfind]
      rfl
    · cases hp : p share with
      | true => exact hsel share hp
      | false => exact .refl (hspared share hp)
  · exact .inr ⟨share, createShare_find? hres hfind, .refl rfl⟩
  · by_cases hoth : other = id
    · exact .inl (by rw [hoth])
    · refine .inr ⟨share, ?_, .refl rfl⟩
      rw [hshares, find?_deleteWhere, hfind, Option.filter_some, (find?_some hfind).2]
      simp [Ne.symm hoth]

/-- A row that is there before and after a call belongs to the same share. -/
theorem execute_origin {share' : Share} (now : Instant) (s : Store) (call : TransferCall)
    (hfind : s.shares.find? id = some share)
    (hfind' : (call.execute now s).shares.find? id = some share') :
    share'.origin = share.origin := by
  obtain ⟨hshares, -⟩ | ⟨p, f, hid, hshares, horigin, -⟩ | ⟨new, detail, _, -, hres⟩ |
    ⟨_, -, hshares⟩ := execute_shares now s call
  · rw [hshares, hfind] at hfind'
    rw [Option.some.inj hfind']
  · rw [hshares, find?_updateWhere, hfind, Option.map_some] at hfind'
    rw [← Option.some.inj hfind']
    split
    · exact horigin share
    · rfl
  · rw [createShare_find? hres hfind] at hfind'
    rw [Option.some.inj hfind']
  · rw [hshares, find?_deleteWhere, hfind] at hfind'
    rw [Option.some.inj (Option.filter_eq_some_iff.mp hfind').1]

/-- A row under an id that was free is a share that has just been created. -/
theorem execute_share_new (now : Instant) (s : Store) (call : TransferCall)
    (hnone : s.shares.find? id = none) (hfind : (call.execute now s).shares.find? id = some share) :
    share.downloadCount = 0 ∧ ∃ new detail s', call = .createShare new detail ∧
      createShare now new detail s = .ok (s', id) := by
  obtain ⟨hshares, -⟩ | ⟨p, f, hid, hshares, -⟩ | ⟨new, detail, newId, rfl, hres⟩ |
    ⟨_, -, hshares⟩ := execute_shares now s call
  · rw [hshares, hnone] at hfind
    cases hfind
  · rw [hshares, find?_updateWhere, hnone] at hfind
    cases hfind
  · obtain ⟨row, shares, audit, hins, haft, rfl, -, hcount, -⟩ := createShare_inserts hres
    rw [haft, find?_insert? hins] at hfind
    split at hfind
    · rename_i hid
      cases hfind
      exact ⟨hcount, new, detail, _, rfl, hid ▸ hres⟩
    · rw [hnone] at hfind
      cases hfind
  · rw [hshares, find?_deleteWhere, hnone] at hfind
    cases hfind

end Steps

section Transfers

/-- The transfer tables of two stores are the same. -/
structure KeepsTransfers (s s' : Store) : Prop where
  grants_eq : s'.grants = s.grants
  leases_eq : s'.leases = s.leases
  monthlyCounts_eq : s'.monthlyCounts = s.monthlyCounts

variable {s s' : Store}

theorem KeepsShares.keepsTransfers (h : KeepsShares s s') : KeepsTransfers s s' :=
  ⟨h.grants_eq, h.leases_eq, h.monthlyCounts_eq⟩

/-- Outside the lease transactions only the deletion of a share touches transfers. -/
theorem execute_transfers (now : Instant) (s : Store) (call : TransferCall)
    (hlease : call.servesLease = false) (hdel : ∀ id, call ≠ .deleteShare id) :
    KeepsTransfers s (call.execute now s) := by
  cases call with
  | beginLease | completeLease | cancelLease | heartbeatLease => cases hlease
  | beginReservation | extendReservation | commitReservation | cancelReservation =>
    exact (TransferCall.keepsShares now s rfl).keepsTransfers
  | renamePaths | deactivatePaths | setShareActive | setSharePassword => exact ⟨rfl, rfl, rfl⟩
  | createShare =>
    refine committed_inv (P := KeepsTransfers s) ⟨rfl, rfl, rfl⟩ fun s' newId h => ?_
    obtain ⟨_, _, _, -, rfl, -⟩ := createShare_inserts h
    exact ⟨rfl, rfl, rfl⟩
  | deleteShare id => exact absurd rfl (hdel id)
  | updateShareControls =>
    exact updateShareControls_inv (P := KeepsTransfers s) ⟨rfl, rfl, rfl⟩ ⟨rfl, rfl, rfl⟩
      fun _ => ⟨rfl, rfl, rfl⟩
  | createUnlockSession =>
    exact createUnlockSession_inv (P := KeepsTransfers s) fun _ _ => ⟨rfl, rfl, rfl⟩

end Transfers

end VaultLink
