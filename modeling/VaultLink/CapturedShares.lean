import VaultLink.PolicyEpoch

/-!
# Shares known by their id and policy epoch

A public upload reads its share, remembers the id and the policy epoch, and reserves quota
later under this pair. While the share exists its epoch only grows, and the same epoch means
the same policy. But `shares` has no `AUTOINCREMENT`: when the last share is deleted, the next
one gets its id and starts at epoch zero again, and a reservation under the old pair then
goes to the new share.
-/
namespace VaultLink

open TransferServer
open History

section Captured

variable {id : ℕ} {share : Share} {s : Store}

/-- The row of the share is gone or belongs to the same share, and as long as its epoch is the
same so is its policy. -/
def StillCaptured (id : ℕ) (share : Share) (s : Store) : Prop :=
  ∀ found, s.shares.find? id = some found → share.uploadPolicyEpoch ≤ found.uploadPolicyEpoch ∧
    found.origin = share.origin ∧
    (found.uploadPolicyEpoch = share.uploadPolicyEpoch → found.policy = share.policy)

/-- The transaction does not create a share under the id. -/
def sparesId (id : ℕ) (s : Store) (x : Execution) : Bool :=
  match x.call with
  | .createShare _ _ => nextRowid (s.shares.rows.map Share.id) ≠ id
  | _ => true

theorem StillCaptured.of_find? (hfind : s.shares.find? id = some share) :
    StillCaptured id share s := by
  intro found hfound
  rw [hfind] at hfound
  cases hfound
  exact ⟨le_rfl, rfl, fun _ => rfl⟩

theorem StillCaptured.after {x : Execution} (h : StillCaptured id share s)
    (hspares : sparesId id s x = true) : StillCaptured id share (x.after s) := by
  intro found hfound
  cases hfind : s.shares.find? id with
  | none =>
    -- A row that appears is a new share, and no new share has this id.
    obtain ⟨-, new, detail, s', hcall, hres⟩ := execute_share_new x.now s x.call hfind hfound
    obtain ⟨_, _, _, -, -, -, hid, -⟩ := createShare_inserts hres
    simp [sparesId, hcall, ← hid] at hspares
  | some before =>
    obtain ⟨hle, horigin, hpol⟩ := h before hfind
    have horigin' := execute_origin x.now s x.call hfind hfound
    obtain hdel | ⟨after, haft, hstep⟩ := execute_share x.now s x.call hfind
    · rw [Execution.after, hdel, TransferCall.execute, deleteShare] at hfound
      dsimp only [insertRequiredAudits, deleteGrantsWhere] at hfound
      rw [KeyedTable.find?_deleteWhere, hfind, Option.filter_some] at hfound
      simp [(KeyedTable.find?_some hfind).2] at hfound
    · cases hfound.symm.trans haft
      refine ⟨hle.trans hstep.epoch_le, horigin'.trans horigin, fun hep => ?_⟩
      have hsame : before.uploadPolicyEpoch = share.uploadPolicyEpoch :=
        le_antisymm (hstep.epoch_le.trans hep.le) hle
      by_contra hchanged
      have hlt := hstep.epoch_lt (.inr fun heq => hchanged (heq.trans (hpol hsame)))
      omega

end Captured

section Runs

/-- A reservation under a captured pair goes to the share the pair was read from, under the
policy it had then, if no share has been created under its id in the meantime. -/
theorem reservation_meets_captured_share (events : List ServerEvent)
    (earlier between later : List Execution) (start : Execution)
    (_hrun : transactions .initial events = earlier ++ between ++ start :: later)
    (id : ℕ) (share : Share)
    (hcaptured : (state Execution.after .empty earlier).shares.find? id = some share)
    (token : String)
    (_hstart : start.call = .beginReservation token id share.uploadPolicyEpoch)
    (hreserved : ∃ s', beginUploadReservation start.now token id share.uploadPolicyEpoch
      (state Execution.after .empty (earlier ++ between)) = .ok (s', .reserved))
    (hspares : History.Throughout Execution.after (fun s x => sparesId id s x = true)
      (state Execution.after .empty earlier) between) :
    ∃ found, (state Execution.after .empty (earlier ++ between)).shares.find? id =
        some found ∧ found.origin = share.origin ∧ found.policy = share.policy := by
  obtain ⟨s', hbeg⟩ := hreserved
  obtain ⟨⟨found, hfound, hep⟩, -⟩ := beginUploadReservation_reserved hbeg
  have hshares : (state Execution.after .empty (earlier ++ between)).shares.find? id =
      some found := by
    rwa [← (beginsReservation hbeg).keepsShares.shares_eq]
  have hstill : StillCaptured id share
      (state Execution.after .empty (earlier ++ between)) := by
    rw [state_append]
    exact hspares.invariant (fun s x hspares h => h.after hspares) (.of_find? hcaptured)
  obtain ⟨-, horigin, hpol⟩ := hstill found hshares
  exact ⟨found, hshares, horigin, hpol hep⟩

def inboxShare (tokenHash : String) (path : Text) (passwordHash : Option String) : NewShare where
  tokenHash := tokenHash
  linkAlias := none
  path := path
  isDirectory := true
  permission := .uploadOnly
  expires := none
  maxDownloads := none
  maxUploadSize := none
  uploadTotal := some 1000
  uploadFiles := some 10
  passwordHash := passwordHash
  uploadConflictStrategy := .reject
  createdBy := 1

/-- An upload reads its share, another share is created, and the upload reserves. -/
def capturedRun : List ServerEvent :=
  [.arrive (.createShare (inboxShare "first" ['a'] none) none) 0, .execute 0 0,
    .arrive (.createShare (inboxShare "second" ['b'] (some "hash")) none) 0, .execute 0 0,
    .arrive (.beginReservation "upload" 1 0) 0, .execute 0 0]

theorem reservation_meets_captured_share_captured :
    ∃ found, (state Execution.after .empty
        ((transactions .initial capturedRun).take 2)).shares.find? 1 =
          some found ∧ found.relativePath = ['a'] ∧ found.tokenHash = "first" := by
  obtain ⟨share, hsh, hep, hpath, htok⟩ :
      ∃ share, (state Execution.after .empty
        ((transactions .initial capturedRun).take 1)).shares.find? 1 = some share ∧
          share.uploadPolicyEpoch = 0 ∧ share.relativePath = ['a'] ∧ share.tokenHash = "first" :=
    ⟨_, rfl, rfl, rfl, rfl⟩
  obtain ⟨found, hfound, horigin, hpol⟩ := reservation_meets_captured_share capturedRun
    ((transactions .initial capturedRun).take 1)
    (((transactions .initial capturedRun).drop 1).take 1) []
    ⟨.beginReservation "upload" 1 0, 0, 0⟩ rfl 1 share hsh "upload" (by rw [hep])
    (by rw [hep]; exact ⟨_, rfl⟩) (by decide)
  exact ⟨found, hfound, (congrArg UploadPolicy.relativePath hpol).trans hpath,
    (congrArg ShareOrigin.tokenHash horigin).trans htok⟩

/-- The share is deleted after the upload has read it, and the next share gets its id. -/
def reusedRun : List ServerEvent :=
  [.arrive (.createShare (inboxShare "first" ['a'] none) none) 0, .execute 0 0,
    .arrive (.deleteShare 1) 0, .execute 0 0,
    .arrive (.createShare (inboxShare "second" ['b'] (some "hash")) none) 0, .execute 0 0,
    .arrive (.beginReservation "upload" 1 0) 0, .execute 0 0]

/-- The upload that read the first share reserves against the second, without its password. -/
theorem reservation_meets_other_share :
    ∃ share found, (state Execution.after .empty
        ((transactions .initial reusedRun).take 1)).shares.find? 1 = some share ∧
      (transactions .initial reusedRun).drop 3 =
        [⟨.beginReservation "upload" 1 share.uploadPolicyEpoch, 0, 0⟩] ∧
      (∃ s', beginUploadReservation 0 "upload" 1 share.uploadPolicyEpoch
        (state Execution.after .empty
          ((transactions .initial reusedRun).take 3)) = .ok (s', .reserved)) ∧
      (state Execution.after .empty
        ((transactions .initial reusedRun).take 3)).shares.find? 1 = some found ∧
      found.tokenHash ≠ share.tokenHash ∧ found.relativePath ≠ share.relativePath ∧
      found.passwordHash ≠ share.passwordHash :=
  ⟨_, _, rfl, rfl, ⟨_, rfl⟩, rfl, by decide, by decide, by decide⟩

end Runs

end VaultLink
