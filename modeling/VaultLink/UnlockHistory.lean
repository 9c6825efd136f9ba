import VaultLink.ShareRows
import VaultLink.TransferAccess

/-!
# Unlocked transfers

A password is verified outside the database, against a hash that was read some time before.
The unlock session that the verification earns, a change of the password and a transfer of the
share are separate transactions in any order. A session row does not say which hash was verified
for it, but it is only inserted while the share still has that hash, and setting the password or
deleting the share removes it. So a session that is still there was earned with the password the
share has now.
-/
namespace VaultLink

open History
open KeyedTable

section Sessions

variable {session : UnlockSession} {s s' : Store}

/-- A request that verified `hash` gets `session`. -/
def Unlocks (session : UnlockSession) (hash : String) (s : Store) (x : Execution) : Prop :=
  ∃ epoch s', x.call = .createUnlockSession session.tokenHash session.shareId hash epoch
      session.csrfToken session.expiresAt ∧
    createUnlockSession x.now session.tokenHash session.shareId hash epoch session.csrfToken
      session.expiresAt s = .ok (s', true)

/-- A transaction sets or clears the password of a share, deletes it, or creates a share under
its id. -/
def Rekeys (id : ℕ) (s : Store) (x : Execution) : Prop :=
  (∃ hash action, x.call = .setSharePassword id hash action) ∨ x.call = .deleteShare id ∨
    s.shares.find? id = none ∧ ((x.after s).shares.find? id).isSome

/-- Every stored session is an old one, or the one the call asked for while its share had the
verified hash. -/
theorem createUnlockSession_rows {now : Instant} {token : String} {shareId : ℕ} {hash : String}
    {epoch : ℕ} {csrf : String} {expires : Instant} {created : Bool}
    (h : createUnlockSession now token shareId hash epoch csrf expires s = .ok (s', created))
    (hmem : session ∈ s'.unlockSessions) :
    session ∈ s.unlockSessions ∨ session = ⟨token, shareId, expires, csrf⟩ ∧ created = true := by
  simp only [createUnlockSession] at h
  split at h
  · split at h
    · cases h
    · rename_i hins
      cases h
      rcases (mem_insert? hins).mp hmem with hnew | hold
      · exact Or.inr ⟨hnew, rfl⟩
      · exact Or.inl (mem_deleteWhere.mp hold).1
  · cases h
    exact Or.inl (mem_deleteWhere.mp hmem).1

/-- A session is created while the share has the verified hash. -/
theorem createUnlockSession_verified {now : Instant} {token : String} {shareId : ℕ}
    {hash : String} {epoch : ℕ} {csrf : String} {expires : Instant}
    (h : createUnlockSession now token shareId hash epoch csrf expires s = .ok (s', true)) :
    ∃ share, s'.shares.find? shareId = some share ∧ share.passwordHash = some hash := by
  simp only [createUnlockSession] at h
  split at h
  · rename_i hcur
    split at h
    · cases h
    · cases h
      obtain ⟨share, hsh, hcond⟩ := any_iff.mp hcur
      simp only [Bool.and_eq_true, decide_eq_true_eq] at hcond
      exact ⟨share, find?_eq_some_iff.mpr ⟨hsh, hcond.1.1.1.1⟩, hcond.1.1.1.2⟩
  · cases h

/-- A session in the store was there before the transaction, or a request has just earned it. -/
theorem execute_session {x : Execution} (h : session ∈ (x.after s).unlockSessions) :
    session ∈ s.unlockSessions ∨ ∃ hash, Unlocks session hash s x := by
  rcases x with ⟨call, now, clock⟩
  simp only [Execution.after] at h
  cases call with
  | beginLease | completeLease | cancelLease | heartbeatLease =>
    rw [(TransferCall.keepsUploads now s rfl).unlockSessions_eq] at h
    exact Or.inl h
  | beginReservation | extendReservation | commitReservation | cancelReservation =>
    rw [(TransferCall.keepsShares now s rfl).unlockSessions_eq] at h
    exact Or.inl h
  | renamePaths | deactivatePaths | setShareActive => exact Or.inl h
  | createShare =>
    refine Or.inl (committed_inv (P := fun s' => session ∈ s'.unlockSessions → _)
      id (fun s' newId h => ?_) h)
    obtain ⟨_, _, _, -, rfl, -⟩ := createShare_inserts h
    exact id
  | deleteShare | setSharePassword => exact Or.inl (mem_deleteWhere.mp h).1
  | updateShareControls =>
    exact Or.inl (updateShareControls_inv (P := fun s' => session ∈ s'.unlockSessions → _)
      id id (fun _ => id) h)
  | createUnlockSession token shareId hash epoch csrf expires =>
    simp only [TransferCall.execute] at h
    cases hres : createUnlockSession now token shareId hash epoch csrf expires s with
    | error =>
      rw [hres] at h
      exact Or.inl h
    | ok result =>
      obtain ⟨s', created⟩ := result
      rw [hres] at h
      rcases createUnlockSession_rows hres h with hold | ⟨rfl, rfl⟩
      · exact Or.inl hold
      · exact Or.inr ⟨hash, epoch, s', rfl, hres⟩

end Sessions

section Password

variable {session : UnlockSession} {hash : String} {s : Store}

/-- A session together with the password its share has. -/
def EarnedWith (session : UnlockSession) (hash : String) (s : Store) : Prop :=
  session ∈ s.unlockSessions ∧
    ∃ share, s.shares.find? session.shareId = some share ∧ share.passwordHash = some hash

/-- While a session stays, the share keeps its password. -/
theorem EarnedWith.after {x : Execution} (h : EarnedWith session hash s)
    (hkept : session ∈ (x.after s).unlockSessions) :
    EarnedWith session hash (x.after s) ∧ ¬Rekeys session.shareId s x := by
  obtain ⟨-, share, hfind, hpw⟩ := h
  have hid := (find?_some hfind).2
  have hset : ∀ hash action, x.call ≠ .setSharePassword session.shareId hash action := by
    intro hash action hcall
    rw [Execution.after, hcall] at hkept
    have hoth := (mem_deleteWhere.mp hkept).2
    simp at hoth
  have hdel : x.call ≠ .deleteShare session.shareId := by
    intro hcall
    rw [Execution.after, hcall] at hkept
    have hoth := (mem_deleteWhere.mp hkept).2
    simp at hoth
  rcases execute_share x.now s x.call hfind with hcall | ⟨share', hfind', hstep⟩
  · exact absurd hcall hdel
  · refine ⟨⟨hkept, share', hfind', ?_⟩, ?_⟩
    · rw [hstep.password_eq (by rwa [hid]), hpw]
    · rintro (⟨hash, action, hcall⟩ | hcall | ⟨hnone, -⟩)
      · exact hset hash action hcall
      · exact hdel hcall
      · rw [hfind] at hnone
        cases hnone

theorem EarnedWith.lasts {between : List Execution} (h : EarnedWith session hash s)
    (hkept : History.Throughout Execution.after (fun s x => session ∈ s.unlockSessions ∧
      ¬∃ hash, Unlocks session hash s x) s between)
    (hend : session ∈ (state Execution.after s between).unlockSessions) :
    EarnedWith session hash (state Execution.after s between) ∧
      History.Throughout Execution.after (fun s x => ¬Rekeys session.shareId s x) s between := by
  induction between generalizing s with
  | nil => exact ⟨h, trivial⟩
  | cons x between ih =>
    obtain ⟨-, hrest⟩ := hkept
    obtain ⟨haft, hnot⟩ := h.after (hrest.first hend)
    obtain ⟨hlast, hnever⟩ := ih haft hrest hend
    exact ⟨hlast, hnot, hnever⟩

end Password

section Transfers

variable {key : TransferKey} {unlockToken : Option String} {leaseToken : String} {now : Instant}
  {s s' : Store}

/-- A lease of a share with a password needs a live session of that share. -/
theorem begin_unlocked {outcome : TransferLeaseBeginOutcome} {share : Share}
    (h : beginAuthorizedTransferLease now key unlockToken leaseToken s = .ok (s', outcome))
    (hleased : outcome.leased = true) (hfind : s.shares.find? key.shareId = some share)
    (hpw : share.passwordHash.isSome = true) :
    ∃ token session, unlockToken = some token ∧ session ∈ s.unlockSessions ∧
      session.tokenHash = token ∧ session.shareId = key.shareId ∧ now < session.expiresAt := by
  have hout := begin_outcome now key unlockToken s h
  rw [hout] at hleased
  have hunlocked : s.unlocked key.shareId unlockToken now = true := by
    by_contra hlocked
    unfold transferAccessState at hleased
    split at hleased
    · cases hleased
    · rename_i found hdownloadable
      obtain ⟨hfound, -⟩ := Option.filter_eq_some_iff.mp hdownloadable
      cases hfind.symm.trans hfound
      rw [if_pos (by simp [hpw, hlocked])] at hleased
      cases hleased
  unfold Store.unlocked at hunlocked
  cases unlockToken with
  | none => cases hunlocked
  | some token =>
    obtain ⟨session, hsession, hcond⟩ := any_iff.mp hunlocked
    simp only [Bool.and_eq_true, decide_eq_true_eq] at hcond
    exact ⟨token, session, rfl, hsession, hcond.1.1, hcond.1.2, hcond.2⟩

/-- A lease of a share with a password is created only for an unlock session of that share,
still unexpired, which a request earned by verifying the hash the share has now, and since then
the password has not changed and the share has not been replaced. -/
theorem lease_needs_current_password (events : List ServerEvent) (earlier later : List Execution)
    (start : Execution) (key : TransferKey) (unlockToken : Option String) (leaseToken : String)
    (s' : Store) (outcome : TransferLeaseBeginOutcome) (share : Share) (hash : String)
    (_hrun : TransferServer.transactions .initial events = earlier ++ start :: later)
    (_hcall : start.call = .beginLease key unlockToken leaseToken)
    (hbegin : beginAuthorizedTransferLease start.now key unlockToken leaseToken
      (state Execution.after .empty earlier) = .ok (s', outcome))
    (hleased : outcome.leased = true)
    (hfind : (state Execution.after .empty earlier).shares.find? key.shareId = some share)
    (hpassword : share.passwordHash = some hash) :
    ∃ token session, unlockToken = some token ∧
      session ∈ (state Execution.after .empty earlier).unlockSessions ∧
      session.tokenHash = token ∧ session.shareId = key.shareId ∧ start.now < session.expiresAt ∧
      ∃ before unlock between, earlier = before ++ unlock :: between ∧
        Unlocks session hash (state Execution.after .empty before) unlock ∧
        History.Throughout Execution.after (fun s x => ¬Rekeys key.shareId s x)
          (state Execution.after .empty (before ++ [unlock])) between := by
  obtain ⟨token, session, htok, hsession, hname, hshId, hlive⟩ :=
    begin_unlocked hbegin hleased hfind (by rw [hpassword]; rfl)
  refine ⟨token, session, htok, hsession, hname, hshId, hlive, ?_⟩
  obtain ⟨before, unlock, between, rfl, ⟨verified, hunlocks⟩, hmade, hsince⟩ :=
    exists_origin (P := fun s : Store => session ∈ s.unlockSessions)
      (C := fun s x => ∃ hash, Unlocks session hash s x)
      (fun s x h hnot => (execute_session h).resolve_right hnot)
      (not_mem_empty session) hsession
  rw [state_append] at hsince hmade
  have hearned : EarnedWith session verified
      (unlock.after (state Execution.after .empty before)) := by
    obtain ⟨epoch, s'', hcall, hcreate⟩ := hunlocks
    refine ⟨hmade, ?_⟩
    rw [Execution.after, hcall, TransferCall.execute, hcreate]
    exact createUnlockSession_verified hcreate
  have hst : state Execution.after .empty (before ++ unlock :: between) =
      state Execution.after (unlock.after (state Execution.after .empty before))
        between := by
    simp
  rw [hst] at hsession hfind
  obtain ⟨⟨-, found, hfound, hverified⟩, hnever⟩ := hearned.lasts hsince hsession
  rw [hshId] at hfound hnever
  cases hfind.symm.trans hfound
  cases hpassword.symm.trans hverified
  exact ⟨before, unlock, between, rfl, hunlocks, by rwa [state_append]⟩

/-- A share gets a second password, a client verifies it and starts a transfer. -/
def secondPasswordRun : List ServerEvent :=
  [.arrive (.createShare { downloadShare with passwordHash := some "old" } none) 0, .execute 0 0,
    .arrive (.setSharePassword 1 (some "new") .sharePasswordSet) 0, .execute 0 0,
    .arrive (.createUnlockSession "unlock" 1 "new" 1 "csrf" (seconds 60)) 0, .execute 0 0,
    .arrive (.beginLease fileTransfer (some "unlock") "lease") 1, .execute 0 1]

/-- The transactions of `secondPasswordRun` before the transfer. -/
def secondPasswordSet : List Execution :=
  (TransferServer.transactions .initial secondPasswordRun).take 3

theorem lease_needs_current_password_second :
    (∃ s', beginAuthorizedTransferLease 1 fileTransfer (some "unlock") "lease"
      (state Execution.after .empty secondPasswordSet) = .ok (s', .newLease)) ∧
    ∃ session before unlock between, session.tokenHash = "unlock" ∧
      secondPasswordSet = before ++ unlock :: between ∧
      Unlocks session "new" (state Execution.after .empty before) unlock ∧
      History.Throughout Execution.after (fun s x => ¬Rekeys 1 s x)
        (state Execution.after .empty (before ++ [unlock])) between := by
  obtain ⟨s', hbeg⟩ : ∃ s', beginAuthorizedTransferLease 1 fileTransfer (some "unlock") "lease"
      (state Execution.after .empty secondPasswordSet) = .ok (s', .newLease) := ⟨_, rfl⟩
  obtain ⟨share, hfind, hpw⟩ : ∃ share,
      (state Execution.after .empty secondPasswordSet).shares.find? 1 = some share ∧
        share.passwordHash = some "new" := ⟨_, rfl, rfl⟩
  obtain ⟨token, session, htok, -, hname, -, -, before, unlock, between, hsplit, hrest⟩ :=
    lease_needs_current_password secondPasswordRun secondPasswordSet []
      ⟨.beginLease fileTransfer (some "unlock") "lease", 1, 1⟩ fileTransfer (some "unlock") "lease"
      s' .newLease share "new" rfl rfl hbeg rfl hfind hpw
  cases htok
  exact ⟨⟨s', hbeg⟩, session, before, unlock, between, hname, hsplit, hrest⟩

end Transfers

end VaultLink
