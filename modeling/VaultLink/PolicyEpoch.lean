import VaultLink.ShareRows
import VaultLink.UploadQuota

/-!
# Policy epochs of upload reservations

An upload reserves quota, receives data for a while and then commits. In the meantime an
administrator may rename, deactivate, restrict, re-key or delete the share. Each of these
transactions either removes the share with its reservations or advances its policy epoch, and
a reservation commits only under the epoch it was made in. So between the transaction that made
a reservation and the one that commits it nothing of the kind has happened, whatever the values
in the row look like in the end.
-/
namespace VaultLink

open TransferCall
open TransferServer
open History
open KeyedTable

section Policy

variable {share : Share} {id : ℕ} {s : Store}

/-- A transaction renames a stored share, changes its active flag, conflict strategy or upload
limits, sets or clears its password, or deletes it. -/
def Revises (id : ℕ) (s : Store) (x : Execution) : Prop :=
  ∃ share, s.shares.find? id = some share ∧
    (x.call.rewrites share = true ∨
      ((x.after s).shares.find? id).map Share.policy ≠ some share.policy)

/-- A transaction that revises a share and leaves it in place advances its epoch. -/
theorem revises_epoch_lt {x : Execution} {share' : Share} (hrevises : Revises id s x)
    (hfind : s.shares.find? id = some share) (hfind' : (x.after s).shares.find? id = some share') :
    share.uploadPolicyEpoch < share'.uploadPolicyEpoch := by
  obtain ⟨other, hoth, hchange⟩ := hrevises
  cases hfind.symm.trans hoth
  rcases execute_share x.now s x.call hfind with hdel | ⟨found, hfound, hstep⟩
  · rw [Execution.after, hdel, execute, deleteShare] at hfind'
    dsimp only [insertRequiredAudits, deleteGrantsWhere] at hfind'
    rw [find?_deleteWhere, hfind, Option.filter_some] at hfind'
    simp [(find?_some hfind).2] at hfind'
  · cases hfind'.symm.trans hfound
    refine hstep.epoch_lt (hchange.imp_right fun hpol heq => hpol ?_)
    rw [hfind', Option.map_some, heq]

end Policy

section Reservations

variable {token : String} {now : Instant} {s s' : Store}

/-- A transaction that makes a reservation under `token`. -/
def Reserves (token : String) (s : Store) (x : Execution) : Prop :=
  ∃ shareId epoch s', x.call = .beginReservation token shareId epoch ∧
    beginUploadReservation x.now token shareId epoch s = .ok (s', .reserved)

/-- A stored reservation of a share and an epoch. -/
def Store.reservedAs (s : Store) (token : String) (shareId epoch : ℕ) : Prop :=
  ∃ row ∈ s.reservations, row.tokenHash = token ∧ row.shareId = shareId ∧
    row.uploadPolicyEpoch = epoch

/-- No reservation of `s'` is new or has moved to another share or epoch. -/
def KeepsReservations (s s' : Store) : Prop :=
  ∀ token shareId epoch, s'.reservedAs token shareId epoch → s.reservedAs token shareId epoch

/-- Every reservation of `s'` is one of `s`. -/
def FewerReservations (s s' : Store) : Prop := ∀ row ∈ s'.reservations, row ∈ s.reservations

theorem FewerReservations.keeps (h : FewerReservations s s') : KeepsReservations s s' :=
  fun _ _ _ ⟨row, hrow, hsame⟩ => ⟨row, h row hrow, hsame⟩

theorem fewerReservations_of_eq (h : s'.reservations = s.reservations) : FewerReservations s s' :=
  fun _ hrow => h ▸ hrow

theorem deleteReservation_subset {row : Reservation}
    (hrow : row ∈ (deleteReservation token (deleteExpiredReservations now s)).reservations) :
    row ∈ s.reservations :=
  (mem_deleteWhere.mp (mem_deleteWhere.mp hrow).1).1

theorem deleteExpired_subset {row : Reservation}
    (hrow : row ∈ (deleteExpiredReservations now s).reservations) : row ∈ s.reservations :=
  (mem_deleteWhere.mp hrow).1

/-- A reservation is made under the epoch the share has at that moment. -/
theorem beginUploadReservation_reserved {shareId epoch : ℕ}
    (h : beginUploadReservation now token shareId epoch s = .ok (s', .reserved)) :
    (∃ share, s'.shares.find? shareId = some share ∧ share.uploadPolicyEpoch = epoch) ∧
      ∃ row, (deleteExpiredReservations now s).reservations.insert? row = some s'.reservations ∧
        row.tokenHash = token ∧ row.shareId = shareId ∧ row.uploadPolicyEpoch = epoch ∧
          row.reservedBytes = 0 := by
  cases beginsReservation h with
  | refused hnot => exact absurd rfl hnot
  | reserved hfind hep _ _ hins =>
    exact ⟨⟨_, hfind, hep⟩, _, hins, rfl, rfl, rfl, rfl⟩

/-- A begin that makes no reservation drops the expired ones. -/
theorem beginUploadReservation_fewer {shareId epoch : ℕ} {outcome : UploadReservationBeginOutcome}
    (h : beginUploadReservation now token shareId epoch s = .ok (s', outcome))
    (href : outcome ≠ .reserved) : FewerReservations s s' := by
  cases beginsReservation h with
  | refused => exact fun _ => deleteExpired_subset
  | reserved => exact absurd rfl href

/-- An extension drops reservations, or it sets the bytes of the one it found. -/
theorem extendUploadReservationUpTo_ok {minimum preferred accepted : ℕ}
    {outcome : UploadReservationExtendOutcome}
    (h : extendUploadReservationUpTo now token minimum preferred s = .ok (s', outcome, accepted)) :
    (outcome ≠ .extended ∧ FewerReservations s s') ∨
      (outcome = .extended ∧ minimum ≤ accepted ∧ accepted ≤ preferred ∧
        s' = setReservedBytes token accepted (now + uploadReservationTtl)
          (deleteExpiredReservations now s) ∧
        ∃ row, (deleteExpiredReservations now s).reservations.find? token = some row) := by
  cases extendsReservation h with
  | refused hnot => exact .inl ⟨hnot, fun _ => deleteExpired_subset⟩
  | dropped => exact .inl ⟨nofun, fun _ => deleteReservation_subset⟩
  | extended hfind _ hminimum hpre =>
    exact .inr ⟨rfl, hminimum, hpre, rfl, _, hfind⟩

theorem setReservedBytes_keeps {bytes : ℕ} {expires : Instant} :
    KeepsReservations s (setReservedBytes token bytes expires s) := by
  rintro token shareId epoch ⟨row, hrow, htok, hsh, hep⟩
  obtain ⟨row₀, hrow₀, rfl⟩ := (mem_updateWhere).mp hrow
  refine ⟨row₀, hrow₀, ?_⟩
  split at htok <;> split at hsh <;> split at hep <;> exact ⟨htok, hsh, hep⟩

theorem extendUploadReservationUpTo_keeps {minimum preferred : ℕ}
    {result : UploadReservationExtendOutcome × ℕ}
    (h : extendUploadReservationUpTo now token minimum preferred s = .ok (s', result)) :
    KeepsReservations s s' := by
  obtain ⟨-, hfewer⟩ | ⟨-, -, -, rfl, -⟩ := extendUploadReservationUpTo_ok h
  · exact hfewer.keeps
  · exact fun token shareId epoch hreserved =>
      FewerReservations.keeps (fun _ => deleteExpired_subset) token shareId epoch
        (setReservedBytes_keeps token shareId epoch hreserved)

theorem commitUploadReservation_fewer {bytes directories : ℕ} {audited : Bool}
    {operation : Option String} {outcome : UploadReservationCommitOutcome}
    (h : commitUploadReservation now token bytes directories audited operation s =
      .ok (s', outcome)) : FewerReservations s s' := by
  cases commitsReservation h with
  | notFound => exact fun _ => deleteExpired_subset
  | dropped => exact fun _ => deleteReservation_subset
  | committed _ _ _ _ hcharge =>
    intro row hrow
    rw [addUploadUsage_eq, chargeUploadOperation_eq hcharge] at hrow
    exact deleteReservation_subset hrow

/-- A commit finds its reservation and a share that still has the reservation's epoch. -/
theorem commitUploadReservation_committed {bytes directories : ℕ} {audited : Bool}
    {operation : Option String}
    (h : commitUploadReservation now token bytes directories audited operation s =
      .ok (s', .committed)) :
    ∃ row ∈ s.reservations, row.tokenHash = token ∧
      ∃ share ∈ s.shares, share.id = row.shareId ∧
        share.uploadPolicyEpoch = row.uploadPolicyEpoch := by
  cases commitsReservation h with
  | dropped hnot => exact absurd rfl hnot
  | committed hfind htot =>
    obtain ⟨hrow, htok⟩ := find?_some hfind
    obtain ⟨share, hsh, hid, hep, -⟩ := availableUploadShareTotalLimit_some htot
    exact ⟨_, deleteExpired_subset hrow, htok, share, hsh, hid, hep⟩

theorem fewerReservations_committed {α : Type} {result : Except DbError (Store × α)}
    (h : ∀ s' a, result = .ok (s', a) → FewerReservations s s') :
    FewerReservations s (committed s result) :=
  committed_inv (P := FewerReservations s) (fewerReservations_of_eq rfl) h

/-- What a transaction can do to the reservations. -/
inductive ReservationChange (s : Store) (x : Execution) : Prop
  | dropped (h : FewerReservations s (x.after s))
  | begun (token : String) (shareId epoch : ℕ)
      (hcall : x.call = .beginReservation token shareId epoch)
      (h : beginUploadReservation x.now token shareId epoch s = .ok (x.after s, .reserved))
  | extended (token : String) (minimum preferred accepted : ℕ)
      (hcall : x.call = .extendReservation token minimum preferred)
      (h : extendUploadReservationUpTo x.now token minimum preferred s =
        .ok (x.after s, .extended, accepted))

theorem execute_reservations (s : Store) (x : Execution) : ReservationChange s x := by
  rcases x with ⟨call, now, clock⟩
  cases call with
  | beginLease | completeLease | cancelLease | heartbeatLease =>
    exact .dropped (fewerReservations_of_eq (TransferCall.keepsUploads now s rfl).reservations_eq)
  | beginReservation token shareId epoch =>
    cases hres : beginUploadReservation now token shareId epoch s with
    | error =>
      refine .dropped (fewerReservations_committed fun _ _ h => ?_)
      cases hres.symm.trans h
    | ok result =>
      obtain ⟨s', outcome⟩ := result
      have haft : Execution.after s ⟨.beginReservation token shareId epoch, now, clock⟩ = s' := by
        simp only [Execution.after, execute, hres, committed]
      by_cases hreserved : outcome = .reserved
      · exact .begun token shareId epoch rfl (by rw [haft, ← hreserved]; exact hres)
      · exact .dropped (haft ▸ beginUploadReservation_fewer hres hreserved)
  | extendReservation token minimum preferred =>
    cases hres : extendUploadReservationUpTo now token minimum preferred s with
    | error =>
      refine .dropped (fewerReservations_committed fun _ _ h => ?_)
      cases hres.symm.trans h
    | ok result =>
      obtain ⟨s', outcome, accepted⟩ := result
      have haft : Execution.after s
          ⟨.extendReservation token minimum preferred, now, clock⟩ = s' := by
        simp only [Execution.after, execute, hres, committed]
      obtain ⟨-, hfewer⟩ | ⟨rfl, -⟩ := extendUploadReservationUpTo_ok hres
      · exact .dropped (haft ▸ hfewer)
      · exact .extended token minimum preferred accepted rfl (by rw [haft]; exact hres)
  | commitReservation =>
    exact .dropped (fewerReservations_committed fun _ _ h => commitUploadReservation_fewer h)
  | cancelReservation | deleteShare =>
    exact .dropped fun _ hrow => (mem_deleteWhere.mp hrow).1
  | createShare =>
    refine .dropped (fewerReservations_committed fun s' newId h => fewerReservations_of_eq ?_)
    obtain ⟨_, _, _, -, rfl, -⟩ := createShare_inserts h
    rfl
  | renamePaths | deactivatePaths | setShareActive | setSharePassword =>
    exact .dropped fun _ hrow => hrow
  | updateShareControls =>
    exact .dropped (updateShareControls_inv (P := FewerReservations s) (fun _ h => h)
      (fun _ => deleteExpired_subset) fun _ _ => deleteExpired_subset)
  | createUnlockSession =>
    exact .dropped (createUnlockSession_inv (P := FewerReservations s) fun _ _ _ h => h)

/-- Only a transaction that makes a reservation adds one. -/
theorem execute_reservation {shareId epoch : ℕ} {x : Execution} (hnot : ¬Reserves token s x)
    (h : (x.after s).reservedAs token shareId epoch) : s.reservedAs token shareId epoch := by
  cases execute_reservations s x with
  | dropped hfewer => exact hfewer.keeps token shareId epoch h
  | extended other minimum preferred accepted hcall hext =>
    exact extendUploadReservationUpTo_keeps hext token shareId epoch h
  | begun other share expected hcall hreserved =>
    -- the new row carries the call's own token
    obtain ⟨-, row, hins, htok, -, -⟩ := beginUploadReservation_reserved hreserved
    obtain ⟨found, hfound, hfoundToken, hrest⟩ := h
    rcases (mem_insert? hins).mp hfound with rfl | hold
    · have hoth : other = token := htok.symm.trans hfoundToken
      exact absurd ⟨share, expected, _, hoth ▸ hcall, hoth ▸ hreserved⟩ hnot
    · exact ⟨found, deleteExpired_subset hold, hfoundToken, hrest⟩

end Reservations

section Commit

variable {token : String} {shareId epoch : ℕ} {s s' : Store}

/-- A reservation under `epoch` whose share has an epoch of at least `reached`. -/
def ReachedEpoch (token : String) (shareId epoch reached : ℕ) (s : Store) : Prop :=
  s.reservedAs token shareId epoch ∧
    ∃ share, s.shares.find? shareId = some share ∧ reached ≤ share.uploadPolicyEpoch

/-- While the reservation stays, the epoch of its share never falls, and a transaction that
revises the share raises it. -/
theorem ReachedEpoch.after {x : Execution} {reached : ℕ}
    (h : ReachedEpoch token shareId epoch reached s) (hnot : ¬Reserves token s x)
    (hkept : ∃ row ∈ (x.after s).reservations, row.tokenHash = token) :
    ReachedEpoch token shareId epoch reached (x.after s) ∧
      (Revises shareId s x → ReachedEpoch token shareId epoch (reached + 1) (x.after s)) := by
  obtain ⟨⟨row, hrow, htok, hshId, hep⟩, share, hfind, hreached⟩ := h
  obtain ⟨row', hrow', htok'⟩ := hkept
  -- the reservation after the step is the one before it
  obtain ⟨row₀, hrow₀, htok₀, hshId₀, hep₀⟩ :=
    execute_reservation hnot ⟨row', hrow', htok', rfl, rfl⟩
  have hsame : row₀ = row := s.reservations.eq_of_key_eq hrow₀ hrow (htok₀.trans htok.symm)
  subst hsame
  have hreserved : (x.after s).reservedAs token shareId epoch :=
    ⟨row', hrow', htok', hshId₀.symm.trans hshId, hep₀.symm.trans hep⟩
  rcases execute_share x.now s x.call hfind with hdel | ⟨share', hfind', hstep⟩
  · rw [Execution.after, hdel] at hrow'
    have hoth := (mem_deleteWhere.mp hrow').2
    simp [← hshId₀, hshId] at hoth
  · refine ⟨⟨hreserved, share', hfind', hreached.trans hstep.epoch_le⟩, fun hrevises => ?_⟩
    have hlt := revises_epoch_lt hrevises hfind hfind'
    exact ⟨hreserved, share', hfind', by omega⟩

/-- No transaction of a stretch makes or drops the reservation of `token`. -/
def Pending (token : String) (s : Store) (between : List Execution) : Prop :=
  History.Throughout Execution.after (fun s x =>
      (∃ row ∈ s.reservations, row.tokenHash = token) ∧ ¬Reserves token s x) s between ∧
    ∃ row ∈ (state Execution.after s between).reservations, row.tokenHash = token

theorem ReachedEpoch.lasts {reached : ℕ} {between : List Execution}
    (h : ReachedEpoch token shareId epoch reached s) (hpend : Pending token s between) :
    ReachedEpoch token shareId epoch reached (state Execution.after s between) := by
  induction between generalizing s with
  | nil => exact h
  | cons x between ih =>
    obtain ⟨⟨⟨-, hnot⟩, hrest⟩, hend⟩ := hpend
    exact ih (h.after hnot (hrest.first hend)).1 ⟨hrest, hend⟩

/-- If the epoch is still the reservation's own in the end, no transaction has revised the
share. -/
theorem ReachedEpoch.unrevised {between : List Execution}
    (h : ReachedEpoch token shareId epoch epoch s) (hpend : Pending token s between)
    (hcur : ¬ReachedEpoch token shareId epoch (epoch + 1)
      (state Execution.after s between)) :
    History.Throughout Execution.after (fun s x => ¬Reserves token s x ∧ ¬Revises shareId s x)
      s between := by
  induction between generalizing s with
  | nil => trivial
  | cons x between ih =>
    obtain ⟨⟨⟨-, hnot⟩, hrest⟩, hend⟩ := hpend
    obtain ⟨haft, hraised⟩ := h.after hnot (hrest.first hend)
    refine ⟨⟨hnot, fun hrevises => ?_⟩, ih haft ⟨hrest, hend⟩ hcur⟩
    exact hcur ((hraised hrevises).lasts ⟨hrest, hend⟩)

/-- A reservation starts at the current epoch of its share. -/
theorem Reserves.reached {x : Execution} (h : Reserves token s x) :
    ∃ shareId epoch, x.call = .beginReservation token shareId epoch ∧
      (∃ s', beginUploadReservation x.now token shareId epoch s = .ok (s', .reserved)) ∧
      ReachedEpoch token shareId epoch epoch (x.after s) := by
  obtain ⟨shareId, epoch, s', hcall, hbeg⟩ := h
  obtain ⟨⟨share, hfind, hep⟩, row, hins, htok, hshId, hrowEpoch, -⟩ :=
    beginUploadReservation_reserved hbeg
  have haft : x.after s = s' := by
    rw [Execution.after, hcall, execute, hbeg]
    rfl
  refine ⟨shareId, epoch, hcall, ⟨s', hbeg⟩, ?_⟩
  rw [haft]
  exact ⟨⟨row, (mem_insert? hins).mpr (Or.inl rfl), htok, hshId, hrowEpoch⟩,
    share, hfind, hep.ge⟩

/-- A commit goes through only if no transaction since the one that made the reservation has
revised the share, and every transaction that revises a share in place advances its epoch. -/
theorem commit_only_under_unrevised_policy :
    (∀ (events : List ServerEvent) (earlier later : List Execution) (finish : Execution)
      (token : String) (bytes directories : ℕ) (audited : Bool) (operation : Option String),
      transactions .initial events = earlier ++ finish :: later →
      finish.call = .commitReservation token bytes directories audited operation →
      (∃ s', commitUploadReservation finish.now token bytes directories audited operation
        (state Execution.after .empty earlier) = .ok (s', .committed)) →
      ∃ before start between shareId epoch, earlier = before ++ start :: between ∧
        start.call = .beginReservation token shareId epoch ∧
        (∃ s', beginUploadReservation start.now token shareId epoch
          (state Execution.after .empty before) = .ok (s', .reserved)) ∧
        (state Execution.after .empty earlier).reservedAs token shareId epoch ∧
        History.Throughout Execution.after
          (fun s x => ¬Reserves token s x ∧ ¬Revises shareId s x)
          (state Execution.after .empty (before ++ [start])) between) ∧
    ∀ (s : Store) (x : Execution) (id : ℕ) (share share' : Share),
      s.shares.find? id = some share → (x.after s).shares.find? id = some share' →
      Revises id s x → share.uploadPolicyEpoch < share'.uploadPolicyEpoch := by
  refine ⟨?_, fun s x id share share' hfind hfind' h => revises_epoch_lt h hfind hfind'⟩
  intro events earlier later finish token bytes directories audited operation _ _ ⟨s', hcommit⟩
  obtain ⟨row, hrow, htok, share, hsh, hid, hep⟩ :=
    commitUploadReservation_committed hcommit
  have hreserved : ∃ row ∈ (state Execution.after .empty earlier).reservations,
      row.tokenHash = token := ⟨row, hrow, htok⟩
  obtain ⟨before, start, between, rfl, hreserves, -, hsince⟩ :=
    exists_origin (P := fun s : Store => ∃ row ∈ s.reservations, row.tokenHash = token)
      (C := Reserves token) (fun s x ⟨row, hrow, htok⟩ hnot =>
        have ⟨row₀, hrow₀, htok₀, _⟩ := execute_reservation hnot ⟨row, hrow, htok, rfl, rfl⟩
        ⟨row₀, hrow₀, htok₀⟩)
      (fun ⟨row, hrow, _⟩ => not_mem_empty row hrow) hreserved
  obtain ⟨shareId, epoch, hcall, hbeg, hreached⟩ := hreserves.reached
  rw [state_append] at hsince
  have hpend : Pending token
      (start.after (state Execution.after .empty before)) between :=
    ⟨hsince, by simpa using hreserved⟩
  have hst : state Execution.after .empty (before ++ start :: between) =
      state Execution.after (start.after (state Execution.after .empty before))
        between := by
    simp
  rw [hst] at hrow hsh hreserved ⊢
  -- the reservation that commits is the one made under `epoch`
  obtain ⟨⟨made, hmade, hmadeToken, hmadeShare, hmadeEpoch⟩, -⟩ := hreached.lasts hpend
  have hsame : made = row :=
    eq_of_key_eq _ hmade hrow (hmadeToken.trans htok.symm)
  subst hsame
  refine ⟨before, start, between, shareId, epoch, rfl, hcall, hbeg,
    ⟨made, hmade, hmadeToken, hmadeShare, hmadeEpoch⟩, ?_⟩
  rw [state_append]
  refine hreached.unrevised hpend fun hraised => ?_
  obtain ⟨-, found, hfound, hle⟩ := hraised
  have hfoundShare : found = share := by
    obtain ⟨hmem, hfoundId⟩ := find?_some hfound
    exact eq_of_key_eq _ hmem hsh (by rw [hfoundId, hid, hmadeShare])
  rw [hfoundShare, hep, hmadeEpoch] at hle
  omega

/-- The first upload of `twoUploadsRun` commits under the policy it was reserved under. -/
theorem commit_only_under_unrevised_policy_twoUploads :
    (∃ s', commitUploadReservation 0 "first" 4 3 true none (state Execution.after .empty
        ((transactions .initial twoUploadsRun).take 3)) = .ok (s', .committed)) ∧
      ∃ before start between shareId epoch,
        (transactions .initial twoUploadsRun).take 3 =
          before ++ start :: between ∧
        start.call = .beginReservation "first" shareId epoch ∧
        History.Throughout Execution.after
          (fun s x => ¬Reserves "first" s x ∧ ¬Revises shareId s x)
          (state Execution.after .empty (before ++ [start])) between := by
  have hcommit : ∃ s', commitUploadReservation 0 "first" 4 3 true none
      (state Execution.after .empty
        ((transactions .initial twoUploadsRun).take 3)) = .ok (s', .committed) :=
    ⟨_, rfl⟩
  obtain ⟨before, start, between, shareId, epoch, hsplit, hcall, -, -, hunrevised⟩ :=
    commit_only_under_unrevised_policy.1 twoUploadsRun
      ((transactions .initial twoUploadsRun).take 3)
      ((transactions .initial twoUploadsRun).drop 4)
      ⟨.commitReservation "first" 4 3 true none, 0, 0⟩ "first" 4 3 true none rfl rfl hcommit
  exact ⟨hcommit, before, start, between, shareId, epoch, hsplit, hcall, hunrevised⟩

end Commit

end VaultLink
