import VaultLink.Shares

/-!
# Public upload reservations

An upload reserves quota in steps: `begin` takes a file slot, `extend` raises the
reserved bytes while data arrives, and `commit` turns the reservation into usage. A
reservation belongs to the policy epoch of the share it was made under; once the epoch
has advanced it can neither be extended nor committed. All four operations take the
write lock after reading the clock.
-/
namespace VaultLink

/-- `UPLOAD_RESERVATION_TTL_SECONDS`. -/
def uploadReservationTtl : ℤ := seconds (15 * 60)

def maxPublicUploadCreatedDirectoriesPerShare : ℕ := 256

def availableUploadShareTotalLimit (shareId epoch : ℕ) (now : Instant) (s : Store) :
    Option Limit :=
  ((s.shares.find? shareId).filter fun share =>
    share.uploadPolicyEpoch = epoch && share.active && share.unexpired now &&
      share.isDirectory && share.permission.canUpload && share.maxUploadFiles.isSome).bind
    Share.maxUploadTotalSize

def deleteReservation (token : String) (s : Store) : Store :=
  { s with reservations := s.reservations.deleteWhere fun row => row.tokenHash = token }

section Begin

inductive UploadReservationBeginOutcome
  | reserved
  | byteQuotaReached
  | fileQuotaReached
  | shareUnavailable
deriving DecidableEq

/-- `begin_upload_reservation`. The byte check compares stored usage only; the file check
also counts the reservations of the same epoch. -/
def beginUploadReservation (now : Instant) (token : String) (shareId expectedEpoch : ℕ)
    (s : Store) : Except DbError (Store × UploadReservationBeginOutcome) :=
  let s₁ := deleteExpiredReservations now s
  match (s₁.shares.find? shareId).filter fun share => share.uploadPolicyEpoch = expectedEpoch with
  | none => .ok (s₁, .shareUnavailable)
  | some share =>
    match share.maxUploadTotalSize, share.maxUploadFiles with
    | some totalLimit, some fileLimit =>
      if !share.active || !share.unexpired now || !share.isDirectory ||
          !share.permission.canUpload then
        .ok (s₁, .shareUnavailable)
      else if totalLimit.value ≤ s₁.uploadedBytes shareId then .ok (s₁, .byteQuotaReached)
      else if fileLimit.value ≤
          saturatingAddU64 (s₁.uploadedFiles shareId) (s₁.reservedFiles shareId expectedEpoch) then
        .ok (s₁, .fileQuotaReached)
      else
        match s₁.reservations.insert?
          ⟨token, shareId, 0, now, now + uploadReservationTtl, expectedEpoch⟩ with
        | none => .error .constraint
        | some reservations => .ok ({ s₁ with reservations }, .reserved)
    | _, _ => .ok (s₁, .shareUnavailable)

end Begin

section Extend

inductive UploadReservationExtendOutcome
  | extended
  | byteQuotaReached
  | notFound
  | shareUnavailable
deriving DecidableEq

/-- The reserved bytes of the other reservations of a share and epoch. -/
def Store.otherReservedBytes (s : Store) (token : String) (shareId epoch : ℕ) : ℕ :=
  s.reservations.sum (fun row => ofEpoch shareId epoch row && row.tokenHash ≠ token)
    Reservation.reservedBytes

def setReservedBytes (token : String) (bytes : ℕ) (expires : Instant) (s : Store) : Store :=
  { s with
    reservations := s.reservations.updateWhere (fun row => row.tokenHash = token) fun row =>
      { row with reservedBytes := bytes, expiresAt := expires } }

/-- `extend_upload_reservation_up_to`: the preferred target if the quota has room for it,
otherwise the required minimum. -/
def extendUploadReservationUpTo (now : Instant) (token : String) (minimum preferred : ℕ)
    (s : Store) : Except DbError (Store × UploadReservationExtendOutcome × ℕ) :=
  if preferred < minimum then .error .invalidQuery
  else
    let s₁ := deleteExpiredReservations now s
    match s₁.reservations.find? token with
    | none => .ok (s₁, .notFound, 0)
    | some row =>
      match availableUploadShareTotalLimit row.shareId row.uploadPolicyEpoch now s₁ with
      | none => .ok (deleteReservation token s₁, .shareUnavailable, 0)
      | some totalLimit =>
        if minimum < row.reservedBytes then .error .invalidQuery
        else if maxSqliteUnsigned < minimum then
          .ok (s₁, .byteQuotaReached, row.reservedBytes)
        else
          let used := s₁.uploadedBytes row.shareId +
            s₁.otherReservedBytes token row.shareId row.uploadPolicyEpoch
          if totalLimit.value < used || totalLimit.value - used < minimum then
            .ok (s₁, .byteQuotaReached, row.reservedBytes)
          else
            let reserved :=
              if preferred ≤ totalLimit.value - used && preferred ≤ maxSqliteUnsigned
              then preferred else minimum
            .ok (setReservedBytes token reserved (now + uploadReservationTtl) s₁,
              .extended, reserved)

end Extend

section Commit

inductive UploadReservationCommitOutcome
  | committed
  | notFound
  | shareUnavailable
  | directoryQuotaReached
deriving DecidableEq

/-- The upsert of `public_upload_usage`. -/
def addUploadUsage (shareId bytes directories : ℕ) (s : Store) : Store :=
  match s.usage.insert? ⟨shareId, bytes, 1, directories⟩ with
  | some usage => { s with usage }
  | none =>
    { s with
      usage := s.usage.updateWhere (fun row => row.shareId = shareId) fun row =>
        { row with
          uploadedBytes := row.uploadedBytes + bytes
          uploadedFiles := row.uploadedFiles + 1
          createdDirectories := row.createdDirectories + directories } }

/-- The share-scoped operation that may be charged now. -/
def chargeable (operationHash : String) (shareId : ℕ) (row : UploadOperation) : Bool :=
  row.idHash = operationHash && row.scope = .share shareId && row.state = .committing &&
    !row.quotaCharged

/-- Marks the committing operation of this upload as charged; exactly one row must match. -/
def chargeUploadOperation (operationHash : Option String) (shareId : ℕ) (s : Store) :
    Except DbError Store :=
  match operationHash with
  | none => .ok s
  | some hash =>
    if s.uploadOperations.count (chargeable hash shareId) ≠ 1 then .error .invalidQuery
    else .ok { s with
      uploadOperations := s.uploadOperations.updateWhere (chargeable hash shareId) fun row =>
        { row with quotaCharged := true } }

/-- `commit_upload_reservation_internal`. -/
def commitUploadReservation (now : Instant) (token : String) (uploadedBytes directories : ℕ)
    (audited : Bool) (operationHash : Option String) (s : Store) :
    Except DbError (Store × UploadReservationCommitOutcome) :=
  let s₁ := deleteExpiredReservations now s
  match s₁.reservations.find? token with
  | none => .ok (s₁, .notFound)
  | some row =>
    if (availableUploadShareTotalLimit row.shareId row.uploadPolicyEpoch now s₁).isNone then
      .ok (deleteReservation token s₁, .shareUnavailable)
    else if maxSqliteUnsigned < uploadedBytes || row.reservedBytes < uploadedBytes then
      .error .invalidQuery
    else if maxPublicUploadCreatedDirectoriesPerShare <
        s₁.createdDirectories row.shareId + directories then
      .ok (deleteReservation token s₁, .directoryQuotaReached)
    else match chargeUploadOperation operationHash row.shareId s₁ with
      | .error e => .error e
      | .ok s₂ =>
        let s₃ := deleteReservation token (addUploadUsage row.shareId uploadedBytes directories s₂)
        let detail := s!"bytes={uploadedBytes};files=1;directories={directories}"
        let events := if audited then
            [⟨.uploadQuotaCommitted, some (toString row.shareId), some detail⟩] else []
        .ok (insertRequiredAudits events s₃, .committed)

def cancelUploadReservation (token : String) (s : Store) : Store × Bool :=
  (deleteReservation token s, s.reservations.count (fun row => row.tokenHash = token) = 1)

end Commit

section Committed

variable (now : Instant) (token : String) (clean : Store) (shareId epoch : ℕ)

/-- What `begin_upload_reservation` commits; `clean` is the store without expired reservations. -/
inductive BeginsReservation : Store → UploadReservationBeginOutcome → Prop
  | refused {outcome : UploadReservationBeginOutcome} (h : outcome ≠ .reserved) :
      BeginsReservation clean outcome
  | reserved {share : Share} {files : Limit} {reservations : KeyedTable Reservation.tokenHash}
      (hfind : clean.shares.find? shareId = some share) (hep : share.uploadPolicyEpoch = epoch)
      (hfiles : share.maxUploadFiles = some files)
      (hroom : clean.uploadedFiles shareId + clean.reservedFiles shareId epoch < files.value)
      (hins : clean.reservations.insert?
        ⟨token, shareId, 0, now, now + uploadReservationTtl, epoch⟩ = some reservations) :
      BeginsReservation { clean with reservations } .reserved

variable (minimum preferred : ℕ)

/-- What `extend_upload_reservation_up_to` commits. -/
inductive ExtendsReservation : Store → UploadReservationExtendOutcome → ℕ → Prop
  | refused {outcome : UploadReservationExtendOutcome} {reserved : ℕ} (h : outcome ≠ .extended) :
      ExtendsReservation clean outcome reserved
  | dropped : ExtendsReservation (deleteReservation token clean) .shareUnavailable 0
  | extended {row : Reservation} {total : Limit} {reserved : ℕ}
      (hfind : clean.reservations.find? token = some row)
      (htot : availableUploadShareTotalLimit row.shareId row.uploadPolicyEpoch now clean =
        some total)
      (hminimum : minimum ≤ reserved) (hpre : reserved ≤ preferred)
      (hroom : clean.uploadedBytes row.shareId +
        clean.otherReservedBytes token row.shareId row.uploadPolicyEpoch + reserved ≤ total.value) :
      ExtendsReservation
        (setReservedBytes token reserved (now + uploadReservationTtl) clean) .extended reserved

variable (bytes directories : ℕ) (operationHash : Option String)

/-- What `commit_upload_reservation_internal` commits. -/
inductive CommitsReservation : Store → UploadReservationCommitOutcome → Prop
  | notFound : CommitsReservation clean .notFound
  | dropped {outcome : UploadReservationCommitOutcome} (h : outcome ≠ .committed) :
      CommitsReservation (deleteReservation token clean) outcome
  | committed {row : Reservation} {total : Limit} {charged : Store} {events : List AuditRow}
      (hfind : clean.reservations.find? token = some row)
      (htot : availableUploadShareTotalLimit row.shareId row.uploadPolicyEpoch now clean =
        some total)
      (hbytes : bytes ≤ row.reservedBytes)
      (hdirs : clean.createdDirectories row.shareId + directories ≤
        maxPublicUploadCreatedDirectoriesPerShare)
      (hcharge : chargeUploadOperation operationHash row.shareId clean = .ok charged) :
      CommitsReservation (insertRequiredAudits events
        (deleteReservation token (addUploadUsage row.shareId bytes directories charged))) .committed

variable {now token} {s s' : Store}

theorem beginsReservation {shareId epoch : ℕ} {outcome : UploadReservationBeginOutcome}
    (h : beginUploadReservation now token shareId epoch s = .ok (s', outcome)) :
    BeginsReservation now token (deleteExpiredReservations now s) shareId epoch s' outcome := by
  simp only [beginUploadReservation] at h
  split at h
  · cases h
    exact .refused (by simp)
  · rename_i share hsh
    obtain ⟨hfind, hep⟩ := Option.filter_eq_some_iff.mp hsh
    split at h
    · rename_i hfiles
      split_ifs at h with _ _ hfull
      · cases h
        exact .refused (by simp)
      · cases h
        exact .refused (by simp)
      · cases h
        exact .refused (by simp)
      · split at h
        · cases h
        · rename_i hins
          cases h
          rw [Limit.le_saturatingAddU64_iff] at hfull
          exact .reserved hfind (by simpa using hep) hfiles (not_le.mp hfull) hins
    · cases h
      exact .refused (by simp)

theorem extendsReservation {minimum preferred reserved : ℕ}
    {outcome : UploadReservationExtendOutcome}
    (h : extendUploadReservationUpTo now token minimum preferred s = .ok (s', outcome, reserved)) :
    ExtendsReservation now token (deleteExpiredReservations now s) minimum preferred s' outcome
      reserved := by
  simp only [extendUploadReservationUpTo] at h
  split at h
  · cases h
  split at h
  · cases h
    exact .refused (by simp)
  rename_i row hfind
  split at h
  · cases h
    exact .dropped
  rename_i total htot
  split_ifs at h with hlower hlarge hquota hpre
  · cases h
    exact .refused (by simp)
  · cases h
    exact .refused (by simp)
  · cases h
    simp only [Bool.or_eq_true, Bool.and_eq_true, decide_eq_true_eq, not_or] at hquota hpre
    exact .extended hfind htot (by omega) le_rfl (by omega)
  · cases h
    simp only [Bool.or_eq_true, decide_eq_true_eq, not_or] at hquota
    exact .extended hfind htot le_rfl (by omega) (by omega)

theorem commitsReservation {bytes directories : ℕ} {audited : Bool} {operationHash : Option String}
    {outcome : UploadReservationCommitOutcome}
    (h : commitUploadReservation now token bytes directories audited operationHash s =
      .ok (s', outcome)) :
    CommitsReservation now token (deleteExpiredReservations now s) bytes directories operationHash
      s' outcome := by
  simp only [commitUploadReservation] at h
  split at h
  · cases h
    exact .notFound
  rename_i row hfind
  split at h
  · cases h
    exact .dropped (by simp)
  rename_i hunavailable
  split at h
  · cases h
  rename_i hinvalid
  split at h
  · cases h
    exact .dropped (by simp)
  rename_i hdirs
  split at h
  · cases h
  · rename_i hcharge
    cases h
    obtain ⟨total, htot⟩ := Option.ne_none_iff_exists'.mp (by simpa using hunavailable)
    simp only [Bool.or_eq_true, decide_eq_true_eq, not_or, not_lt] at hinvalid
    exact .committed hfind htot hinvalid.2 (not_lt.mp hdirs) hcharge

/-- The upsert touches the usage table only. -/
theorem addUploadUsage_eq (shareId bytes directories : ℕ) (s : Store) :
    addUploadUsage shareId bytes directories s =
      { s with usage := (addUploadUsage shareId bytes directories s).usage } := by
  unfold addUploadUsage
  split <;> rfl

/-- Charging an operation touches the operation table only. -/
theorem chargeUploadOperation_eq {operationHash : Option String} {shareId : ℕ}
    (h : chargeUploadOperation operationHash shareId s = .ok s') :
    s' = { s with uploadOperations := s'.uploadOperations } := by
  unfold chargeUploadOperation at h
  split at h
  · cases h
    rfl
  · split at h
    · cases h
    · cases h
      rfl

end Committed

section Frame

/-- The reservation transactions leave share rows, their sessions and transfers alone. -/
structure KeepsShares (s s' : Store) : Prop where
  shares_eq : s'.shares = s.shares
  grants_eq : s'.grants = s.grants
  leases_eq : s'.leases = s.leases
  monthlyCounts_eq : s'.monthlyCounts = s.monthlyCounts
  unlockSessions_eq : s'.unlockSessions = s.unlockSessions

variable {now : Instant} {token : String} {s s' : Store}

theorem KeepsShares.refl (s : Store) : KeepsShares s s := ⟨rfl, rfl, rfl, rfl, rfl⟩

theorem BeginsReservation.keepsShares {shareId epoch : ℕ} {outcome : UploadReservationBeginOutcome}
    (h : BeginsReservation now token (deleteExpiredReservations now s) shareId epoch s' outcome) :
    KeepsShares s s' := by
  cases h <;> exact ⟨rfl, rfl, rfl, rfl, rfl⟩

theorem ExtendsReservation.keepsShares {minimum preferred reserved : ℕ}
    {outcome : UploadReservationExtendOutcome}
    (h : ExtendsReservation now token (deleteExpiredReservations now s) minimum preferred s' outcome
      reserved) : KeepsShares s s' := by
  cases h <;> exact ⟨rfl, rfl, rfl, rfl, rfl⟩

theorem CommitsReservation.keepsShares {bytes directories : ℕ} {operationHash : Option String}
    {outcome : UploadReservationCommitOutcome}
    (h : CommitsReservation now token (deleteExpiredReservations now s) bytes directories
      operationHash s' outcome) : KeepsShares s s' := by
  cases h with
  | notFound | dropped => exact ⟨rfl, rfl, rfl, rfl, rfl⟩
  | committed _ _ _ _ hcharge =>
    rw [addUploadUsage_eq, chargeUploadOperation_eq hcharge]
    exact ⟨rfl, rfl, rfl, rfl, rfl⟩

end Frame

end VaultLink
