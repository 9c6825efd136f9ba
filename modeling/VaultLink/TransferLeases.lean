import VaultLink.Shares

/-!
# Transfer grants and leases

A grant is one logical, count-once transfer of a client session; each HTTP request that
serves it holds a lease. The four lease transactions first delete what has expired at
the clock reading they were given, so every function below takes that reading as an
argument: the caller decides whether the reading was made before or after the write
lock. A transaction that ends without a commit returns the store it was given.
-/
namespace VaultLink

/-- `TRANSFER_SESSION_TTL_SECONDS`. -/
def transferSessionTtl : ℤ := seconds (15 * 60)

/-- `TRANSFER_LEASE_MAX_LIFETIME_SECONDS`. -/
def transferLeaseMaxLifetime : ℤ := seconds (24 * 60 * 60)

section Cleanup

/-- Whether a grant has a lease that is live at `now`. -/
def Store.liveLeased (s : Store) (now : Instant) (grant : Grant) : Bool :=
  s.leases.any fun lease => lease.grantId = grant.id && now < lease.expiresAt

/-- `cleanup_transfer_state`: expired leases, expired grants, then uncounted grants that no
live lease serves. -/
def cleanupTransferState (now : Instant) (s : Store) : Store :=
  let s₁ := { s with leases := s.leases.deleteWhere fun lease => lease.expiresAt ≤ now }
  let s₂ := deleteGrantsWhere (fun grant => grant.expiresAt ≤ now) s₁
  deleteGrantsWhere (fun grant => !grant.counted && !s₂.liveLeased now grant) s₂

/-- `id IN (SELECT grant_id FROM public_transfer_leases WHERE token_hash=?2)`. -/
def Store.servedBy (s : Store) (token : String) (grant : Grant) : Bool :=
  s.leases.any fun lease => lease.tokenHash = token && lease.grantId = grant.id

/-- `cleanup_transfer_state_before_heartbeat`: the same three deletions, sparing the lease
that is being renewed and its grant. -/
def cleanupTransferStateBeforeHeartbeat (now : Instant) (current : String) (s : Store) : Store :=
  let s₁ := { s with
    leases := s.leases.deleteWhere fun lease =>
      lease.expiresAt ≤ now && lease.tokenHash ≠ current }
  let s₂ := deleteGrantsWhere
    (fun grant => !s₁.servedBy current grant && grant.expiresAt ≤ now) s₁
  deleteGrantsWhere
    (fun grant => !grant.counted && !s₂.servedBy current grant && !s₂.liveLeased now grant) s₂

end Cleanup

section Access

inductive TransferAccessState
  | unauthorized
  | available
  | existingGrant (grantId : ℕ) (counted : Bool)
  | limitReached
  | shareUnavailable

/-- The share row a download may use at `now`. -/
def Store.downloadableShare (s : Store) (shareId : ℕ) (now : Instant) : Option Share :=
  (s.shares.find? shareId).filter fun share =>
    share.active && share.unexpired now && share.permission.canDownload

/-- Whether an unlock token names a live unlock session of the share. -/
def Store.unlocked (s : Store) (shareId : ℕ) (unlockToken : Option String) (now : Instant) :
    Bool :=
  unlockToken.any fun token => s.unlockSessions.any fun session =>
    session.tokenHash = token && session.shareId = shareId && now < session.expiresAt

/-- The identity of a logical transfer. -/
structure TransferKey where
  sessionTokenHash : String
  shareId : ℕ
  resourceKey : String
  action : String
deriving DecidableEq

def Grant.key (grant : Grant) : TransferKey :=
  ⟨grant.sessionTokenHash, grant.shareId, grant.resourceKey, grant.action⟩

/-- The grant that already covers a transfer, if any. -/
def Store.existingGrant (s : Store) (key : TransferKey) (now : Instant) : Option Grant :=
  s.grants.rows.find? fun grant =>
    grant.key = key && now < grant.expiresAt && (grant.counted || s.liveLeased now grant)

/-- The uncounted grants of a share that a live lease is serving. -/
def Store.pendingGrants (s : Store) (shareId : ℕ) (now : Instant) : ℕ :=
  s.grants.count fun grant =>
    grant.shareId = shareId && !grant.counted && now < grant.expiresAt && s.liveLeased now grant

def transferAccessState (key : TransferKey) (unlockToken : Option String) (now : Instant)
    (s : Store) : TransferAccessState :=
  match s.downloadableShare key.shareId now with
  | none => .shareUnavailable
  | some share =>
    if share.passwordHash.isSome && !s.unlocked key.shareId unlockToken now then .unauthorized
    else match s.existingGrant key now with
    | some grant => .existingGrant grant.id grant.counted
    | none =>
      if share.maxDownloads.any fun maximum => maximum.value ≤
          saturatingAddI64 share.downloadCount (s.pendingGrants key.shareId now) then
        .limitReached
      else .available

end Access

section Begin

inductive TransferLeaseBeginOutcome
  | unauthorized
  | alreadyCounted
  | newLease
  | limitReached
  | shareUnavailable
deriving DecidableEq

/-- The outcomes of a begin that created a lease. -/
def TransferLeaseBeginOutcome.leased (outcome : TransferLeaseBeginOutcome) : Bool :=
  outcome = .newLease || outcome = .alreadyCounted

/-- `INSERT INTO public_transfer_leases` with its foreign key. -/
def insertLease (token : String) (grantId : ℕ) (now : Instant) (s : Store) :
    Except DbError Store :=
  if s.grants.any fun grant => grant.id = grantId then
    match s.leases.insert? ⟨token, grantId, now, now, now + transferSessionTtl⟩ with
    | some leases => .ok { s with leases }
    | none => .error .constraint
  else .error .constraint

/-- `INSERT INTO public_transfer_grants` with its checks, its unique key and its foreign key. -/
def insertGrant (key : TransferKey) (now : Instant) (s : Store) : Except DbError (Store × ℕ) :=
  if key.resourceKey = "" || key.action = "" || s.grants.any (fun grant => grant.key = key) ||
      !s.shares.any (fun share => share.id = key.shareId) then .error .constraint
  else
    let id := nextRowid (s.grants.rows.map Grant.id)
    match s.grants.insert?
      ⟨id, key.sessionTokenHash, key.shareId, key.resourceKey, key.action, false, now,
        now + transferSessionTtl⟩ with
    | some grants => .ok ({ s with grants }, id)
    | none => .error .constraint

def setGrantExpiry (grantId : ℕ) (expires : Instant) (s : Store) : Store :=
  { s with
    grants := s.grants.updateWhere (fun grant => grant.id = grantId) fun grant =>
      { grant with expiresAt := expires } }

/-- `begin_authorized_transfer_lease`. An unauthorized request returns without a commit, so
its cleanup is rolled back. -/
def beginAuthorizedTransferLease (now : Instant) (key : TransferKey) (unlockToken : Option String)
    (leaseToken : String) (s : Store) : Except DbError (Store × TransferLeaseBeginOutcome) :=
  let s₁ := cleanupTransferState now s
  match transferAccessState key unlockToken now s₁ with
  | .unauthorized => .ok (s, .unauthorized)
  | .existingGrant grantId counted =>
    let s₂ := if counted then s₁ else setGrantExpiry grantId (now + transferSessionTtl) s₁
    match insertLease leaseToken grantId now s₂ with
    | .error e => .error e
    | .ok s₃ => .ok (s₃, if counted then .alreadyCounted else .newLease)
  | .limitReached => .ok (s₁, .limitReached)
  | .shareUnavailable => .ok (s₁, .shareUnavailable)
  | .available =>
    match insertGrant key now s₁ with
    | .error e => .error e
    | .ok (s₂, grantId) =>
      match insertLease leaseToken grantId now s₂ with
      | .error e => .error e
      | .ok s₃ => .ok (s₃, .newLease)

end Begin

section Counting

/-- The civil month of an instant, `now[..7]` of its RFC 3339 text. -/
def utcMonth (now : Instant) : ℤ × ℤ :=
  let z := now.fdiv (seconds 86400) + 719468
  let era := z.fdiv 146097
  let doe := z - era * 146097
  let yoe := (doe - doe / 1460 + doe / 36524 - doe / 146096) / 365
  let doy := doe - (365 * yoe + yoe / 4 - yoe / 100)
  let mp := (5 * doy + 2) / 153
  let month := if mp < 10 then mp + 3 else mp - 9
  (yoe + era * 400 + if month ≤ 2 then 1 else 0, month)

example : utcMonth (seconds 1709210096) = (2024, 2) := by decide

def requiredTransferAuditAction (action : String) : Except DbError AuditAction :=
  if action = "download" then .ok .download
  else if action = "zip_download" then .ok .zipDownload
  else if action = "preview" then .ok .preview
  else .error .invalidQuery

/-- `increment_transfer_monthly_count`: other actions are not counted. -/
def incrementTransferMonthlyCount (month : ℤ × ℤ) (action : String) (s : Store) : Store :=
  if action = "download" || action = "zip_download" || action = "preview" then
    match s.monthlyCounts.insert? ⟨month, action, 1⟩ with
    | some monthlyCounts => { s with monthlyCounts }
    | none =>
      { s with
        monthlyCounts := s.monthlyCounts.updateWhere
          (fun row => row.month = month && row.action = action) fun row =>
          { row with count := row.count + 1 } }
  else s

def incrementDownloadCount (shareId : ℕ) (s : Store) : Store :=
  { s with
    shares := s.shares.updateWhere (fun share => share.id = shareId) fun share =>
      { share with downloadCount := share.downloadCount + 1 } }

def markGrantCounted (grantId : ℕ) (expires : Instant) (s : Store) : Store :=
  { s with
    grants := s.grants.updateWhere (fun grant => grant.id = grantId && !grant.counted) fun grant =>
      { grant with counted := true, expiresAt := expires } }

/-- The statements that count a grant once: the share's counter, the grant and the monthly
total. Each of the first two must affect exactly one row. -/
def countGrant (now : Instant) (grant : Grant) (s : Store) : Except DbError Store :=
  if s.shares.count (fun share => share.id = grant.shareId) ≠ 1 then .error .queryReturnedNoRows
  else
    let s₁ := incrementDownloadCount grant.shareId s
    if s₁.grants.count (fun row => row.id = grant.id && !row.counted) ≠ 1 then
      .error .queryReturnedNoRows
    else
      let s₂ := markGrantCounted grant.id (now + transferSessionTtl) s₁
      .ok (incrementTransferMonthlyCount (utcMonth now) grant.action s₂)

def deleteLease (token : String) (s : Store) : Store :=
  { s with leases := s.leases.deleteWhere fun lease => lease.tokenHash = token }

/-- A lease joined with its grant. -/
def Store.leaseGrant (s : Store) (token : String) : Option (Lease × Grant) :=
  (s.leases.find? token).bind fun lease =>
    (s.grants.find? lease.grantId).map fun grant => (lease, grant)

end Counting

section Completion

inductive TransferLeaseCompleteOutcome
  | counted
  | alreadyCounted
  | notFound
deriving DecidableEq

def completeTransferLeaseAndAudit (now : Instant) (leaseToken : String) (s : Store) :
    Except DbError (Store × TransferLeaseCompleteOutcome) :=
  let s₁ := cleanupTransferState now s
  match s₁.leaseGrant leaseToken with
  | none => .ok (s₁, .notFound)
  | some (lease, grant) =>
    if !(now < lease.expiresAt && now < grant.expiresAt) then .ok (s₁, .notFound)
    else if grant.counted then .ok (deleteLease leaseToken s₁, .alreadyCounted)
    else match countGrant now grant s₁, requiredTransferAuditAction grant.action with
      | .ok s₂, .ok action =>
        .ok (insertRequiredAudits
          [⟨action, some (toString grant.shareId), some "completed transfer session"⟩]
          (deleteLease leaseToken s₂), .counted)
      | .error e, _ => .error e
      | _, .error e => .error e

inductive TransferLeaseCancelOutcome
  | cancelled
  | notFound
deriving DecidableEq

/-- `cancel_transfer_lease`: the last lease of an uncounted grant releases its slot. -/
def cancelTransferLease (now : Instant) (leaseToken : String) (s : Store) :
    Except DbError (Store × TransferLeaseCancelOutcome) :=
  let s₁ := cleanupTransferState now s
  match s₁.leaseGrant leaseToken with
  | none => .ok (s₁, .notFound)
  | some (_, grant) =>
    let s₂ := deleteLease leaseToken s₁
    if grant.counted then .ok (s₂, .cancelled)
    else
      .ok (deleteGrantsWhere (fun row => row.id = grant.id && !row.counted &&
        !s₂.leases.any fun lease => lease.grantId = grant.id) s₂, .cancelled)

inductive TransferLeaseHeartbeatOutcome
  | extended
  | cappedAndCounted
  | cappedAlreadyCounted
  | notFound
deriving DecidableEq

def renewLease (token : String) (now expires : Instant) (s : Store) : Store :=
  { s with
    leases := s.leases.updateWhere (fun lease => lease.tokenHash = token) fun lease =>
      { lease with heartbeatAt := now, expiresAt := expires } }

/-- `SELECT MAX(expires_at) FROM public_transfer_leases WHERE grant_id=?1`. -/
def Store.latestLeaseExpiry (s : Store) (grantId : ℕ) : Option Instant :=
  ((s.leases.rows.filter fun lease => lease.grantId = grantId).map Lease.expiresAt).max?

/-- `heartbeat_transfer_lease_and_audit`. A lease that has reached its maximum lifetime is
closed, and its grant counted if it was not yet; an older reading may still find a lease
that other cleanups would have deleted. -/
def heartbeatTransferLeaseAndAudit (now : Instant) (leaseToken : String) (s : Store) :
    Except DbError (Store × TransferLeaseHeartbeatOutcome) :=
  let s₁ := cleanupTransferStateBeforeHeartbeat now leaseToken s
  match s₁.leaseGrant leaseToken with
  | none => .ok (cleanupTransferState now s₁, .notFound)
  | some (lease, grant) =>
    let absoluteExpiry := lease.createdAt + transferLeaseMaxLifetime
    if absoluteExpiry ≤ now then
      if grant.counted then
        .ok (cleanupTransferState now (deleteLease leaseToken s₁), .cappedAlreadyCounted)
      else match countGrant now grant s₁, requiredTransferAuditAction grant.action with
        | .ok s₂, .ok action =>
          .ok (insertRequiredAudits
            [⟨action, some (toString grant.shareId), some "capped transfer session"⟩]
            (cleanupTransferState now (deleteLease leaseToken s₂)), .cappedAndCounted)
        | .error e, _ => .error e
        | _, .error e => .error e
    else if lease.expiresAt ≤ now then .ok (cleanupTransferState now s₁, .notFound)
    else
      let s₂ := renewLease leaseToken now (min (now + transferSessionTtl) absoluteExpiry) s₁
      if grant.counted then .ok (s₂, .extended)
      else match s₂.latestLeaseExpiry grant.id with
        | none => .error .constraint
        | some expires => .ok (setGrantExpiry grant.id expires s₂, .extended)

end Completion

section Statements

open KeyedTable

variable {now : Instant} {key : TransferKey} {token : String} {grantId : ℕ} {lease : Lease}
  {grant : Grant} {s s' : Store}

/-- A lease is inserted for a stored grant and changes no other table. -/
theorem insertLease_inserts (h : insertLease token grantId now s = .ok s') :
    (∃ grant ∈ s.grants, grant.id = grantId) ∧ ∃ leases,
      s.leases.insert? ⟨token, grantId, now, now, now + transferSessionTtl⟩ = some leases ∧
        s' = { s with leases } := by
  unfold insertLease at h
  split at h
  · rename_i hgr
    split at h
    · rename_i leases hins
      cases h
      obtain ⟨grant, hmem, hid⟩ := any_iff.mp hgr
      exact ⟨⟨grant, hmem, of_decide_eq_true hid⟩, leases, hins, rfl⟩
    · cases h
  · cases h

/-- The row an accepted `insertGrant` adds. -/
def newGrant (key : TransferKey) (now : Instant) (s : Store) : Grant :=
  ⟨nextRowid (s.grants.rows.map Grant.id), key.sessionTokenHash, key.shareId, key.resourceKey,
    key.action, false, now, now + transferSessionTtl⟩

theorem insertGrant_row (h : insertGrant key now s = .ok (s', grantId)) :
    (∃ share ∈ s.shares, share.id = key.shareId) ∧ grantId = (newGrant key now s).id ∧
      ∃ grants, s.grants.insert? (newGrant key now s) = some grants ∧ s' = { s with grants } := by
  simp only [insertGrant] at h
  split at h
  · cases h
  · rename_i hvalid
    split at h
    · rename_i hins
      cases h
      refine ⟨?_, rfl, _, hins, rfl⟩
      simp only [Bool.or_eq_true, not_or, Bool.not_eq_true', Bool.not_eq_false] at hvalid
      obtain ⟨share, hsh, hid⟩ := any_iff.mp hvalid.2
      exact ⟨share, hsh, of_decide_eq_true hid⟩
    · cases h

theorem incrementTransferMonthlyCount_store (month : ℤ × ℤ) (action : String) (s : Store) :
    incrementTransferMonthlyCount month action s =
      { s with monthlyCounts := (incrementTransferMonthlyCount month action s).monthlyCounts } := by
  unfold incrementTransferMonthlyCount
  split
  · split <;> rfl
  · rfl

theorem incrementTransferMonthlyCount_congr {s s' : Store}
    (h : s'.monthlyCounts = s.monthlyCounts) (month : ℤ × ℤ) (action : String) :
    (incrementTransferMonthlyCount month action s').monthlyCounts =
      (incrementTransferMonthlyCount month action s).monthlyCounts := by
  unfold incrementTransferMonthlyCount
  rw [h]
  split
  · cases s.monthlyCounts.insert? ⟨month, action, 1⟩ <;> rfl
  · exact h

/-- The statements of `countGrant` when they all find their rows. -/
theorem countGrant_ok {s₂ : Store} (h : countGrant now grant s = .ok s₂) :
    (∃ share ∈ s.shares, share.id = grant.shareId) ∧ s₂ = { s with
      shares := (incrementDownloadCount grant.shareId s).shares
      grants := (markGrantCounted grant.id (now + transferSessionTtl) s).grants
      monthlyCounts :=
        (incrementTransferMonthlyCount (utcMonth now) grant.action s).monthlyCounts } := by
  simp only [countGrant] at h
  split at h
  · cases h
  · rename_i hsh
    split at h
    · cases h
    · cases h
      constructor
      · have hone : 0 < s.shares.rows.countP fun share => share.id = grant.shareId := by
          have := not_not.mp hsh
          rw [count] at this
          omega
        obtain ⟨share, hmem, hid⟩ := List.countP_pos_iff.mp hone
        exact ⟨share, hmem, of_decide_eq_true hid⟩
      · have hmon : (incrementTransferMonthlyCount (utcMonth now) grant.action
            (markGrantCounted grant.id (now + transferSessionTtl)
              (incrementDownloadCount grant.shareId s))).monthlyCounts =
            (incrementTransferMonthlyCount (utcMonth now) grant.action s).monthlyCounts :=
          incrementTransferMonthlyCount_congr (by rfl) _ _
        rw [incrementTransferMonthlyCount_store, hmon]
        rfl

theorem leaseGrant_stored (h : s.leaseGrant token = some (lease, grant)) :
    lease ∈ s.leases ∧ lease.tokenHash = token ∧ grant ∈ s.grants ∧ grant.id = lease.grantId := by
  simp only [Store.leaseGrant, Option.bind_eq_some_iff, Option.map_eq_some_iff,
    Prod.mk.injEq] at h
  obtain ⟨found, hfound, grant', hgr', rfl, rfl⟩ := h
  obtain ⟨hlease, htok⟩ := find?_some hfound
  obtain ⟨hgr, hid⟩ := find?_some hgr'
  exact ⟨hlease, htok, hgr, hid⟩

end Statements

section Committed

variable (now : Instant) (key : TransferKey) (unlockToken : Option String) (token : String)
  (s clean : Store)

/-- The statements behind each outcome of a begin, after its cleanup. -/
inductive BeginsLease : Store → TransferLeaseBeginOutcome → Prop
  | unauthorized (hacc : transferAccessState key unlockToken now clean = .unauthorized) :
      BeginsLease s .unauthorized
  | counted {grantId : ℕ} {s' : Store}
      (hacc : transferAccessState key unlockToken now clean = .existingGrant grantId true)
      (hlease : insertLease token grantId now clean = .ok s') : BeginsLease s' .alreadyCounted
  | joined {grantId : ℕ} {s' : Store}
      (hacc : transferAccessState key unlockToken now clean = .existingGrant grantId false)
      (hlease : insertLease token grantId now
        (setGrantExpiry grantId (now + transferSessionTtl) clean) = .ok s') :
      BeginsLease s' .newLease
  | limitReached (hacc : transferAccessState key unlockToken now clean = .limitReached) :
      BeginsLease clean .limitReached
  | shareUnavailable (hacc : transferAccessState key unlockToken now clean = .shareUnavailable) :
      BeginsLease clean .shareUnavailable
  | granted {s₂ s' : Store} {grantId : ℕ}
      (hacc : transferAccessState key unlockToken now clean = .available)
      (hgr : insertGrant key now clean = .ok (s₂, grantId))
      (hlease : insertLease token grantId now s₂ = .ok s') : BeginsLease s' .newLease

/-- The statements behind each outcome of a completion, after its cleanup. -/
inductive CompletesLease : Store → TransferLeaseCompleteOutcome → Prop
  | notFound : CompletesLease clean .notFound
  | alreadyCounted : CompletesLease (deleteLease token clean) .alreadyCounted
  | counted {lease : Lease} {grant : Grant} {s₂ : Store} {row : AuditRow}
      (hfound : clean.leaseGrant token = some (lease, grant)) (hcounted : grant.counted = false)
      (hcount : countGrant now grant clean = .ok s₂)
      (hactn : requiredTransferAuditAction grant.action = .ok row.action) :
      CompletesLease (insertRequiredAudits [row] (deleteLease token s₂)) .counted

/-- The statements behind each outcome of a cancellation, after its cleanup. -/
inductive CancelsLease : Store → TransferLeaseCancelOutcome → Prop
  | notFound : CancelsLease clean .notFound
  | kept : CancelsLease (deleteLease token clean) .cancelled
  | released (grant : Grant) :
      CancelsLease (deleteGrantsWhere (fun row => row.id = grant.id && !row.counted &&
        !(deleteLease token clean).leases.any fun lease => lease.grantId = grant.id)
        (deleteLease token clean)) .cancelled

/-- The statements behind each outcome of a heartbeat, after its first cleanup. -/
inductive BeatsLease : Store → TransferLeaseHeartbeatOutcome → Prop
  | notFound : BeatsLease (cleanupTransferState now clean) .notFound
  | cappedAlreadyCounted {lease : Lease} {grant : Grant}
      (hfound : clean.leaseGrant token = some (lease, grant))
      (hmax : lease.createdAt + transferLeaseMaxLifetime ≤ now) :
      BeatsLease (cleanupTransferState now (deleteLease token clean)) .cappedAlreadyCounted
  | cappedAndCounted {lease : Lease} {grant : Grant} {s₂ : Store} {row : AuditRow}
      (hfound : clean.leaseGrant token = some (lease, grant))
      (hmax : lease.createdAt + transferLeaseMaxLifetime ≤ now)
      (hcounted : grant.counted = false) (hcount : countGrant now grant clean = .ok s₂)
      (hactn : requiredTransferAuditAction grant.action = .ok row.action) :
      BeatsLease (insertRequiredAudits [row] (cleanupTransferState now (deleteLease token s₂)))
        .cappedAndCounted
  | extended {lease : Lease} {grant : Grant} {expires : Instant}
      (hfound : clean.leaseGrant token = some (lease, grant)) (hcounted : grant.counted = true)
      (haft : now < lease.createdAt + transferLeaseMaxLifetime)
      (hexp : min (now + transferSessionTtl) (lease.createdAt + transferLeaseMaxLifetime) =
        expires) : BeatsLease (renewLease token now expires clean) .extended
  | prolonged {lease : Lease} {grant : Grant} {expires latest : Instant}
      (hfound : clean.leaseGrant token = some (lease, grant)) (hcounted : grant.counted = false)
      (haft : now < lease.createdAt + transferLeaseMaxLifetime)
      (hexp : min (now + transferSessionTtl) (lease.createdAt + transferLeaseMaxLifetime) =
        expires)
      (hlatest : (renewLease token now expires clean).latestLeaseExpiry grant.id = some latest) :
      BeatsLease (setGrantExpiry grant.id latest (renewLease token now expires clean)) .extended

variable {now key unlockToken token s} {s' : Store}

theorem beginsLease {outcome : TransferLeaseBeginOutcome}
    (h : beginAuthorizedTransferLease now key unlockToken token s = .ok (s', outcome)) :
    BeginsLease now key unlockToken token s (cleanupTransferState now s) s' outcome := by
  simp only [beginAuthorizedTransferLease] at h
  split at h <;> rename_i hacc
  · cases h
    exact .unauthorized hacc
  · rename_i counted
    split at h
    · cases h
    · rename_i hlease
      cases counted <;> cases h
      · exact .joined hacc hlease
      · exact .counted hacc hlease
  · cases h
    exact .limitReached hacc
  · cases h
    exact .shareUnavailable hacc
  · split at h
    · cases h
    · rename_i hgr
      split at h
      · cases h
      · rename_i hlease
        cases h
        exact .granted hacc hgr hlease

theorem completesLease {outcome : TransferLeaseCompleteOutcome}
    (h : completeTransferLeaseAndAudit now token s = .ok (s', outcome)) :
    CompletesLease now token (cleanupTransferState now s) s' outcome := by
  simp only [completeTransferLeaseAndAudit] at h
  split at h
  · cases h
    exact .notFound
  · rename_i hfound
    split_ifs at h with _ hcounted
    · cases h
      exact .notFound
    · cases h
      exact .alreadyCounted
    · split at h
      · rename_i hcount hactn
        cases h
        exact .counted hfound (by simpa using hcounted) hcount hactn
      · cases h
      · cases h

theorem cancelsLease {outcome : TransferLeaseCancelOutcome}
    (h : cancelTransferLease now token s = .ok (s', outcome)) :
    CancelsLease token (cleanupTransferState now s) s' outcome := by
  simp only [cancelTransferLease] at h
  split at h
  · cases h
    exact .notFound
  · split_ifs at h <;> cases h
    · exact .kept
    · exact .released _

theorem beatsLease {outcome : TransferLeaseHeartbeatOutcome}
    (h : heartbeatTransferLeaseAndAudit now token s = .ok (s', outcome)) :
    BeatsLease now token (cleanupTransferStateBeforeHeartbeat now token s) s' outcome := by
  simp only [heartbeatTransferLeaseAndAudit] at h
  split at h
  · cases h
    exact .notFound
  · rename_i hfound
    split_ifs at h with hmax hcounted _ hcounted
    · cases h
      exact .cappedAlreadyCounted hfound hmax
    · split at h
      · rename_i hcount hactn
        cases h
        exact .cappedAndCounted hfound hmax (by simpa using hcounted) hcount hactn
      · cases h
      · cases h
    · cases h
      exact .notFound
    · cases h
      exact .extended hfound hcounted (not_le.mp hmax) rfl
    · split at h
      · cases h
      · rename_i hlatest
        cases h
        exact .prolonged hfound (by simpa using hcounted) (not_le.mp hmax) rfl hlatest

/-- A statement with which a lease is completed, cancelled or renewed. -/
inductive LeaseStatement : Store → Store → Prop
  | deleteLeases {s : Store} (p : Lease → Bool) :
      LeaseStatement s { s with leases := s.leases.deleteWhere p }
  | deleteGrants {s : Store} (p : Grant → Bool) : LeaseStatement s (deleteGrantsWhere p s)
  | countGrant {now : Instant} {grant : Grant} {s s' : Store} (hgr : grant ∈ s.grants)
      (hcounted : grant.counted = false) (hcount : countGrant now grant s = .ok s') :
      LeaseStatement s s'
  | renewLease {lease : Lease} {expires : Instant} {s : Store} (hlease : lease ∈ s.leases)
      (hexp : expires ≤ lease.createdAt + transferLeaseMaxLifetime) (now : Instant) :
      LeaseStatement s (renewLease lease.tokenHash now expires s)
  | setGrantExpiry {grant : Grant} {expires : Instant} {s : Store} (hgr : grant ∈ s.grants)
      (hcounted : grant.counted = false) : LeaseStatement s (setGrantExpiry grant.id expires s)
  | audits {s : Store} (events : List AuditRow) : LeaseStatement s (insertRequiredAudits events s)

abbrev LeaseStatements : Store → Store → Prop := Relation.ReflTransGen LeaseStatement

theorem cleanup_statements {s₀ : Store} (h : LeaseStatements s₀ s) (now : Instant) :
    LeaseStatements s₀ (cleanupTransferState now s) :=
  ((h.tail (.deleteLeases _)).tail (.deleteGrants _)).tail (.deleteGrants _)

theorem complete_statements (now : Instant) (token : String) (s : Store) :
    LeaseStatements s (committed s (completeTransferLeaseAndAudit now token s)) := by
  refine committed_inv (P := LeaseStatements s) .refl fun s' outcome h => ?_
  have hclean : LeaseStatements s (cleanupTransferState now s) := cleanup_statements .refl now
  cases completesLease h with
  | notFound => exact hclean
  | alreadyCounted => exact hclean.tail (.deleteLeases _)
  | counted hfound hcounted hcount =>
    have haft := hclean.tail (.countGrant (leaseGrant_stored hfound).2.2.1 hcounted hcount)
    exact (haft.tail (.deleteLeases _)).tail (.audits _)

theorem cancel_statements (now : Instant) (token : String) (s : Store) :
    LeaseStatements s (committed s (cancelTransferLease now token s)) := by
  refine committed_inv (P := LeaseStatements s) .refl fun s' outcome h => ?_
  have hclean : LeaseStatements s (cleanupTransferState now s) := cleanup_statements .refl now
  cases cancelsLease h with
  | notFound => exact hclean
  | kept => exact hclean.tail (.deleteLeases _)
  | released => exact (hclean.tail (.deleteLeases _)).tail (.deleteGrants _)

theorem heartbeat_statements (now : Instant) (token : String) (s : Store) :
    LeaseStatements s (committed s (heartbeatTransferLeaseAndAudit now token s)) := by
  refine committed_inv (P := LeaseStatements s) .refl fun s' outcome h => ?_
  have hclean : LeaseStatements s (cleanupTransferStateBeforeHeartbeat now token s) :=
    ((Relation.ReflTransGen.single (.deleteLeases _)).tail (.deleteGrants _)).tail (.deleteGrants _)
  cases beatsLease h with
  | notFound => exact cleanup_statements hclean now
  | cappedAlreadyCounted => exact cleanup_statements (hclean.tail (.deleteLeases _)) now
  | cappedAndCounted hfound _ hcounted hcount =>
    have haft := hclean.tail (.countGrant (leaseGrant_stored hfound).2.2.1 hcounted hcount)
    exact (cleanup_statements (haft.tail (.deleteLeases _)) now).tail (.audits _)
  | extended hfound _ _ hexp =>
    obtain ⟨hlease, rfl, -⟩ := leaseGrant_stored hfound
    exact hclean.tail (.renewLease hlease (hexp ▸ min_le_right _ _) now)
  | prolonged hfound hcounted _ hexp =>
    obtain ⟨hlease, rfl, hgr, -⟩ := leaseGrant_stored hfound
    refine (hclean.tail (.renewLease hlease (hexp ▸ min_le_right _ _) now)).tail ?_
    exact .setGrantExpiry (s := renewLease _ _ _ _) hgr hcounted

end Committed

section Frame

/-- What a lease transaction may do outside the transfer tables: count one download. -/
structure KeepsUploads (s s' : Store) : Prop where
  usage_eq : s'.usage = s.usage
  reservations_eq : s'.reservations = s.reservations
  unlockSessions_eq : s'.unlockSessions = s.unlockSessions
  shares_eq : s'.shares = s.shares ∨ ∃ id, s'.shares = (incrementDownloadCount id s).shares

theorem KeepsUploads.refl (s : Store) : KeepsUploads s s := ⟨rfl, rfl, rfl, Or.inl rfl⟩

/-- Statements on other tables before and after a counted grant change nothing here. -/
theorem KeepsUploads.countGrant {now : Instant} {grant : Grant} {s₀ s s' : Store}
    (husa : s.usage = s₀.usage) (hreservations : s.reservations = s₀.reservations)
    (hunlock : s.unlockSessions = s₀.unlockSessions) (hshares : s.shares = s₀.shares)
    (h : VaultLink.countGrant now grant s = .ok s') :
    KeepsUploads s₀ s' := by
  obtain ⟨-, rfl⟩ := countGrant_ok h
  refine ⟨husa, hreservations, hunlock, Or.inr ⟨grant.shareId, ?_⟩⟩
  unfold incrementDownloadCount
  rw [hshares]

theorem KeepsUploads.insertLease {token : String} {grantId : ℕ} {now : Instant} {s₀ s s' : Store}
    (h₀ : KeepsUploads s₀ s) (h : VaultLink.insertLease token grantId now s = .ok s') :
    KeepsUploads s₀ s' := by
  obtain ⟨-, leases, -, rfl⟩ := insertLease_inserts h
  exact { h₀ with }

theorem KeepsUploads.insertGrant {key : TransferKey} {now : Instant} {s₀ s s' : Store} {grantId : ℕ}
    (h₀ : KeepsUploads s₀ s) (h : VaultLink.insertGrant key now s = .ok (s', grantId)) :
    KeepsUploads s₀ s' := by
  obtain ⟨-, -, grants, -, rfl⟩ := insertGrant_row h
  exact { h₀ with }

section Transactions

variable {now : Instant} {key : TransferKey} {unlockToken : Option String} {token : String}
  {s s' : Store}

theorem beginAuthorizedTransferLease_keepsUploads {outcome : TransferLeaseBeginOutcome}
    (h : beginAuthorizedTransferLease now key unlockToken token s = .ok (s', outcome)) :
    KeepsUploads s s' := by
  cases beginsLease h with
  | unauthorized => exact KeepsUploads.refl s
  | limitReached | shareUnavailable => exact ⟨rfl, rfl, rfl, Or.inl rfl⟩
  | counted _ hlease | joined _ hlease =>
    refine .insertLease ?_ hlease
    exact ⟨rfl, rfl, rfl, .inl rfl⟩
  | granted _ hgr hlease =>
    refine .insertLease (.insertGrant ?_ hgr) hlease
    exact ⟨rfl, rfl, rfl, .inl rfl⟩

theorem completeTransferLeaseAndAudit_keepsUploads {outcome : TransferLeaseCompleteOutcome}
    (h : completeTransferLeaseAndAudit now token s = .ok (s', outcome)) : KeepsUploads s s' := by
  cases completesLease h with
  | notFound | alreadyCounted => exact ⟨rfl, rfl, rfl, Or.inl rfl⟩
  | counted _ _ hcount => exact { KeepsUploads.countGrant rfl rfl rfl rfl hcount with }

theorem cancelTransferLease_keepsUploads {outcome : TransferLeaseCancelOutcome}
    (h : cancelTransferLease now token s = .ok (s', outcome)) : KeepsUploads s s' := by
  cases cancelsLease h <;> exact ⟨rfl, rfl, rfl, Or.inl rfl⟩

theorem heartbeatTransferLeaseAndAudit_keepsUploads {outcome : TransferLeaseHeartbeatOutcome}
    (h : heartbeatTransferLeaseAndAudit now token s = .ok (s', outcome)) : KeepsUploads s s' := by
  cases beatsLease h with
  | notFound | cappedAlreadyCounted | extended | prolonged => exact ⟨rfl, rfl, rfl, Or.inl rfl⟩
  | cappedAndCounted _ _ _ hcount => exact { KeepsUploads.countGrant rfl rfl rfl rfl hcount with }

end Transactions

end Frame

end VaultLink
