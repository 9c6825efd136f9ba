import VaultLink.KeyedTable

/-!
# The database schema

Row types and tables of the SQLite database, restricted to the columns the modelled
statements read or write. A stored limit carries its `CHECK` constraint and the fact
that it fits a signed 64-bit column, so a share row with an invalid limit cannot be
built; primary keys are enforced by `KeyedTable`. The remaining constraints
(secondary `UNIQUE` columns, foreign keys with `ON DELETE CASCADE`) are part of the
statements that insert and delete rows.

Instants are nanoseconds since the Unix epoch. The database stores them as RFC 3339
texts and compares the texts, which orders UTC instants of the years 0000 to 9999 as
the instants themselves.
-/
namespace VaultLink

/-- A UTC instant in nanoseconds. -/
abbrev Instant := ℤ

/-- Text compared character by character, as SQLite compares code points. -/
abbrev Text := List Char

/-- The bytes of a Rust string. -/
def utf8Bytes (text : Text) : List UInt8 := (String.ofList text).toByteArray.data.toList

/-- The length of a Rust string. -/
def byteLength (text : Text) : ℕ := (String.ofList text).utf8ByteSize

def seconds (n : ℤ) : ℤ := n * 1000000000

/-- `i64::MAX`, the largest unsigned value that fits a SQLite column. -/
def maxSqliteUnsigned : ℕ := 2 ^ 63 - 1

/-- `i64::saturating_add` on nonnegative operands. -/
def saturatingAddI64 (a b : ℕ) : ℕ := min (a + b) maxSqliteUnsigned

/-- `u64::saturating_add`. -/
def saturatingAddU64 (a b : ℕ) : ℕ := min (a + b) (2 ^ 64 - 1)

/-- A nullable limit column is `NULL` or a positive value that fits its column. -/
structure Limit where
  value : ℕ
  pos : 0 < value
  le_max : value ≤ maxSqliteUnsigned
deriving DecidableEq

/-- A value bound to a limit column: SQLite refuses zero and values above `i64::MAX`. -/
def Limit.ofNat? (n : ℕ) : Option Limit :=
  if h : 0 < n ∧ n ≤ maxSqliteUnsigned then some ⟨n, h.1, h.2⟩ else none

theorem Limit.ofNat?_value {n : ℕ} {l : Limit} (h : Limit.ofNat? n = some l) : l.value = n := by
  unfold Limit.ofNat? at h
  split at h
  · cases h; rfl
  · cases h

/-- A saturated sum reaches a stored limit exactly when the sum does. -/
theorem Limit.le_saturatingAddI64_iff (l : Limit) (a b : ℕ) :
    l.value ≤ saturatingAddI64 a b ↔ l.value ≤ a + b := by
  have := l.le_max
  unfold saturatingAddI64
  omega

theorem Limit.le_saturatingAddU64_iff (l : Limit) (a b : ℕ) :
    l.value ≤ saturatingAddU64 a b ↔ l.value ≤ a + b := by
  have := l.le_max
  unfold maxSqliteUnsigned at this
  unfold saturatingAddU64
  omega

inductive Permission
  | downloadOnly
  | uploadOnly
  | downloadUpload
deriving DecidableEq

def Permission.canDownload (p : Permission) : Bool := p ≠ .uploadOnly

def Permission.canUpload (p : Permission) : Bool := p ≠ .downloadOnly

inductive UploadConflictStrategy
  | reject
  | overwriteAllowed
deriving DecidableEq

structure Share where
  id : ℕ
  tokenHash : String
  linkAlias : Option String
  relativePath : Text
  isDirectory : Bool
  permission : Permission
  expiresAt : Option Instant
  maxDownloads : Option Limit
  maxUploadSize : Option Limit
  maxUploadTotalSize : Option Limit
  maxUploadFiles : Option Limit
  downloadCount : ℕ
  active : Bool
  createdBy : ℕ
  createdAt : Instant
  passwordHash : Option String
  uploadConflictStrategy : UploadConflictStrategy
  uploadPolicyEpoch : ℕ
deriving DecidableEq

/-- `expires_at IS NULL OR expires_at > now`. -/
def Share.unexpired (share : Share) (now : Instant) : Bool :=
  share.expiresAt.all fun expires => now < expires

/-- A directory share whose permission includes uploads. -/
def Share.acceptsUploads (share : Share) : Bool :=
  share.isDirectory && share.permission.canUpload

/-- `public_unlock_sessions`. -/
structure UnlockSession where
  tokenHash : String
  shareId : ℕ
  expiresAt : Instant
  csrfToken : String

/-- `public_transfer_grants`: one logical transfer of one client session. -/
structure Grant where
  id : ℕ
  sessionTokenHash : String
  shareId : ℕ
  resourceKey : String
  action : String
  counted : Bool
  createdAt : Instant
  expiresAt : Instant
deriving DecidableEq

/-- `public_transfer_leases`: one HTTP request serving a grant. -/
structure Lease where
  tokenHash : String
  grantId : ℕ
  createdAt : Instant
  heartbeatAt : Instant
  expiresAt : Instant

/-- `transfer_monthly_counts`, keyed by month and action. -/
structure MonthlyCount where
  month : ℤ × ℤ
  action : String
  count : ℕ

/-- `public_upload_usage`. -/
structure UploadUsage where
  shareId : ℕ
  uploadedBytes : ℕ
  uploadedFiles : ℕ
  createdDirectories : ℕ

/-- `public_upload_reservations`. -/
structure Reservation where
  tokenHash : String
  shareId : ℕ
  reservedBytes : ℕ
  createdAt : Instant
  expiresAt : Instant
  uploadPolicyEpoch : ℕ

inductive UploadScope
  | admin (id : ℕ)
  | share (id : ℕ)
deriving DecidableEq

inductive UploadOperationState
  | ready
  | processing
  | retryable
  | committing
  | completed
  | rejected
  | outcomeUnknown
deriving DecidableEq

/-- `upload_operations`: the server-side record that makes a retried upload idempotent. -/
structure UploadOperation where
  idHash : String
  scope : UploadScope
  state : UploadOperationState
  createdAt : Instant
  expiresAt : Instant
  fingerprint : Option String
  resultJson : Option String
  fragmentName : Option String
  quotaCharged : Bool
deriving DecidableEq

/-- The audit actions written by the modelled transactions. -/
inductive AuditAction
  | download
  | zipDownload
  | preview
  | uploadQuotaCommitted
  | shareCreated
  | shareDeleted
  | shareActivated
  | shareDeactivated
  | shareToggled
  | shareUploadConflictUpdated
  | shareUploadLimitsUpdated
  | shareUnlocked
  | sharePasswordSet
  | sharePasswordRemoved
  | pathRenamed
  | pathDeleted
deriving DecidableEq

structure AuditRow where
  action : AuditAction
  objectId : Option String
  detail : Option String

/-- The tables behind shares, transfers and public uploads. -/
structure Store where
  shares : KeyedTable Share.id
  unlockSessions : KeyedTable UnlockSession.tokenHash
  grants : KeyedTable Grant.id
  leases : KeyedTable Lease.tokenHash
  monthlyCounts : KeyedTable fun row : MonthlyCount => (row.month, row.action)
  usage : KeyedTable UploadUsage.shareId
  reservations : KeyedTable Reservation.tokenHash
  uploadOperations : KeyedTable UploadOperation.idHash
  audit : List AuditRow

/-- A freshly created database. -/
def Store.empty : Store := ⟨∅, ∅, ∅, ∅, ∅, ∅, ∅, ∅, []⟩

/-- The rowid SQLite assigns to the next row of a table without `AUTOINCREMENT`: one more
than the largest id in use, so the id of a deleted last row is handed out again. -/
def nextRowid (ids : List ℕ) : ℕ := ids.foldr max 0 + 1

theorem lt_nextRowid {ids : List ℕ} {n : ℕ} (h : n ∈ ids) : n < nextRowid ids := by
  induction ids with
  | nil => cases h
  | cons m ids ih =>
    simp only [nextRowid, List.foldr_cons] at ih ⊢
    rcases List.mem_cons.mp h with rfl | h
    · omega
    · have := ih h
      omega

theorem mem_modify_cases {α : Type} {l : List α} {i : ℕ} {f : α → α} {x : α}
    (h : x ∈ l.modify i f) : ∃ y ∈ l, x = y ∨ x = f y := by
  obtain ⟨j, hj⟩ := List.mem_iff_getElem?.mp h
  rw [List.getElem?_modify] at hj
  obtain ⟨y, hy, rfl⟩ := Option.map_eq_some_iff.mp hj
  refine ⟨y, List.mem_of_getElem? hy, ?_⟩
  split
  · exact .inr rfl
  · exact .inl rfl

/-- Errors that roll a transaction back. -/
inductive DbError
  | constraint
  | queryReturnedNoRows
  | invalidQuery
  | invalidParameterName
deriving DecidableEq

def insertRequiredAudits (events : List AuditRow) (s : Store) : Store :=
  { s with audit := s.audit ++ events }

end VaultLink
