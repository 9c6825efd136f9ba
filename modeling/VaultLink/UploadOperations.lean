import Mathlib.Data.Finset.Erase
import Mathlib.Data.Finset.Insert
import VaultLink.UploadReservations

/-!
# Upload operations

An upload operation is a row that a client creates first and then hands in with its upload,
so that a retried request is answered instead of repeated. The row records how far the
upload got; every statement below changes it only from the states it names. A guard in
memory marks the claims of this process, and a recovery pass settles the rows that no guard
holds.
-/
namespace VaultLink

open KeyedTable

section States

/-- A claim can take the operation. -/
def UploadOperationState.unused : UploadOperationState → Bool
  | .ready | .retryable => true
  | _ => false

/-- A claim holds the operation. -/
def UploadOperationState.held : UploadOperationState → Bool
  | .processing | .committing => true
  | _ => false

/-- The operation has an answer that later requests get. -/
def UploadOperationState.settled : UploadOperationState → Bool
  | .completed | .rejected | .outcomeUnknown => true
  | _ => false

end States

section Statements

/-- `RETENTION_HOURS`. -/
def uploadRetention : Instant := seconds (24 * 3600)

def maxUnusedPerScope : ℕ := 64
def maxUnusedGlobal : ℕ := 4096
def maxAllPerScope : ℕ := 4096
def maxAllGlobal : ℕ := 65536

/-- `create_upload_operation`: `none` when there are too many rows, and then the removal of
expired rows is rolled back too. -/
def createUploadOperation (now : Instant) (scope : UploadScope) (idHash : String) (s : Store) :
    Except DbError (Store × Option Instant) :=
  if scope = .admin 0 || scope = .share 0 then .error .invalidQuery
  else
    let operations := s.uploadOperations.deleteWhere fun row =>
      row.expiresAt ≤ now && !row.state.held
    let unused := fun row : UploadOperation => row.state.unused
    let inScope := fun row : UploadOperation => row.scope = scope
    if maxUnusedPerScope ≤ operations.count (fun row => inScope row && unused row) ||
        maxUnusedGlobal ≤ operations.count unused ||
        maxAllPerScope ≤ operations.count inScope ||
        maxAllGlobal ≤ operations.count (fun _ => true) then .ok (s, none)
    else
      let expires := now + uploadRetention
      match operations.insert? ⟨idHash, scope, .ready, now, expires, none, none, none, false⟩ with
      | none => .error .constraint
      | some uploadOperations => .ok ({ s with uploadOperations }, some expires)

/-- `UPDATE upload_operations … WHERE id_hash=? AND p`, with whether a row was changed. -/
def updateUploadOperation (s : Store) (idHash : String) (p : UploadOperation → Bool)
    (f : UploadOperation → UploadOperation)
    (hf : ∀ row, (f row).idHash = row.idHash := by intros; rfl) : Store × Bool :=
  ({ s with
    uploadOperations := s.uploadOperations.updateWhere
      (fun row => row.idHash = idHash && p row) f hf },
    (s.uploadOperations.find? idHash).any p)

/-- The `UPDATE` of `claim_upload_operation`; `true` is `UploadOperationClaim::Started`. -/
def claimUploadOperation (now : Instant) (scope : UploadScope) (idHash : String) (s : Store) :
    Store × Bool :=
  updateUploadOperation s idHash
    (fun row => row.scope = scope && row.state.unused && now < row.expiresAt) fun row =>
    { row with state := .processing }

/-- What a client gets to see of an operation. -/
structure UploadOperationView where
  state : UploadOperationState
  expiresAt : Instant
  result : Option String
  fingerprint : Option String
deriving DecidableEq

/-- `upload_operation`: a row past its expiry is shown only while a claim holds it, and a commit
in progress looks like any other processing. -/
def uploadOperation (now : Instant) (scope : UploadScope) (idHash : String) (s : Store) :
    Option UploadOperationView :=
  ((s.uploadOperations.find? idHash).filter fun row =>
    row.scope = scope && (now < row.expiresAt || row.state.held)).map fun row =>
      { state := if row.state = .committing then .processing else row.state
        expiresAt := row.expiresAt, result := row.resultJson, fingerprint := row.fingerprint }

inductive UploadOperationClaim
  | started
  | existing (view : UploadOperationView)
  | unavailable
deriving DecidableEq

/-- All of `claim_upload_operation`: when the `UPDATE` changed nothing, the row is read with a
later clock reading. -/
def uploadOperationClaim (now later : Instant) (scope : UploadScope) (idHash : String) (s : Store) :
    Store × UploadOperationClaim :=
  match claimUploadOperation now scope idHash s with
  | (s', true) => (s', .started)
  | (s', false) =>
    (s', ((uploadOperation later scope idHash s').map UploadOperationClaim.existing).getD
      .unavailable)

def bindUploadFingerprint (idHash fingerprint fragmentName : String) (s : Store) : Store × Bool :=
  updateUploadOperation s idHash
    (fun row => row.state.held && (row.fingerprint.isNone || row.fingerprint = some fingerprint))
    fun row => { row with fingerprint := some fingerprint, fragmentName := some fragmentName }

def releaseUploadOperation (idHash : String) (s : Store) : Store :=
  (updateUploadOperation s idHash (fun row => row.state = .processing) fun row =>
    { row with state := .retryable, fragmentName := none, fingerprint := none }).1

def markUploadCommitting (idHash : String) (s : Store) : Store × Bool :=
  updateUploadOperation s idHash (fun row => row.state = .processing) fun row =>
    { row with state := .committing }

/-- The states `finish_upload_operation` accepts. -/
inductive FinishState
  | retryable
  | completed
  | rejected
  | outcomeUnknown
deriving DecidableEq

def FinishState.state : FinishState → UploadOperationState
  | .retryable => .retryable
  | .completed => .completed
  | .rejected => .rejected
  | .outcomeUnknown => .outcomeUnknown

def finishUploadOperation (now : Instant) (idHash : String) (state : FinishState)
    (result : Option String) (s : Store) : Store × Bool :=
  updateUploadOperation s idHash (fun row => row.state.held) fun row =>
    { row with
      state := state.state
      resultJson := result
      expiresAt := if state = .retryable then row.expiresAt else now + uploadRetention
      fingerprint := if state = .retryable then none else row.fingerprint
      fragmentName := if state = .outcomeUnknown then row.fragmentName else none }

/-- What recovery makes of a row whose holder is gone. -/
def UploadOperation.recovered (now : Instant) (row : UploadOperation) : UploadOperation :=
  if row.state = .processing then
    { row with state := .retryable, fragmentName := none, fingerprint := none }
  else { row with state := .outcomeUnknown, expiresAt := now + uploadRetention }

theorem UploadOperation.recovered_idHash (now : Instant) (row : UploadOperation) :
    (row.recovered now).idHash = row.idHash := by
  unfold recovered
  split <;> rfl

/-- The transaction of `recover_upload_operations`, for the registrations it has copied. -/
def recoverUploadOperations (now : Instant) (active : Finset String) (s : Store) : Store :=
  { s with
    uploadOperations := s.uploadOperations.updateWhere
      (fun row => row.idHash ∉ active && row.state.held) (UploadOperation.recovered now)
      (UploadOperation.recovered_idHash now) }

end Statements

variable {p : UploadOperation → Bool} {f : UploadOperation → UploadOperation}

section Lookup

variable {s : Store} {idHash : String} {now : Instant}

theorem find?_updateUploadOperation (hf : ∀ row, (f row).idHash = row.idHash) (id : String) :
    (updateUploadOperation s idHash p f hf).1.uploadOperations.find? id =
      (s.uploadOperations.find? id).map fun row => if id = idHash ∧ p row then f row else row := by
  rw [updateUploadOperation, find?_updateWhere]
  cases hfound : s.uploadOperations.find? id with
  | none => rfl
  | some row =>
    obtain ⟨-, hid⟩ := find?_eq_some_iff.mp hfound
    simp [hid]

variable {hf : ∀ row, (f row).idHash = row.idHash}

/-- An update that reports a changed row has found it and changed it. -/
theorem updateUploadOperation_changed (h : (updateUploadOperation s idHash p f hf).2 = true) :
    ∃ row, s.uploadOperations.find? idHash = some row ∧ p row = true ∧
      (updateUploadOperation s idHash p f hf).1.uploadOperations.find? idHash = some (f row) := by
  cases hrow : s.uploadOperations.find? idHash with
  | none => simp [updateUploadOperation, hrow] at h
  | some row =>
    have hp : p row = true := by simpa [updateUploadOperation, hrow] using h
    exact ⟨row, rfl, hp, by simp [find?_updateUploadOperation, hrow, hp]⟩

/-- An update for another operation leaves the row alone. -/
theorem find?_updateUploadOperation_of_ne {id : String} (hne : id ≠ idHash) :
    (updateUploadOperation s idHash p f hf).1.uploadOperations.find? id =
      s.uploadOperations.find? id := by
  rw [find?_updateUploadOperation]
  simp [hne]

/-- So does one whose condition the row does not meet. -/
theorem find?_updateUploadOperation_of_not {id : String} {row : UploadOperation}
    (hrow : s.uploadOperations.find? id = some row) (hp : p row = false) :
    (updateUploadOperation s idHash p f hf).1.uploadOperations.find? id = some row := by
  rw [find?_updateUploadOperation, hrow]
  simp [hp]

theorem find?_recoverUploadOperations (active : Finset String) (id : String) :
    (recoverUploadOperations now active s).uploadOperations.find? id =
      (s.uploadOperations.find? id).map fun row =>
        if id ∉ active ∧ row.state.held then row.recovered now else row := by
  rw [recoverUploadOperations, find?_updateWhere]
  cases hfound : s.uploadOperations.find? id with
  | none => rfl
  | some row =>
    obtain ⟨-, hid⟩ := find?_eq_some_iff.mp hfound
    simp [hid]

/-- A created operation is new, and only settled or unused rows past their expiry are
removed. -/
theorem find?_createUploadOperation {scope : UploadScope} {s' : Store} {expires : Option Instant}
    (h : createUploadOperation now scope idHash s = .ok (s', expires)) (id : String) :
    s'.uploadOperations.find? id = s.uploadOperations.find? id ∨
    (∃ row, s.uploadOperations.find? id = some row ∧ row.expiresAt ≤ now ∧ row.state.held = false ∧
      s'.uploadOperations.find? id = none) ∨
    id = idHash ∧ ∃ row, s'.uploadOperations.find? id = some row ∧ row.state = .ready ∧
      row.quotaCharged = false := by
  simp only [createUploadOperation] at h
  split at h
  · cases h
  split at h
  · cases h
    exact .inl rfl
  split at h
  · cases h
  · rename_i operations hins
    cases h
    have hfind := find?_insert? hins id
    by_cases hid : idHash = id
    · rw [if_pos hid] at hfind
      exact .inr (.inr ⟨hid.symm, _, hfind, rfl, rfl⟩)
    · rw [if_neg hid, find?_deleteWhere] at hfind
      cases hfound : s.uploadOperations.find? id with
      | none => exact .inl (by simpa [hfound] using hfind)
      | some row =>
        simp only [hfound, Option.filter] at hfind
        split at hfind
        · exact .inl hfind
        · rename_i hexpired
          simp only [Bool.not_eq_true', Bool.not_eq_false, Bool.and_eq_true,
            decide_eq_true_eq] at hexpired
          exact .inr (.inl ⟨row, rfl, hexpired.1, hexpired.2, hfind⟩)

/-- Charging a commit to the quota changes a row only by setting its flag, and only for a
committing operation of a share. -/
theorem find?_chargeUploadOperation {shareId : ℕ} {s' : Store}
    (h : chargeUploadOperation (some idHash) shareId s = .ok s') :
    (∃ row, s.uploadOperations.find? idHash = some row ∧ row.scope = .share shareId ∧
      row.state = .committing ∧ row.quotaCharged = false ∧
      s'.uploadOperations.find? idHash = some { row with quotaCharged := true }) ∧
    ∀ id, id ≠ idHash → s'.uploadOperations.find? id = s.uploadOperations.find? id := by
  simp only [chargeUploadOperation] at h
  split at h
  · cases h
  · rename_i hcount
    cases h
    have hmat : ∃ row ∈ s.uploadOperations, chargeable idHash shareId row = true := by
      by_contra hnone
      have hzero : s.uploadOperations.count (chargeable idHash shareId) = 0 :=
        count_eq_zero fun row hrow => by
          by_contra hrow'
          exact hnone ⟨row, hrow, by simpa using hrow'⟩
      omega
    obtain ⟨row, hrow, hcharge⟩ := hmat
    have hprops := hcharge
    simp only [chargeable, Bool.and_eq_true, decide_eq_true_eq, Bool.not_eq_true'] at hprops
    obtain ⟨⟨⟨hid, hsco⟩, hst⟩, hfr⟩ := hprops
    have hfound : s.uploadOperations.find? idHash = some row :=
      find?_eq_some_iff.mpr ⟨hrow, hid⟩
    refine ⟨⟨row, hfound, hsco, hst, hfr, ?_⟩, fun id hne => ?_⟩
    · rw [find?_updateWhere, hfound]
      simp [hcharge]
    · rw [find?_updateWhere]
      cases hoth : s.uploadOperations.find? id with
      | none => rfl
      | some other =>
        obtain ⟨-, hoid⟩ := find?_eq_some_iff.mp hoth
        simp [chargeable, hoid, hne]

/-- A reservation commit changes operation rows only by charging the operation it is for. -/
theorem commitUploadReservation_operations {token : String} {bytes directories : ℕ}
    {audited : Bool} {s' : Store} {outcome : UploadReservationCommitOutcome}
    (h : commitUploadReservation now token bytes directories audited (some idHash) s =
      .ok (s', outcome)) :
    outcome ≠ .committed ∧ s'.uploadOperations = s.uploadOperations ∨
    outcome = .committed ∧ ∃ shareId s₁ s₂, s₁.uploadOperations = s.uploadOperations ∧
      chargeUploadOperation (some idHash) shareId s₁ = .ok s₂ ∧
      s'.uploadOperations = s₂.uploadOperations := by
  cases commitsReservation h with
  | notFound => exact .inl ⟨nofun, rfl⟩
  | dropped hnot => exact .inl ⟨hnot, rfl⟩
  | committed _ _ _ _ hcharge =>
    refine .inr ⟨rfl, _, deleteExpiredReservations now s, _, rfl, hcharge, ?_⟩
    rw [addUploadUsage_eq]
    rfl

end Lookup

end VaultLink
