import VaultLink.Histories
import VaultLink.TransferLeases
import VaultLink.UploadReservations

/-!
# Interleavings of transfer and share transactions

A server holds the committed store and the calls in flight. SQLite runs one write
transaction at a time, so an interleaving of calls is a sequence of arrivals and
executions. A call reads the clock either when it arrives, before it waits for the
write lock, or when it executes; both readings are arbitrary inputs, so no order
between the readings of different calls is assumed. A call may also be abandoned: its
transaction fails, or the session fence of an administrative call refuses it, and
nothing is committed.
-/
namespace VaultLink

inductive TransferCall
  | beginLease (key : TransferKey) (unlockToken : Option String) (leaseToken : String)
  | completeLease (leaseToken : String)
  | cancelLease (leaseToken : String)
  | heartbeatLease (leaseToken : String)
  | beginReservation (token : String) (shareId expectedEpoch : ℕ)
  | extendReservation (token : String) (minimum preferred : ℕ)
  | commitReservation (token : String) (uploadedBytes directories : ℕ) (audited : Bool)
      (operationHash : Option String)
  | cancelReservation (token : String)
  | createShare (new : NewShare) (detail : Option String)
  | deleteShare (id : ℕ)
  | renamePaths (oldPath newPath : Text) (isDirectory recovery : Bool)
  | deactivatePaths (path : Text) (isDirectory recovery cleanupPending : Bool)
  | setShareActive (id : ℕ) (active : Bool) (action : AuditAction)
  | setSharePassword (id : ℕ) (hash : Option String) (action : AuditAction)
  | updateShareControls (id : ℕ) (active : Option Bool)
      (strategy : Option UploadConflictStrategy) (uploadLimits : Option (ℕ × ℕ))
      (events : List AuditRow)
  | createUnlockSession (token : String) (shareId : ℕ) (verifiedHash : String)
      (expectedEpoch : ℕ) (csrfToken : String) (expires : Instant)

/-- Whether a call reads the clock before it takes the write lock. -/
def TransferCall.readsClockBeforeLock : TransferCall → Bool
  | .completeLease _ | .cancelLease _ | .heartbeatLease _ => true
  | .beginReservation .. | .extendReservation .. | .commitReservation .. => true
  | .createUnlockSession .. => true
  | _ => false

/-- The store committed by a call that works with the clock reading `now`. -/
def TransferCall.execute (now : Instant) (s : Store) : TransferCall → Store
  | .beginLease key unlockToken leaseToken =>
    committed s (beginAuthorizedTransferLease now key unlockToken leaseToken s)
  | .completeLease leaseToken => committed s (completeTransferLeaseAndAudit now leaseToken s)
  | .cancelLease leaseToken => committed s (cancelTransferLease now leaseToken s)
  | .heartbeatLease leaseToken => committed s (heartbeatTransferLeaseAndAudit now leaseToken s)
  | .beginReservation token shareId expectedEpoch =>
    committed s (beginUploadReservation now token shareId expectedEpoch s)
  | .extendReservation token minimum preferred =>
    committed s (extendUploadReservationUpTo now token minimum preferred s)
  | .commitReservation token uploadedBytes directories audited operationHash =>
    committed s (commitUploadReservation now token uploadedBytes directories audited
      operationHash s)
  | .cancelReservation token => (cancelUploadReservation token s).1
  | .createShare new detail => committed s (VaultLink.createShare now new detail s)
  | .deleteShare id => (VaultLink.deleteShare id s).1
  | .renamePaths oldPath newPath isDirectory recovery =>
    (renameSharePathsAndAudit oldPath newPath isDirectory recovery s).1
  | .deactivatePaths path isDirectory recovery cleanupPending =>
    (deactivateSharesForPathAndAudit path isDirectory recovery cleanupPending s).1
  | .setShareActive id active action => (VaultLink.setShareActive id active action s).1
  | .setSharePassword id hash action => (VaultLink.setSharePassword id hash action s).1
  | .updateShareControls id active strategy uploadLimits events =>
    committed s (VaultLink.updateShareControls now id active strategy uploadLimits events s)
  | .createUnlockSession token shareId verifiedHash expectedEpoch csrfToken expires =>
    committed s (VaultLink.createUnlockSession now token shareId verifiedHash expectedEpoch
      csrfToken expires s)

section Frame

/-- The transactions on transfer leases. -/
def TransferCall.servesLease : TransferCall → Bool
  | .beginLease .. | .completeLease _ | .cancelLease _ | .heartbeatLease _ => true
  | _ => false

/-- The transactions on upload reservations. -/
def TransferCall.servesReservation : TransferCall → Bool
  | .beginReservation .. | .extendReservation .. | .commitReservation .. => true
  | .cancelReservation _ => true
  | _ => false

variable (now : Instant) (s : Store) {call : TransferCall}

theorem TransferCall.keepsUploads (h : call.servesLease = true) :
    KeepsUploads s (call.execute now s) := by
  cases call with
  | beginLease =>
    exact committed_inv (.refl s) fun _ _ h => beginAuthorizedTransferLease_keepsUploads h
  | completeLease =>
    exact committed_inv (.refl s) fun _ _ h => completeTransferLeaseAndAudit_keepsUploads h
  | cancelLease => exact committed_inv (.refl s) fun _ _ h => cancelTransferLease_keepsUploads h
  | heartbeatLease =>
    exact committed_inv (.refl s) fun _ _ h => heartbeatTransferLeaseAndAudit_keepsUploads h
  | _ => cases h

theorem TransferCall.keepsShares (h : call.servesReservation = true) :
    KeepsShares s (call.execute now s) := by
  cases call with
  | beginReservation =>
    exact committed_inv (.refl s) fun _ _ h => (beginsReservation h).keepsShares
  | extendReservation =>
    exact committed_inv (.refl s) fun _ _ h => (extendsReservation h).keepsShares
  | commitReservation =>
    exact committed_inv (.refl s) fun _ _ h => (commitsReservation h).keepsShares
  | cancelReservation => exact ⟨rfl, rfl, rfl, rfl, rfl⟩
  | _ => cases h

end Frame

/-- A call in flight with the clock reading of its arrival. -/
structure InFlightCall where
  call : TransferCall
  arrivalReading : Instant

structure TransferServer where
  store : Store
  inFlight : List InFlightCall

inductive ServerEvent
  | arrive (call : TransferCall) (reading : Instant)
  | execute (index : ℕ) (reading : Instant)
  | abandon (index : ℕ)

namespace TransferServer

def initial : TransferServer := ⟨Store.empty, []⟩

def step (server : TransferServer) : ServerEvent → TransferServer
  | .arrive call reading => { server with inFlight := server.inFlight ++ [⟨call, reading⟩] }
  | .abandon index => { server with inFlight := server.inFlight.eraseIdx index }
  | .execute index reading =>
    match server.inFlight[index]? with
    | none => server
    | some ⟨call, arrivalReading⟩ =>
      let now := if call.readsClockBeforeLock then arrivalReading else reading
      { store := call.execute now server.store
        inFlight := server.inFlight.eraseIdx index }

/-- The server after a sequence of events on a fresh database. -/
def run (events : List ServerEvent) : TransferServer := events.foldl step initial

/-- A property of the fresh store that every call keeps at every reading holds in every
committed state of every interleaving. -/
theorem run_invariant (P : Store → Prop) (hemp : P Store.empty)
    (hstep : ∀ now s call, P s → P (TransferCall.execute now s call))
    (events : List ServerEvent) : P (run events).store := by
  refine List.foldlRecOn (motive := fun server : TransferServer => P server.store)
    events step hemp ?_
  intro server hserver event _
  cases event with
  | arrive => exact hserver
  | abandon => exact hserver
  | execute =>
    simp only [step]
    split
    · exact hserver
    · exact hstep _ _ _ hserver

end TransferServer

section Transactions

/-- A transaction of a run: the call, the clock reading it worked with and the reading of the
clock when it ran. -/
structure Execution where
  call : TransferCall
  now : Instant
  clock : Instant

/-- The store a transaction leaves. -/
def Execution.after (s : Store) (x : Execution) : Store := x.call.execute x.now s

namespace TransferServer

/-- The transaction an event runs, if any. -/
def execution? (server : TransferServer) : ServerEvent → Option Execution
  | .execute index reading => (server.inFlight[index]?).map fun entry =>
    ⟨entry.call, if entry.call.readsClockBeforeLock then entry.arrivalReading else reading,
      reading⟩
  | _ => none

/-- The transactions of a run in the order of the write lock. -/
def transactions : TransferServer → List ServerEvent → List Execution
  | _, [] => []
  | server, event :: events =>
    (server.execution? event).toList ++ transactions (server.step event) events

theorem step_store (server : TransferServer) (event : ServerEvent) :
    (server.step event).store =
      History.state Execution.after server.store (server.execution? event).toList := by
  cases event with
  | arrive => rfl
  | abandon => rfl
  | execute index =>
    simp only [step, execution?]
    cases server.inFlight[index]? <;> rfl

/-- The committed store is the one its transactions lead to. -/
theorem run_store (events : List ServerEvent) :
    (run events).store = History.state Execution.after .empty (transactions initial events) := by
  suffices h : ∀ server : TransferServer, (events.foldl step server).store =
      History.state Execution.after server.store (transactions server events) from h initial
  intro server
  induction events generalizing server with
  | nil => rfl
  | cons event events ih =>
    rw [List.foldl_cons, ih, transactions, History.state_append, step_store]

end TransferServer

end Transactions

end VaultLink
