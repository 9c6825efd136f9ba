import VaultLink.Keyring
import VaultLink.SharedLocks

/-!
# The processes that use the keyring

`Keyring::open` reads `secrets.keyring` under an exclusive `flock` and keeps a shared one for
as long as the keyring is in use; `rotate_database` holds the exclusive lock throughout. The
processes of a host run through the stages of the two functions in any order that the lock
permits. Converting a held lock gives it up before the new one is granted, which is a stage
of its own.

What a stage does to the file and the database is the corresponding part of the rotation, so
that it may fail, or its process may die, anywhere. A power loss ends all processes and is
the beginning of another run.
-/
namespace VaultLink

section Stages

/-- `secrets.keyring` as it is found: no file, a text that is no keyring, or a keyring. -/
inductive KeyringFile
  | missing
  | invalid (error : String)
  | stored (keyring : StoredKeyring)
deriving DecidableEq

namespace KeyringFile

def content : KeyringFile → Option StoredKeyring
  | missing | invalid _ => none
  | stored keyring => some keyring

/-- The file after a stage; only a rename with a complete keyring replaces it. -/
def replaced (file : KeyringFile) : Option StoredKeyring → KeyringFile
  | some keyring => stored keyring
  | none => file

end KeyringFile

/-- How far a process has come in `Keyring::open` or in `rotate_database`. -/
inductive KeyringProcess
  | idle
  | failed (error : RotationError)
  -- `open` waits for the exclusive lock.
  | openQueued (creates : Bool)
  | openReading (creates : Bool)
  | openCreating (stored : StoredKeyring)
  -- `open` waits for the shared lock and has lost the exclusive one.
  | openConverting (stored : StoredKeyring)
  | openLoading (stored : StoredKeyring)
  | opened (keyring : Keyring)
  -- `rotate_database` waits for the exclusive lock.
  | rotateQueued
  | rotatePublishing
  | rotateMoving (newKeyId : ℕ) (stored : StoredKeyring)
  | rotateRetaining (newKeyId : ℕ) (stored : StoredKeyring)
deriving DecidableEq

namespace KeyringProcess

def holds : KeyringProcess → Option LockMode
  | openReading _ | openCreating _ => some .exclusive
  | openLoading _ | opened _ => some .shared
  | rotatePublishing | rotateMoving _ _ | rotateRetaining _ _ => some .exclusive
  | idle | failed _ | openQueued _ | openConverting _ | rotateQueued => none

/-- The lock a process waits for and the stage that it then enters. -/
def request : KeyringProcess → Option (LockMode × KeyringProcess)
  | openQueued creates => some (.exclusive, openReading creates)
  | openConverting stored => some (.shared, openLoading stored)
  | rotateQueued => some (.exclusive, rotatePublishing)
  | _ => none

def running : KeyringProcess → Bool
  | idle | failed _ => false
  | _ => true

/-- The process is an `open` that waits for its shared lock. -/
def converting : KeyringProcess → Bool
  | openConverting _ => true
  | _ => false

/-- The process is a rotation that has the lock. -/
def rotates : KeyringProcess → Bool
  | rotatePublishing | rotateMoving _ _ | rotateRetaining _ _ => true
  | _ => false

end KeyringProcess

/-- The file, the database with what was stored in it, and the processes. -/
structure KeyringHost (ι : Type) where
  file : KeyringFile
  db : SecretStore
  plaintexts : SecretColumn → String → List UInt8
  process : ι → KeyringProcess

def newStoredKeyring (key : Vector UInt8 keyBytes) : StoredKeyring :=
  ⟨keyringVersion, 1, (∅ : KeyedTable StoredKey.id).upsert ⟨1, .ok key.toList⟩⟩

/-- The match of `open` on the file. -/
def KeyringFile.openStage (file : KeyringFile) (creates : Bool)
    (key : Vector UInt8 keyBytes) : KeyringProcess :=
  match file with
  | .stored keyring => .openConverting keyring
  | .invalid error => .failed (.message s!"invalid secrets.keyring: {error}")
  | .missing =>
    if creates then .openCreating (newStoredKeyring key)
    else .failed (.message "secrets.keyring is required for an initialized database")

inductive KeyringEvent (ι : Type)
  | startOpen (p : ι) (creates : Bool)
  | startRotation (p : ι)
  | grant (p : ι)
  | work (p : ι) (env : RotationEnvironment)
  | store (p : ι) (column : SecretColumn) (stableId : String) (plaintext : List UInt8)
      (nonce : Vector UInt8 nonceBytes)
  | exit (p : ι)

namespace KeyringHost

variable {ι : Type} [DecidableEq ι] (lib : Libraries) (s : KeyringHost ι)

def held (p : ι) : Option LockMode := (s.process p).holds

def set (p : ι) (stage : KeyringProcess) : KeyringHost ι :=
  { s with process := Function.update s.process p stage }

def world : SecretsWorld := ⟨⟨s.file.content, []⟩, s.db, 0⟩

/-- The host once a stage of `p` has left this file and database. -/
def after (p : ι) (w : SecretsWorld) (stage : KeyringProcess) : KeyringHost ι :=
  { s with
    file := s.file.replaced w.keyringFile
    db := w.db
    process := Function.update s.process p stage }

def act {α : Type} (p : ι) (action : RotationM α) (env : RotationEnvironment)
    (next : α → KeyringProcess) : KeyringHost ι :=
  match action env s.world with
  | .ok value w => s.after p w (next value)
  | .err error w => s.after p w (.failed error)
  | .crash w => s.after p w .idle

def work (p : ι) (env : RotationEnvironment) : KeyringHost ι :=
  match s.process p with
  | .openReading creates => s.set p (s.file.openStage creates (env.key 0))
  | .openCreating stored =>
    s.act p (writeKeyringAtomic stored) env fun _ => .openConverting stored
  | .openLoading stored =>
    match Keyring.fromStored stored with
    | .ok keyring => s.set p (.opened keyring)
    | .error error => s.set p (.failed error)
  | .rotatePublishing =>
    match s.file with
    | .missing => s.set p (.failed .io)
    | .invalid error => s.set p (.failed (.message s!"invalid secrets.keyring: {error}"))
    | .stored _ => s.act p publishNewKey env fun (newKeyId, stored) => .rotateMoving newKeyId stored
  | .rotateMoving newKeyId stored =>
    match Keyring.fromStored stored with
    | .ok rotating =>
      s.act p (moveSecrets lib rotating) env fun _ => .rotateRetaining newKeyId stored
    | .error error => s.set p (.failed error)
  | .rotateRetaining newKeyId stored =>
    s.act p (writeKeyringAtomic (stored.retain newKeyId)) env fun _ => .idle
  | _ => s

/-- A secret encrypted with the keyring of `p` replaces the row of its id. -/
def store (p : ι) (column : SecretColumn) (stableId : String) (plaintext : List UInt8)
    (nonce : Vector UInt8 nonceBytes) : KeyringHost ι :=
  match s.process p with
  | .opened keyring =>
    match keyring.encrypt lib nonce plaintext (column.associatedData lib stableId) with
    | .error _ => s
    | .ok (keyId, ciphertext) =>
      { s with
        db := ⟨Function.update s.db.table column
          ((s.db.table column).upsert ⟨stableId, keyId, ciphertext⟩)⟩
        plaintexts := Function.update s.plaintexts column
          (Function.update (s.plaintexts column) stableId plaintext) }
  | _ => s

variable [Fintype ι]

def next (s : KeyringHost ι) : KeyringEvent ι → KeyringHost ι
  | .startOpen p creates =>
    if (s.process p).running then s else s.set p (.openQueued creates)
  | .startRotation p => if (s.process p).running then s else s.set p .rotateQueued
  | .grant p =>
    match (s.process p).request with
    | some (mode, stage) => if mode.Grantable s.held p then s.set p stage else s
    | none => s
  | .work p env => s.work lib p env
  | .store p column stableId plaintext nonce => s.store lib p column stableId plaintext nonce
  | .exit p => s.set p .idle

end KeyringHost

end Stages

end VaultLink
