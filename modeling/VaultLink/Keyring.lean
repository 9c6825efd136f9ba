import VaultLink.AdminAuth
import VaultLink.FaultyAction
import VaultLink.WriteBack

/-!
# The secrets keyring and its rotation

`db/keyring.rs`: the keyring file next to the database, the encryption of the stored secrets
under its keys and `rotate_database`, which moves every secret to a fresh key between two
replacements of the file. A stored key counts through what its Base64 text decodes to, and
the temporary file of a replacement through the content that `sync_all` has made durable.
Each step of a rotation may fail with or without effect, and the process or the power may
stop before it.
-/
namespace VaultLink

section Ciphers

/-- `XChaCha20Poly1305` and `str::to_lowercase`, which the code takes from its libraries. -/
structure Libraries where
  encrypt : (key nonce message : List UInt8) → (aad : String) → Option (List UInt8)
  decrypt : (key nonce ciphertext : List UInt8) → (aad : String) → Option (List UInt8)
  toLowercase : String → String
  decrypt_encrypt : ∀ {key nonce message aad ciphertext},
    encrypt key nonce message aad = some ciphertext →
      decrypt key nonce ciphertext aad = some message
  length_encrypt : ∀ {key nonce message aad ciphertext},
    encrypt key nonce message aad = some ciphertext → ciphertext.length = message.length + 16

def keyringVersion : ℕ := 1
def keyBytes : ℕ := 32
def nonceBytes : ℕ := 24

/-- `rusqlite::Error`, with the two `KeyringFailure`s told apart. -/
inductive RotationError
  | message (text : String)
  | io
  | sqlite
deriving DecidableEq

/-- An entry of the file: a key id with what its text decodes to. -/
structure StoredKey where
  id : ℕ
  decoded : Except String (List UInt8)
deriving DecidableEq

structure StoredKeyring where
  version : ℕ
  activeKeyId : ℕ
  keys : KeyedTable StoredKey.id
deriving DecidableEq

structure DecodedKey where
  id : ℕ
  key : List UInt8
deriving DecidableEq

structure Keyring where
  activeKeyId : ℕ
  keys : KeyedTable DecodedKey.id
deriving DecidableEq

namespace Keyring

def decodeKey (stored : StoredKey) : Except RotationError DecodedKey :=
  match stored.decoded with
  | .error error =>
    .error (.message s!"invalid key encoding for key {stored.id}: {error}")
  | .ok key =>
    if key.length ≠ keyBytes then .error (.message s!"key {stored.id} has invalid length")
    else .ok ⟨stored.id, key⟩

/-- The loop of `from_stored` over the entries of the file. -/
def decodeKeys : List StoredKey → KeyedTable DecodedKey.id →
    Except RotationError (KeyedTable DecodedKey.id)
  | [], keys => .ok keys
  | stored :: rest, keys =>
    match decodeKey stored with
    | .error error => .error error
    | .ok decoded => decodeKeys rest (keys.upsert decoded)

def fromStored (stored : StoredKeyring) : Except RotationError Keyring :=
  if stored.version ≠ keyringVersion || !stored.keys.any (·.id = stored.activeKeyId) then
    .error (.message "unsupported or inconsistent secrets.keyring")
  else
    match decodeKeys stored.keys.rows ∅ with
    | .error error => .error error
    | .ok keys => .ok ⟨stored.activeKeyId, keys⟩

variable (lib : Libraries)

def encrypt (keyring : Keyring) (nonce : Vector UInt8 nonceBytes) (plaintext : List UInt8)
    (aad : String) : Except RotationError (ℕ × List UInt8) :=
  match keyring.keys.find? keyring.activeKeyId with
  | none => .error (.message "active key is unavailable")
  | some entry =>
    if entry.key.length ≠ keyBytes then .error (.message "active key has invalid length")
    else
      match lib.encrypt entry.key nonce.toList plaintext aad with
      | none => .error (.message "secret encryption failed")
      | some encrypted => .ok (keyring.activeKeyId, nonce.toList ++ encrypted)

def decrypt (keyring : Keyring) (keyId : ℕ) (ciphertext : List UInt8) (aad : String) :
    Except RotationError (List UInt8) :=
  if ciphertext.length ≤ nonceBytes then .error (.message "encrypted secret is truncated")
  else
    match keyring.keys.find? keyId with
    | none => .error (.message s!"secret references missing key {keyId}")
    | some entry =>
      if entry.key.length ≠ keyBytes then .error (.message "stored key has invalid length")
      else
        match lib.decrypt entry.key (ciphertext.take nonceBytes) (ciphertext.drop nonceBytes) aad
        with
        | none => .error (.message "secret authentication failed")
        | some plaintext => .ok plaintext

end Keyring

end Ciphers

section Secrets

/-- The encrypted columns: `shares.token_ciphertext`, `admins.totp_ciphertext` and
`admin_mfa_enrollments.totp_ciphertext`. -/
inductive SecretColumn
  | shareToken
  | adminTotp
  | enrollmentTotp
deriving DecidableEq

/-- A row as `rotate_rows` selects it. -/
structure SecretRow where
  stableId : String
  keyId : ℕ
  ciphertext : List UInt8
deriving DecidableEq

namespace SecretColumn

/-- How the column with the stable id compares its values. -/
def collate : SecretColumn → String → List Char
  | .adminTotp => noCase
  | .shareToken | .enrollmentTotp => String.toList

def associatedData (lib : Libraries) : SecretColumn → String → String
  | .shareToken, stableId => "shares.token:" ++ stableId
  | .adminTotp, stableId => "admins.totp:" ++ lib.toLowercase stableId
  | .enrollmentTotp, stableId => "admin_mfa_enrollments.totp:" ++ stableId

def key (column : SecretColumn) (row : SecretRow) : List Char := column.collate row.stableId

end SecretColumn

abbrev SecretTable (column : SecretColumn) := KeyedTable column.key

structure SecretStore where
  table : (column : SecretColumn) → SecretTable column

end Secrets

section Steps

/-- What can happen to a step of the rotation. -/
inductive Disturbance
  | proceeds
  | fails
  | loses
  | stops
  | powerLoss (mask : List Bool)

/-- What happens to each step and what the random generator answers, by the time. -/
structure RotationEnvironment where
  disturbance : ℕ → Disturbance
  key : ℕ → Vector UInt8 keyBytes
  nonce : ℕ → Vector UInt8 nonceBytes

/-- The keyring file, which is nothing where its content is not durable, and the database. -/
structure SecretsWorld where
  file : WriteBack (Option StoredKeyring) (Option StoredKeyring) Unit
  db : SecretStore
  clock : ℕ

namespace SecretsWorld

def keyringFile (w : SecretsWorld) : Option StoredKeyring := w.file.view WriteBack.overwrite

def powerLoss (w : SecretsWorld) (mask : List Bool) : SecretsWorld :=
  { w with file := w.file.crash WriteBack.overwrite mask }

end SecretsWorld

abbrev RotationM := Action RotationEnvironment SecretsWorld RotationError

def rotationStep {α : Type} (error : RotationError)
    (effect : SecretsWorld → Outcome SecretsWorld RotationError α) : RotationM α :=
  fun env w =>
    let w' := { w with clock := w.clock + 1 }
    match env.disturbance w.clock with
    | .proceeds => effect w'
    | .fails => .err error w'
    | .loses =>
      match effect w' with
      | .ok _ w'' => .err error w''
      | outcome => outcome
    | .stops => .crash w'
    | .powerLoss mask => .crash (w'.powerLoss mask)

/-- A step that changes nothing that is modelled. -/
def silentStep (error : RotationError) : RotationM Unit := rotationStep error fun w => .ok () w

def generateKey : RotationM (Vector UInt8 keyBytes) := fun env w =>
  .ok (env.key w.clock) { w with clock := w.clock + 1 }

def generateNonce : RotationM (Vector UInt8 nonceBytes) := fun env w =>
  .ok (env.nonce w.clock) { w with clock := w.clock + 1 }

def readStoredKeyring : RotationM StoredKeyring := do
  silentStep .io -- open and validate_private_regular_file
  rotationStep .io fun w =>
    match w.keyringFile with
    | none =>
      .err (.message "invalid secrets.keyring: EOF while parsing a value at line 1 column 0") w
    | some stored => .ok stored w

/-- The temporary file: what was written to it and what of that is durable. -/
structure TemporaryFile where
  written : Option StoredKeyring
  durable : Option StoredKeyring

def createTemporary : RotationM TemporaryFile := rotationStep .io fun w => .ok ⟨none, none⟩ w

def TemporaryFile.writeAll (file : TemporaryFile) (stored : StoredKeyring) :
    RotationM TemporaryFile :=
  rotationStep .io fun w => .ok { file with written := some stored } w

def TemporaryFile.syncAll (file : TemporaryFile) : RotationM TemporaryFile :=
  rotationStep .io fun w => .ok { file with durable := file.written } w

def TemporaryFile.renameOver (file : TemporaryFile) : RotationM Unit :=
  rotationStep .io fun w => .ok () { w with file := w.file.record file.durable [()] }

def syncKeyringDirectory : RotationM Unit := rotationStep .io fun w =>
  .ok () { w with file := w.file.sync WriteBack.overwrite () }

def writeKeyringAtomic (stored : StoredKeyring) : RotationM Unit := do
  let file ← createTemporary
  let file ← file.writeAll stored
  let file ← file.syncAll
  match ← Action.attempt file.renameOver with
  | .error error =>
    let _ ← Action.attempt (silentStep .io) -- remove_file
    Action.fail error
  | .ok () =>
    silentStep .io -- open the directory
    syncKeyringDirectory

def beginSecretTransaction : RotationM SecretStore := rotationStep .sqlite fun w => .ok w.db w

def commitSecretTransaction (db : SecretStore) : RotationM Unit :=
  rotationStep .sqlite fun w => .ok () { w with db }

end Steps

section Rotation

variable (lib : Libraries) {column : SecretColumn}

/-- `UPDATE … WHERE stable_id=?1` with the number of rows it changed; an id beyond `i64` is
refused as a parameter. -/
def updateSecret (stableId : String) (keyId : ℕ) (ciphertext : List UInt8)
    (table : SecretTable column) : RotationM (ℕ × SecretTable column) :=
  rotationStep .sqlite fun w =>
    if 2 ^ 63 ≤ keyId then .err .sqlite w
    else
      let matching := fun row => column.key row = column.collate stableId
      .ok (table.count matching,
        table.updateWhere matching fun row => { row with keyId, ciphertext }) w

/-- The loop of `rotate_rows` over the selected rows. -/
def rotateEach (keyring : Keyring) : List SecretRow → SecretTable column →
    RotationM (SecretTable column)
  | [], table => pure table
  | row :: rest, table => do
    let aad := column.associatedData lib row.stableId
    let plaintext ← Action.ofExcept (keyring.decrypt lib row.keyId row.ciphertext aad)
    let nonce ← generateNonce
    let (newKeyId, newCiphertext) ← Action.ofExcept (keyring.encrypt lib nonce plaintext aad)
    let (changed, table) ← updateSecret row.stableId newKeyId newCiphertext table
    if changed ≠ 1 then Action.fail (.message "secret rotation database invariant failed")
    else rotateEach keyring rest table

def rotateRows (keyring : Keyring) (table : SecretTable column) :
    RotationM (SecretTable column) := do
  silentStep .sqlite -- prepare and run the SELECT
  silentStep .sqlite -- prepare the UPDATE
  rotateEach lib keyring table.rows table

namespace StoredKeyring

/-- `last_key_value` and `checked_add`. -/
def newKeyId (stored : StoredKeyring) : Except RotationError ℕ :=
  match (stored.keys.rows.map StoredKey.id).max? with
  | some id => if id + 1 < 2 ^ 64 then .ok (id + 1) else .error (.message "key id exhausted")
  | none => .ok 1

def addActive (stored : StoredKeyring) (id : ℕ) (key : List UInt8) : StoredKeyring :=
  { stored with keys := stored.keys.upsert ⟨id, .ok key⟩, activeKeyId := id }

def retain (stored : StoredKeyring) (id : ℕ) : StoredKeyring :=
  { stored with keys := stored.keys.deleteWhere (·.id ≠ id) }

end StoredKeyring

/-- The first half of `rotate_database`: the file gets a new active key. -/
def publishNewKey : RotationM (ℕ × StoredKeyring) := do
  let stored ← readStoredKeyring
  let _ ← Action.ofExcept (Keyring.fromStored stored)
  let newKeyId ← Action.ofExcept stored.newKeyId
  let newKey ← generateKey
  let stored := stored.addActive newKeyId newKey.toList
  writeKeyringAtomic stored
  pure (newKeyId, stored)

/-- The transaction of `rotate_database`. -/
def moveSecrets (rotating : Keyring) : RotationM Unit := do
  let db ← beginSecretTransaction
  let shares ← rotateRows lib rotating (db.table .shareToken)
  let admins ← rotateRows lib rotating (db.table .adminTotp)
  let enrollments ← rotateRows lib rotating (db.table .enrollmentTotp)
  commitSecretTransaction ⟨fun
    | .shareToken => shares
    | .adminTotp => admins
    | .enrollmentTotp => enrollments⟩

def rotateDatabase : RotationM Unit := do
  silentStep .io -- open_private_file of the lock
  silentStep (.message "cannot acquire exclusive keyring lock: Input/output error")
  let (newKeyId, stored) ← publishNewKey
  let rotating ← Action.ofExcept (Keyring.fromStored stored)
  silentStep .sqlite -- open_with_flags, busy_timeout, foreign_keys
  silentStep .sqlite -- schema::migrate, which leaves the secret columns alone
  moveSecrets lib rotating
  writeKeyringAtomic (stored.retain newKeyId)

end Rotation

end VaultLink
