import VaultLink.FaultyAction
import VaultLink.LittleEndian

/-!
# Blobs of WebAuthn credentials

A stored credential is a version byte, three components with their lengths before them and
three of fixed length. What is read from the front of a blob determines what stands there and
what is left, so that a blob is accepted exactly when it is the one of a valid credential.
-/
namespace VaultLink

section Model

/-- `[u8; n]`. -/
abbrev FixedBytes (n : ℕ) := { bytes : List UInt8 // bytes.length = n }

/-- A function on `&mut &[u8]`; errors are the texts of `WebAuthnServiceError::Ceremony`. -/
abbrev Take := StateT (List UInt8) (Except String)

def takeU8 : Take UInt8
  | value :: rest => .ok (value, rest)
  | [] => .error "truncated WebAuthn credential blob"

def takeArray (n : ℕ) : Take (FixedBytes n) := fun input =>
  if h : n ≤ input.length then .ok (⟨input.take n, by simp [h]⟩, input.drop n)
  else .error "truncated WebAuthn credential component"

/-- The second `split_at_checked` gives the same error. -/
def takeVec : Take (List UInt8) := do
  let length ← takeArray 4
  let value ← takeArray (leNat length.1)
  return value.1

def pushVec (output value : List UInt8) : Except String (List UInt8) :=
  if value.length < 2 ^ 32 then .ok (output ++ leBytes 4 value.length ++ value)
  else .error "credential component too large"

def userHandleMaxLen : ℕ := 64

def credentialBlobVersion : UInt8 := 1

structure StoredCredential where
  id : List UInt8
  transports : UInt8
  userId : FixedBytes userHandleMaxLen
  staticState : List UInt8
  dynamicState : FixedBytes 7
  metadata : List UInt8

/-- What the decoders of `webauthn_rp` say about the components; the one of the static state
with the check that the server supports it. -/
structure CredentialDecoders where
  id : List UInt8 → Except String Unit
  transports : UInt8 → Except String Unit
  userId : FixedBytes userHandleMaxLen → Except String Unit
  staticState : List UInt8 → Except String Unit
  dynamicState : FixedBytes 7 → Except String Unit
  metadata : List UInt8 → Except String Unit

/-- A component that its decoder accepts. -/
def takeDecoded {α : Type} (take : Take α) (decode : α → Except String Unit) : Take α := do
  let component ← take
  decode component
  return component

namespace StoredCredential

def takeVersion : Take Unit := do
  let version ← takeU8
  if version ≠ credentialBlobVersion then
    throw "unsupported WebAuthn credential blob version"

/-- `from_blob` up to the check for trailing data. -/
def takeComponents (decoders : CredentialDecoders) : Take StoredCredential := do
  takeVersion
  let id ← takeDecoded takeVec decoders.id
  let transports ← takeDecoded takeU8 decoders.transports
  let userId ← takeDecoded (takeArray userHandleMaxLen) decoders.userId
  let staticState ← takeDecoded takeVec decoders.staticState
  let dynamicState ← takeDecoded (takeArray 7) decoders.dynamicState
  let metadata ← takeDecoded takeVec decoders.metadata
  return { id, transports, userId, staticState, dynamicState, metadata }

def fromBlob (decoders : CredentialDecoders) (blob : List UInt8) :
    Except String StoredCredential := do
  let (credential, input) ← (takeComponents decoders).run blob
  if input ≠ [] then .error "trailing data in WebAuthn credential blob"
  else .ok credential

def toBlob (self : StoredCredential) : Except String (List UInt8) := do
  let output ← pushVec [credentialBlobVersion] self.id
  let output ← pushVec (output ++ [self.transports] ++ self.userId.1) self.staticState
  pushVec (output ++ self.dynamicState.1) self.metadata

end StoredCredential

end Model

section Reading

variable {α β : Type} {input rest : List UInt8} {value : List UInt8}

theorem leBytes_leNat (bytes : List UInt8) : leBytes bytes.length (leNat bytes) = bytes := by
  induction bytes with
  | nil => rfl
  | cons byte bytes ih =>
    have hdiv : (byte.toNat + 256 * leNat bytes) / 256 = leNat bytes := by
      have := byte.toNat_lt
      omega
    rw [List.length_cons, leNat, leBytes, hdiv, ih, List.cons.injEq, ← UInt8.toNat_inj,
      UInt8.toNat_ofNat']
    exact ⟨by omega, rfl⟩

theorem leNat_lt (bytes : List UInt8) : leNat bytes < 256 ^ bytes.length := by
  induction bytes with
  | nil => decide
  | cons byte bytes ih =>
    have := byte.toNat_lt
    rw [leNat, List.length_cons, pow_succ]
    omega

theorem take_bind_eq_ok {m : Take α} {next : α → Take β} {b : β} :
    (m >>= next) input = .ok (b, rest) ↔
      ∃ a mid, m input = .ok (a, mid) ∧ next a mid = .ok (b, rest) := by
  show (m input >>= fun p => next p.1 p.2) = _ ↔ _
  rw [except_bind_eq_ok, Prod.exists]

theorem take_pure_eq_ok {a b : α} :
    (pure a : Take α) input = .ok (b, rest) ↔ a = b ∧ input = rest := by
  show Except.ok (a, input) = _ ↔ _
  simp

theorem takeU8_eq_ok {byte : UInt8} :
    takeU8 input = .ok (byte, rest) ↔ input = byte :: rest := by
  cases input <;> simp [takeU8]

theorem takeArray_eq_ok {n : ℕ} {array : FixedBytes n} :
    takeArray n input = .ok (array, rest) ↔ input = array.1 ++ rest := by
  unfold takeArray
  constructor
  · intro h
    split_ifs at h with hle
    cases h
    exact (List.take_append_drop n input).symm
  · rintro rfl
    obtain ⟨array, rfl⟩ := array
    simp

/-- The length in front of a component is that of what has been read. -/
theorem takeVec_eq_ok :
    takeVec input = .ok (value, rest) ↔
      value.length < 2 ^ 32 ∧ input = leBytes 4 value.length ++ (value ++ rest) := by
  simp only [takeVec, take_bind_eq_ok, takeArray_eq_ok, take_pure_eq_ok]
  constructor
  · rintro ⟨⟨length, hfour⟩, _, rfl, ⟨value, hval⟩, _, rfl, rfl, rfl⟩
    have hbytes := leBytes_leNat length
    have hlt := leNat_lt length
    rw [hfour, ← hval] at hbytes hlt
    exact ⟨hlt, by rw [hbytes]⟩
  · rintro ⟨hlt, rfl⟩
    exact ⟨⟨leBytes 4 value.length, by simp⟩, _, rfl, ⟨value, (leNat_leBytes hlt).symm⟩, _,
      rfl, rfl, rfl⟩

theorem takeDecoded_eq_ok {take : Take α} {decode : α → Except String Unit} {a : α} :
    takeDecoded take decode input = .ok (a, rest) ↔
      take input = .ok (a, rest) ∧ decode a = .ok () := by
  have hdec : ∀ component mid, (do decode component; return component : Take α) mid =
      .ok (a, rest) ↔ decode component = .ok () ∧ component = a ∧ mid = rest := by
    intro component mid
    cases decode component with
    | error message => exact iff_of_false nofun (by simp)
    | ok => exact take_pure_eq_ok.trans (by simp)
  simp only [takeDecoded, take_bind_eq_ok, hdec]
  constructor
  · rintro ⟨_, _, htake, hdecoded, rfl, rfl⟩
    exact ⟨htake, hdecoded⟩
  · exact fun h => ⟨a, rest, h.1, h.2, rfl, rfl⟩

theorem pushVec_eq_ok {output blob : List UInt8} : pushVec output value = .ok blob ↔
    value.length < 2 ^ 32 ∧ blob = output ++ leBytes 4 value.length ++ value := by
  unfold pushVec
  split_ifs with h
  · exact ⟨fun hok => ⟨h, (Except.ok.inj hok).symm⟩, fun hblob => hblob.2 ▸ rfl⟩
  · exact ⟨nofun, fun hblob => absurd hblob.1 h⟩

end Reading

section Blobs

variable {decoders : CredentialDecoders} {k : StoredCredential} {blob rest : List UInt8}

namespace StoredCredential

def Decodes (decoders : CredentialDecoders) (k : StoredCredential) : Prop :=
  decoders.id k.id = .ok () ∧ decoders.transports k.transports = .ok () ∧
    decoders.userId k.userId = .ok () ∧ decoders.staticState k.staticState = .ok () ∧
    decoders.dynamicState k.dynamicState = .ok () ∧ decoders.metadata k.metadata = .ok ()

def Short (k : StoredCredential) : Prop :=
  k.id.length < 2 ^ 32 ∧ k.staticState.length < 2 ^ 32 ∧ k.metadata.length < 2 ^ 32

def bytes (k : StoredCredential) : List UInt8 :=
  credentialBlobVersion :: leBytes 4 k.id.length ++ k.id ++ k.transports :: k.userId.1 ++
    leBytes 4 k.staticState.length ++ k.staticState ++ k.dynamicState.1 ++
    leBytes 4 k.metadata.length ++ k.metadata

theorem toBlob_eq_ok : k.toBlob = .ok blob ↔ k.Short ∧ blob = k.bytes := by
  simp [toBlob, except_bind_eq_ok, pushVec_eq_ok, Short, bytes, and_assoc]

theorem takeVersion_eq_ok {input : List UInt8} {u : Unit} :
    takeVersion input = .ok (u, rest) ↔ input = credentialBlobVersion :: rest := by
  rw [takeVersion, take_bind_eq_ok]
  constructor
  · rintro ⟨version, mid, hread, hversion⟩
    split_ifs at hversion with hne
    · cases hversion
    · cases hversion
      rw [takeU8_eq_ok.mp hread, not_not.mp hne]
  · rintro rfl
    exact ⟨credentialBlobVersion, rest, takeU8_eq_ok.mpr rfl, rfl⟩

/-- Reading the components is the inverse of writing them, whatever follows. -/
theorem takeComponents_eq_ok :
    takeComponents decoders blob = .ok (k, rest) ↔
      k.Decodes decoders ∧ k.Short ∧ blob = k.bytes ++ rest := by
  simp only [takeComponents, take_bind_eq_ok, takeVersion_eq_ok, takeDecoded_eq_ok, takeU8_eq_ok,
    takeVec_eq_ok, takeArray_eq_ok]
  constructor
  · rintro ⟨_, _, rfl, id, _, ⟨⟨hid, rfl⟩, hidOk⟩, transports, _, ⟨rfl, htransports⟩, userId, _,
      ⟨rfl, huserId⟩, staticState, _, ⟨⟨hstatic, rfl⟩, hstaticOk⟩, dynamicState, _,
      ⟨rfl, hdynamic⟩, metadata, _, ⟨⟨hmet, rfl⟩, hmetadataOk⟩, hk⟩
    cases hk
    exact ⟨⟨hidOk, htransports, huserId, hstaticOk, hdynamic, hmetadataOk⟩,
      ⟨hid, hstatic, hmet⟩, by simp [bytes]⟩
  · rintro ⟨⟨hidOk, htransports, huserId, hstaticOk, hdynamic, hmetadataOk⟩,
      ⟨hid, hstatic, hmet⟩, rfl⟩
    simp only [bytes, List.cons_append, List.append_assoc]
    refine ⟨(), _, rfl, k.id, _, ⟨⟨hid, rfl⟩, hidOk⟩, k.transports, _, ⟨rfl, htransports⟩, k.userId,
      _, ⟨rfl, huserId⟩, k.staticState, _, ⟨⟨hstatic, rfl⟩, hstaticOk⟩, k.dynamicState, _,
      ⟨rfl, hdynamic⟩, k.metadata, _, ⟨⟨hmet, rfl⟩, hmetadataOk⟩, rfl⟩

theorem fromBlob_eq_ok :
    fromBlob decoders blob = .ok k ↔ k.Decodes decoders ∧ k.Short ∧ blob = k.bytes := by
  have hrun : ∀ input, (takeComponents decoders).run blob = .ok (k, input) ↔
      k.Decodes decoders ∧ k.Short ∧ blob = k.bytes ++ input := fun _ => takeComponents_eq_ok
  simp only [fromBlob, except_bind_eq_ok, Prod.exists]
  constructor
  · rintro ⟨credential, input, hread, hrest⟩
    split_ifs at hrest with hemp
    cases hrest
    rw [hrun, not_not.mp hemp, List.append_nil] at hread
    exact hread
  · intro h
    refine ⟨k, [], (hrun []).mpr (by rwa [List.append_nil]), by simp⟩

end StoredCredential

open StoredCredential

/-- Writing a credential whose components the decoders accept and reading it again gives the
credential; an accepted blob is what its credential is written as. So two blobs of one credential
are equal, and neither a proper extension nor a proper prefix of an accepted blob is accepted. -/
theorem credential_blob_round_trips (decoders : CredentialDecoders) :
    (∀ k : StoredCredential, k.Decodes decoders → k.Short →
      ∃ blob, k.toBlob = .ok blob ∧ fromBlob decoders blob = .ok k) ∧
    (∀ blob k, fromBlob decoders blob = .ok k → k.toBlob = .ok blob) ∧
    (∀ blob blob' k, fromBlob decoders blob = .ok k → fromBlob decoders blob' = .ok k →
      blob = blob') ∧
    ∀ blob tail k, tail ≠ [] →
      (fromBlob decoders blob = .ok k → ∀ k', fromBlob decoders (blob ++ tail) ≠ .ok k') ∧
      (fromBlob decoders (blob ++ tail) = .ok k → ∀ k', fromBlob decoders blob ≠ .ok k') := by
  have hextension : ∀ {blob tail k k'}, fromBlob decoders blob = .ok k →
      fromBlob decoders (blob ++ tail) = .ok k' → tail = [] := by
    intro blob tail k k' hblob hext
    obtain ⟨hdeco, hsho, rfl⟩ := fromBlob_eq_ok.mp hblob
    obtain ⟨hdeco', hsho', hbytes⟩ := fromBlob_eq_ok.mp hext
    -- the components at the front are read as `k`, with the tail left, and as `k'`
    have hread : takeComponents decoders (k.bytes ++ tail) = .ok (k, tail) :=
      takeComponents_eq_ok.mpr ⟨hdeco, hsho, rfl⟩
    rw [takeComponents_eq_ok.mpr ⟨hdeco', hsho', hbytes.trans (List.append_nil _).symm⟩] at hread
    exact (congrArg Prod.snd (Except.ok.inj hread)).symm
  refine ⟨fun k hdeco hsho => ⟨k.bytes, ?_, ?_⟩, fun blob k hok => ?_,
    fun blob blob' k hok hok' => ?_, fun blob tail k htail => ⟨?_, ?_⟩⟩
  · exact toBlob_eq_ok.mpr ⟨hsho, rfl⟩
  · exact fromBlob_eq_ok.mpr ⟨hdeco, hsho, rfl⟩
  · exact toBlob_eq_ok.mpr (fromBlob_eq_ok.mp hok).2
  · rw [(fromBlob_eq_ok.mp hok).2.2, (fromBlob_eq_ok.mp hok').2.2]
  · exact fun hok k' hok' => htail (hextension hok hok')
  · exact fun hok k' hok' => htail (hextension hok' hok)

end Blobs

end VaultLink
