import VaultLink.Histories
import VaultLink.Keyring

/-!
# Rotations lose no secret

A rotation replaces the keyring file, moves the secrets and replaces the file again, and may
end anywhere in between. What protects the secrets is that every content the file may be left
with opens every row: the first replacement only adds a key, the rows move when that
replacement is durable and no older content is left, and the second one drops keys that no
row names any more.
-/
namespace VaultLink

open Keyring
open WriteBack
open KeyedTable
open VaultLink.Action (Maintains)

variable {stored : StoredKeyring} {keyId : ℕ} {ciphertext : List UInt8}

section Keys

variable (lib : Libraries)

/-- The bytes open under the key. -/
def OpensWith (key ciphertext : List UInt8) (aad : String) (plaintext : List UInt8) : Prop :=
  nonceBytes < ciphertext.length ∧
    lib.decrypt key (ciphertext.take nonceBytes) (ciphertext.drop nonceBytes) aad = some plaintext

theorem opensWith_of_encrypt {key message encrypted : List UInt8} {aad : String}
    {nonce : Vector UInt8 nonceBytes}
    (h : lib.encrypt key nonce.toList message aad = some encrypted) :
    OpensWith lib key (nonce.toList ++ encrypted) aad message := by
  have hnonce : nonce.toList.length = nonceBytes := Vector.length_toList
  refine ⟨?_, ?_⟩
  · rw [List.length_append, hnonce, lib.length_encrypt h]
    omega
  · rw [List.take_left' hnonce, List.drop_left' hnonce]
    exact lib.decrypt_encrypt h

/-- What `from_stored` accepts. -/
structure StoredKeyring.Valid (stored : StoredKeyring) : Prop where
  version : stored.version = keyringVersion
  active : ∃ entry ∈ stored.keys, entry.id = stored.activeKeyId
  decodes : ∀ entry ∈ stored.keys, ∃ key, entry.decoded = .ok key ∧ key.length = keyBytes

/-- A keyring holds the keys of the file. -/
structure Keyring.Holds (keyring : Keyring) (stored : StoredKeyring) : Prop where
  active : keyring.activeKeyId = stored.activeKeyId
  mem_iff : ∀ entry, entry ∈ keyring.keys ↔ ⟨entry.id, .ok entry.key⟩ ∈ stored.keys

namespace Keyring

theorem decodeKey_ok {stored : StoredKey} {key : List UInt8} (hkey : stored.decoded = .ok key)
    (hlen : key.length = keyBytes) : decodeKey stored = .ok ⟨stored.id, key⟩ := by
  rw [decodeKey, hkey]
  simp [hlen]

theorem decodes_of_decodeKey {stored : StoredKey} {entry : DecodedKey}
    (h : decodeKey stored = .ok entry) :
    ∃ key, stored.decoded = .ok key ∧ key.length = keyBytes := by
  unfold decodeKey at h
  split at h
  · cases h
  · rename_i key hkey
    split at h
    · cases h
    · rename_i hlen
      exact ⟨key, hkey, not_not.mp hlen⟩

theorem decodes_of_decodeKeys {rows : List StoredKey} {keys result : KeyedTable DecodedKey.id}
    (h : decodeKeys rows keys = .ok result) :
    ∀ stored ∈ rows, ∃ key, stored.decoded = .ok key ∧ key.length = keyBytes := by
  induction rows generalizing keys with
  | nil => exact fun stored hstored => absurd hstored List.not_mem_nil
  | cons stored rest ih =>
    rw [decodeKeys] at h
    split at h
    · cases h
    · rename_i entry hent
      exact List.forall_mem_cons.mpr ⟨decodes_of_decodeKey hent, ih h⟩

/-- The loop collects the decoded entries: no two of them have one id, so none is replaced. -/
theorem decodeKeys_ok {rows : List StoredKey} {keys : KeyedTable DecodedKey.id}
    (hnod : (rows.map StoredKey.id).Nodup)
    (hfr : ∀ stored ∈ rows, ∀ entry ∈ keys, entry.id ≠ stored.id)
    (hdec : ∀ stored ∈ rows, ∃ key, stored.decoded = .ok key ∧ key.length = keyBytes) :
    ∃ result, decodeKeys rows keys = .ok result ∧
      ∀ entry, entry ∈ result ↔ entry ∈ keys ∨ ⟨entry.id, .ok entry.key⟩ ∈ rows := by
  induction rows generalizing keys with
  | nil => exact ⟨keys, rfl, fun entry => by simp⟩
  | cons stored rest ih =>
    obtain ⟨key, hkey, hlen⟩ := hdec stored List.mem_cons_self
    obtain ⟨hfirst, hrest⟩ := List.nodup_cons.mp hnod
    have hfr' : ∀ stored' ∈ rest, ∀ entry ∈ keys.upsert ⟨stored.id, key⟩,
        entry.id ≠ stored'.id := by
      intro stored' hstored' entry hent hid
      obtain rfl | ⟨hent, _⟩ := mem_upsert.mp hent
      · exact hfirst (List.mem_map.mpr ⟨stored', hstored', hid.symm⟩)
      · exact hfr stored' (List.mem_cons_of_mem stored hstored') entry hent hid
    obtain ⟨result, hres, hmem⟩ := ih hrest hfr' fun stored' hstored' =>
      hdec stored' (List.mem_cons_of_mem stored hstored')
    refine ⟨result, ?_, fun entry => ?_⟩
    · rw [decodeKeys, decodeKey_ok hkey hlen]
      exact hres
    · have hhead : (⟨entry.id, .ok entry.key⟩ : StoredKey) = stored ↔
          entry = ⟨stored.id, key⟩ := by
        obtain ⟨id, decoded⟩ := stored
        obtain ⟨id', key'⟩ := entry
        cases hkey
        simp
      have hkept : entry ∈ keys → entry.id ≠ stored.id :=
        hfr stored List.mem_cons_self entry
      rw [hmem entry, mem_upsert, List.mem_cons, hhead]
      tauto

theorem fromStored_ok (h : stored.Valid) :
    ∃ keyring, fromStored stored = .ok keyring ∧ keyring.Holds stored := by
  obtain ⟨keys, hkeys, hmem⟩ := @decodeKeys_ok _ ∅ stored.keys.keys_nodup
    (fun _ _ entry hent => absurd hent (not_mem_empty entry)) h.decodes
  have hact : stored.keys.any (·.id = stored.activeKeyId) = true := by
    simpa using h.active
  refine ⟨⟨stored.activeKeyId, keys⟩, ?_, rfl, fun entry => ?_⟩
  · rw [fromStored, hact, hkeys, h.version]
    simp
  · exact (hmem entry).trans (or_iff_right (not_mem_empty entry))

theorem valid_of_fromStored {keyring : Keyring} (h : fromStored stored = .ok keyring) :
    stored.Valid := by
  unfold fromStored at h
  split at h
  · cases h
  · rename_i hchecks
    simp only [ne_eq, decide_not, Bool.or_eq_true, Bool.not_eq_true', decide_eq_false_iff_not,
      not_or, not_not, Bool.not_eq_false, any_iff, decide_eq_true_eq] at hchecks
    split at h
    · cases h
    · rename_i keys hkeys
      exact ⟨hchecks.1, hchecks.2, decodes_of_decodeKeys hkeys⟩

theorem holds_of_fromStored {keyring : Keyring} (h : fromStored stored = .ok keyring) :
    keyring.Holds stored := by
  obtain ⟨keyring', hkeyr', hholds⟩ := fromStored_ok (valid_of_fromStored h)
  rw [h] at hkeyr'
  cases hkeyr'
  exact hholds

variable {lib} {keyring : Keyring}

theorem decrypt_ok_iff (hholds : keyring.Holds stored) (hvalid : stored.Valid)
    {plaintext : List UInt8} {aad : String} :
    keyring.decrypt lib keyId ciphertext aad = .ok plaintext ↔
      ∃ key, ⟨keyId, .ok key⟩ ∈ stored.keys ∧ OpensWith lib key ciphertext aad plaintext := by
  have hlen : ∀ entry ∈ keyring.keys, entry.key.length = keyBytes := by
    intro entry hent
    obtain ⟨key, hkey, hlen⟩ := hvalid.decodes _ ((hholds.mem_iff entry).mp hent)
    cases hkey
    exact hlen
  constructor
  · intro h
    unfold decrypt at h
    split at h
    · cases h
    · rename_i hlong
      split at h
      · cases h
      · rename_i entry hent
        obtain ⟨hmem, rfl⟩ := find?_some hent
        rw [if_neg (not_not.mpr (hlen entry hmem))] at h
        split at h
        · cases h
        · rename_i opened hopened
          cases h
          exact ⟨entry.key, (hholds.mem_iff entry).mp hmem, by omega, hopened⟩
  · rintro ⟨key, hmem, hlong, hops⟩
    have hent : (⟨keyId, key⟩ : DecodedKey) ∈ keyring.keys := (hholds.mem_iff _).mpr hmem
    rw [decrypt, if_neg (by omega), find?_eq_some_iff.mpr ⟨hent, rfl⟩]
    simp [hlen _ hent, hops]

/-- What was encrypted opens under the active key. -/
theorem encrypt_ok (hholds : keyring.Holds stored) {nonce : Vector UInt8 nonceBytes}
    {plaintext : List UInt8} {aad : String}
    (h : keyring.encrypt lib nonce plaintext aad = .ok (keyId, ciphertext)) :
    keyId = stored.activeKeyId ∧
      ∃ key, ⟨keyId, .ok key⟩ ∈ stored.keys ∧ OpensWith lib key ciphertext aad plaintext := by
  unfold encrypt at h
  split at h
  · cases h
  · rename_i entry hent
    split at h
    · cases h
    · split at h
      · cases h
      · rename_i encrypted hencrypted
        obtain ⟨hmem, hid⟩ := find?_some hent
        cases h
        refine ⟨hholds.active, entry.key, ?_, opensWith_of_encrypt lib hencrypted⟩
        rw [← hid]
        exact (hholds.mem_iff entry).mp hmem

end Keyring

end Keys

section Opening

variable (lib : Libraries) (original : SecretColumn → String → List UInt8)

/-- The file holds a key for every stored secret, and the secret decrypts under it. -/
def Readable (file : Option StoredKeyring) (db : SecretStore) : Prop :=
  ∃ stored keyring, file = some stored ∧ fromStored stored = .ok keyring ∧
    ∀ column, ∀ row ∈ db.table column,
      (∃ entry ∈ stored.keys, entry.id = row.keyId) ∧
        keyring.decrypt lib row.keyId row.ciphertext (column.associatedData lib row.stableId) =
          .ok (original column row.stableId)

/-- The key opens the row. -/
def OpensRow (column : SecretColumn) (row : SecretRow) (key : List UInt8) : Prop :=
  OpensWith lib key row.ciphertext (column.associatedData lib row.stableId)
    (original column row.stableId)

/-- `Readable`, in terms of the entries of the file. -/
structure OpensAll (stored : StoredKeyring) (db : SecretStore) : Prop where
  valid : stored.Valid
  opens : ∀ column, ∀ row ∈ db.table column, ∃ key, ⟨row.keyId, .ok key⟩ ∈ stored.keys ∧
    OpensRow lib original column row key

variable {lib original} {db : SecretStore}

theorem readable_iff {file : Option StoredKeyring} :
    Readable lib original file db ↔
      ∃ stored, file = some stored ∧ OpensAll lib original stored db := by
  constructor
  · rintro ⟨stored, keyring, hfile, hkeyr, hrows⟩
    have hvalid := valid_of_fromStored hkeyr
    refine ⟨stored, hfile, hvalid, fun column row hrow => ?_⟩
    exact (decrypt_ok_iff (holds_of_fromStored hkeyr) hvalid).mp
      (hrows column row hrow).2
  · rintro ⟨stored, hfile, h⟩
    obtain ⟨keyring, hkeyr, hholds⟩ := fromStored_ok h.valid
    refine ⟨stored, keyring, hfile, hkeyr, fun column row hrow => ?_⟩
    obtain ⟨key, hkey, hops⟩ := h.opens column row hrow
    exact ⟨⟨_, hkey, rfl⟩, (decrypt_ok_iff hholds h.valid).mpr ⟨key, hkey, hops⟩⟩

/-- The new id is above every id of the file. -/
theorem lt_newKeyId {newKeyId : ℕ} (h : stored.newKeyId = .ok newKeyId) {entry : StoredKey}
    (hent : entry ∈ stored.keys) : entry.id < newKeyId := by
  have hmem : entry.id ∈ stored.keys.rows.map StoredKey.id := List.mem_map_of_mem hent
  unfold StoredKeyring.newKeyId at h
  split at h
  · rename_i id hmax
    have hle : entry.id ≤ id := (List.max?_eq_some_iff.mp hmax).2 _ hmem
    split at h
    · cases h
      omega
    · cases h
  · rename_i hnone
    rw [List.max?_eq_none_iff.mp hnone] at hmem
    exact absurd hmem List.not_mem_nil

theorem StoredKeyring.mem_addActive {newKeyId : ℕ} (hid : stored.newKeyId = .ok newKeyId)
    (key : List UInt8) {entry : StoredKey} :
    entry ∈ (stored.addActive newKeyId key).keys ↔
      entry = ⟨newKeyId, .ok key⟩ ∨ entry ∈ stored.keys := by
  have hne : entry ∈ stored.keys → entry.id ≠ newKeyId := fun h => (lt_newKeyId hid h).ne
  rw [addActive, mem_upsert]
  tauto

/-- Adding a key locks nothing. -/
theorem OpensAll.addActive (h : OpensAll lib original stored db) {newKeyId : ℕ}
    (hid : stored.newKeyId = .ok newKeyId) (key : Vector UInt8 keyBytes) :
    OpensAll lib original (stored.addActive newKeyId key.toList) db where
  valid := by
    refine ⟨h.valid.version, ⟨_, (StoredKeyring.mem_addActive hid _).mpr (.inl rfl), rfl⟩, ?_⟩
    intro entry hent
    obtain rfl | hent := (StoredKeyring.mem_addActive hid _).mp hent
    · exact ⟨key.toList, rfl, Vector.length_toList⟩
    · exact h.valid.decodes entry hent
  opens := by
    intro column row hrow
    obtain ⟨key', hkey', hops⟩ := h.opens column row hrow
    exact ⟨key', (StoredKeyring.mem_addActive hid _).mpr (.inr hkey'), hops⟩

/-- Dropping the inactive keys locks nothing when every row names the active one. -/
theorem OpensAll.retain (h : OpensAll lib original stored db)
    (hrows : ∀ column, ∀ row ∈ db.table column, row.keyId = stored.activeKeyId) :
    OpensAll lib original (stored.retain stored.activeKeyId) db where
  valid := by
    obtain ⟨entry, hent, hact⟩ := h.valid.active
    refine ⟨h.valid.version, ⟨entry, ?_, hact⟩, fun entry hent => ?_⟩
    · exact mem_deleteWhere.mpr ⟨hent, by simp [hact]⟩
    · exact h.valid.decodes entry (mem_deleteWhere.mp hent).1
  opens := by
    intro column row hrow
    obtain ⟨key, hkey, hops⟩ := h.opens column row hrow
    exact ⟨key, mem_deleteWhere.mpr ⟨hkey, by simp [hrows column row hrow]⟩, hops⟩

end Opening

variable {error : RotationError} {lib : Libraries}
  {original : SecretColumn → String → List UInt8} {start : SecretStore} {w t : SecretsWorld}
  {env : RotationEnvironment}

section Preservation

variable (lib original start)

/-- Every content the file may be left with unlocks the database, which has lost no row. -/
structure Kept (w : SecretsWorld) : Prop where
  opens : ∀ file ∈ w.file.contents, ∃ stored, file = some stored ∧
    OpensAll lib original stored w.db
  stableIds : ∀ column, (w.db.table column).rows.map SecretRow.stableId =
    (start.table column).rows.map SecretRow.stableId

/-- Neither the file nor the database has changed. -/
def Untouched (w t : SecretsWorld) : Prop := t.file = w.file ∧ t.db = w.db

variable {lib original start} {α : Type} {Q : α → SecretsWorld → Prop}

theorem Kept.untouched (h : Kept lib original start w) (ht : Untouched w t) :
    Kept lib original start t := by
  obtain ⟨hfile, hdb⟩ := ht
  exact ⟨by rw [hfile, hdb]; exact h.opens, by rw [hdb]; exact h.stableIds⟩

theorem Kept.powerLoss (h : Kept lib original start w) (mask : List Bool) :
    Kept lib original start (w.powerLoss mask) where
  opens := fun file hfile => h.opens file (w.file.contents_crash mask hfile)
  stableIds := h.stableIds

/-- What a step that changes nothing and a power loss keep. -/
def Persistent (I : SecretsWorld → Prop) : Prop :=
  ∀ t, I t → (∀ u, Untouched t u → I u) ∧ ∀ mask, I (t.powerLoss mask)

theorem Kept.persistent : Persistent (Kept lib original start) :=
  fun _ h => ⟨fun _ hu => h.untouched hu, h.powerLoss⟩

/-- A step preserves it when its effect does: a disturbance leaves the state before it or
the one after it. -/
theorem Persistent.maintains {I : SecretsWorld → Prop} (hI : Persistent I)
    {effect : SecretsWorld → Outcome SecretsWorld RotationError α} (hw : I w)
    (heff : ∀ t, Untouched w t →
      (effect t).Ends (fun a t' => I t' ∧ Q a t') (fun _ => I) I) :
    Maintains I (rotationStep error effect) env w Q := by
  have haft := heff { w with clock := w.clock + 1 } ⟨rfl, rfl⟩
  have hbef : I { w with clock := w.clock + 1 } := (hI w hw).1 _ ⟨rfl, rfl⟩
  unfold Maintains Action.Meets rotationStep
  cases env.disturbance w.clock with
  | proceeds => exact haft
  | fails => exact hbef
  | loses =>
    dsimp only
    generalize effect { w with clock := w.clock + 1 } = outcome at haft ⊢
    cases outcome with
    | ok a t => exact haft.1
    | err error t => exact haft
    | crash t => exact haft
  | stops => exact hbef
  | powerLoss mask => exact (hI _ hbef).2 mask

theorem Persistent.maintains_silent {I : SecretsWorld → Prop} (hI : Persistent I) (hw : I w) :
    Maintains I (silentStep error) env w fun _ t => Untouched w t :=
  hI.maintains hw fun t ht => ⟨(hI w hw).1 t ht, ht⟩

theorem maintains_step {effect : SecretsWorld → Outcome SecretsWorld RotationError α}
    (hw : Kept lib original start w) (heff : ∀ t, Untouched w t →
      (effect t).Ends (fun a t' => Kept lib original start t' ∧ Q a t')
        (fun _ => Kept lib original start) (Kept lib original start)) :
    Maintains (Kept lib original start) (rotationStep error effect) env w Q :=
  Kept.persistent.maintains hw heff

theorem maintains_silent (hw : Kept lib original start w) :
    Maintains (Kept lib original start) (silentStep error) env w fun _ t => Untouched w t :=
  Kept.persistent.maintains_silent hw

end Preservation

section FileRules

theorem Untouched.trans {w t u : SecretsWorld} (h : Untouched w t) (h' : Untouched t u) :
    Untouched w u :=
  ⟨h'.1.trans h.1, h'.2.trans h.2⟩

theorem maintains_readStoredKeyring (hw : Kept lib original start w) :
    Maintains (Kept lib original start) readStoredKeyring env w
      fun stored t => Untouched w t ∧ OpensAll lib original stored t.db := by
  refine (maintains_silent hw).bind fun _ t ht htou => ?_
  refine maintains_step ht fun u hu => ?_
  obtain ⟨stored, hfile, hops⟩ := (ht.untouched hu).opens _ u.file.view_mem_contents
  have hview : u.keyringFile = some stored := hfile
  rw [hview]
  exact ⟨ht.untouched hu, htou.trans hu, hops⟩

/-- The state of a replacement of the file: what it may be left with is an earlier content or
the new one. -/
structure Replacing (w : SecretsWorld) (stored : StoredKeyring) (t : SecretsWorld) : Prop where
  contents : ∀ content ∈ t.file.contents, content ∈ w.file.contents ∨ content = some stored
  db : t.db = w.db

theorem Replacing.persistent (w : SecretsWorld) (stored : StoredKeyring) :
    Persistent (Replacing w stored) := by
  refine fun t h => ⟨fun u hu => ⟨?_, hu.2.trans h.db⟩, fun mask => ⟨?_, h.db⟩⟩
  · rw [hu.1]
    exact h.contents
  · exact fun content hcon => h.contents content (t.file.contents_crash mask hcon)

/-- After the rename the new content is visible, and any earlier one may come back. -/
theorem maintains_renameOver (ht : Replacing w stored t) {file : TemporaryFile}
    (hdur : file.durable = some stored) :
    Maintains (Replacing w stored) file.renameOver env t
      fun _ u => u.keyringFile = some stored := by
  refine (Replacing.persistent w stored).maintains ht fun u hu => ⟨⟨?_, hu.2.trans ht.db⟩, ?_⟩
  · intro content hcon
    rw [contents_record, hdur, List.mem_append, List.mem_singleton, hu.1] at hcon
    exact hcon.elim (ht.contents content) .inr
  · rw [SecretsWorld.keyringFile, view_record, hdur]
    rfl

/-- After the synchronization only the visible content is left. -/
theorem maintains_syncKeyringDirectory (ht : Replacing w stored t)
    (hview : t.keyringFile = some stored) :
    Maintains (Replacing w stored) syncKeyringDirectory env t
      fun _ u => u.file.contents = [some stored] := by
  refine (Replacing.persistent w stored).maintains ht fun u hu => ?_
  have hsynced : (u.file.sync overwrite ()).contents = [some stored] := by
    rw [sync_unit, ← hview, SecretsWorld.keyringFile, hu.1]
    rfl
  refine ⟨⟨fun content hcon => .inr ?_, hu.2.trans ht.db⟩, hsynced⟩
  rw [hsynced] at hcon
  exact List.mem_singleton.mp hcon

/-- The replacement of the file is durable when it succeeds, and may be seen or lost when it
does not. -/
theorem replacing_writeKeyringAtomic (w : SecretsWorld) (stored : StoredKeyring) :
    Maintains (Replacing w stored) (writeKeyringAtomic stored) env w
      fun _ t => t.file.contents = [some stored] := by
  have hper := Replacing.persistent w stored
  have hw : Replacing w stored w := ⟨fun _ => .inl, rfl⟩
  have hcreate : Maintains (Replacing w stored) createTemporary env w fun _ _ => True :=
    hper.maintains hw fun t ht => ⟨(hper w hw).1 t ht, trivial⟩
  refine hcreate.bind fun file t ht _ => ?_
  have hwrite : Maintains (Replacing w stored) (file.writeAll stored) env t
      fun file _ => file.written = some stored :=
    hper.maintains ht fun u hu => ⟨(hper t ht).1 u hu, rfl⟩
  refine hwrite.bind fun file u hu hwritten => ?_
  have hsync : Maintains (Replacing w stored) file.syncAll env u
      fun file _ => file.durable = some stored :=
    hper.maintains hu fun v hv => ⟨(hper u hu).1 v hv, hwritten⟩
  refine hsync.bind fun file v hv hdur => ?_
  refine Action.meets_bind.mpr (Action.meets_attempt.mpr
    (Action.Meets.mono (maintains_renameOver hv hdur) ?_ ?_ ?_))
  · rintro _ x ⟨hx, hview⟩
    refine (hper.maintains_silent hx).bind fun _ y hy htou => ?_
    have hview' : y.keyringFile = some stored := by
      rw [SecretsWorld.keyringFile, htou.1]
      exact hview
    exact maintains_syncKeyringDirectory hy hview'
  · intro error x hx
    refine Action.meets_bind.mpr (Action.meets_attempt.mpr ?_)
    exact (hper.maintains_silent hx).meets fun _ h => h
  · exact fun _ h => h

theorem Kept.replacing (hw : Kept lib original start w)
    (hstored : OpensAll lib original stored w.db) (ht : Replacing w stored t) :
    Kept lib original start t := by
  rw [← ht.db] at hstored
  refine ⟨fun content hcon => ?_, by rw [ht.db]; exact hw.stableIds⟩
  obtain hold | rfl := ht.contents content hcon
  · rw [ht.db]
    exact hw.opens content hold
  · exact ⟨stored, rfl, hstored⟩

theorem maintains_writeKeyringAtomic (hw : Kept lib original start w)
    (hstored : OpensAll lib original stored w.db) :
    Maintains (Kept lib original start) (writeKeyringAtomic stored) env w
      fun _ t => t.file.contents = [some stored] ∧ t.db = w.db :=
  ((replacing_writeKeyringAtomic w stored).weaken fun _ ht => hw.replacing hstored ht).mono
    fun _ _ _ ⟨ht, hcons⟩ => ⟨hcons, ht.db⟩

end FileRules

section RowRules

variable {column : SecretColumn} {keyring : Keyring} {stored : StoredKeyring}

variable (lib original stored) in
/-- The row is encrypted under the active key. -/
def Moved (column : SecretColumn) (row : SecretRow) : Prop :=
  row.keyId = stored.activeKeyId ∧
    ∃ key, ⟨row.keyId, .ok key⟩ ∈ stored.keys ∧ OpensRow lib original column row key

/-- The loop in the middle: the rows still to come are as they were selected, all others have
moved. -/
structure Rotating (lib : Libraries) (original : SecretColumn → String → List UInt8)
    (stored : StoredKeyring) (rest : List SecretRow) (table : SecretTable column) : Prop where
  pending : ∀ row ∈ rest, row ∈ table
  distinct : (rest.map column.key).Nodup
  moved : ∀ row ∈ table, row ∈ rest ∨ Moved lib original stored column row

variable {table : SecretTable column}

/-- Updating the first row moves it and leaves the others alone. -/
theorem Rotating.update {row : SecretRow} {rest : List SecretRow}
    (h : Rotating lib original stored (row :: rest) table)
    (hmoved : Moved lib original stored column { row with keyId, ciphertext }) :
    Rotating lib original stored rest
      (table.updateWhere (fun r => column.key r = column.collate row.stableId)
        fun r => { r with keyId, ciphertext }) := by
  obtain ⟨hfirst, hdistinct⟩ := List.nodup_cons.mp h.distinct
  have hrow : row ∈ table := h.pending row List.mem_cons_self
  refine ⟨fun r hr => ?_, hdistinct, fun r' hr' => ?_⟩
  · have hne : column.key r ≠ column.key row := fun heq =>
      hfirst (heq ▸ List.mem_map_of_mem hr)
    refine (mem_updateWhere _).mpr ⟨r, h.pending r (List.mem_cons_of_mem row hr), ?_⟩
    exact if_neg fun heq => hne (of_decide_eq_true heq)
  · obtain ⟨r, hr, rfl⟩ := (mem_updateWhere _).mp hr'
    by_cases hkey : column.key r = column.collate row.stableId
    · rw [if_pos (decide_eq_true hkey), table.eq_of_key_eq hr hrow hkey]
      exact .inr hmoved
    · rw [if_neg fun heq => hkey (of_decide_eq_true heq)]
      refine (h.moved r hr).imp_left fun hmem => ?_
      exact (List.mem_cons.mp hmem).resolve_left fun heq => hkey (heq ▸ rfl)

theorem stableIds_updateWhere (table : SecretTable column) (p : SecretRow → Bool) (keyId : ℕ)
    (ciphertext : List UInt8) :
    (table.updateWhere p fun r => { r with keyId, ciphertext }).rows.map SecretRow.stableId =
      table.rows.map SecretRow.stableId := by
  simp only [updateWhere, List.map_map]
  refine List.map_congr_left fun r _ => ?_
  by_cases hp : p r = true <;> simp [hp]

/-- What decrypts to its original moves to the active key with it. -/
theorem moved_of_encrypt (hholds : keyring.Holds stored) {row : SecretRow}
    {nonce : Vector UInt8 nonceBytes} (h : keyring.encrypt lib nonce (original column row.stableId)
      (column.associatedData lib row.stableId) = .ok (keyId, ciphertext)) :
    Moved lib original stored column { row with keyId, ciphertext } := by
  obtain ⟨hact, key, hkey, hops⟩ := encrypt_ok hholds h
  exact ⟨hact, key, hkey, hops⟩

/-- The plaintext read back from a row is the original one. -/
theorem plaintext_eq (hholds : keyring.Holds stored) (hvalid : stored.Valid) {row : SecretRow}
    {key plaintext : List UInt8} (hkey : ⟨row.keyId, .ok key⟩ ∈ stored.keys)
    (hops : OpensRow lib original column row key)
    (h : keyring.decrypt lib row.keyId row.ciphertext (column.associatedData lib row.stableId) =
      .ok plaintext) : plaintext = original column row.stableId := by
  have horiginal := (decrypt_ok_iff hholds hvalid).mpr ⟨key, hkey, hops⟩
  rw [h] at horiginal
  exact Except.ok.inj horiginal

theorem maintains_rotateEach (hholds : keyring.Holds stored) (hvalid : stored.Valid)
    {rest : List SecretRow} (hw : Kept lib original start w)
    (hrest : ∀ row ∈ rest, ∃ key, ⟨row.keyId, .ok key⟩ ∈ stored.keys ∧
      OpensRow lib original column row key) (hrot : Rotating lib original stored rest table) :
    Maintains (Kept lib original start) (rotateEach lib keyring rest table) env w fun table' t =>
      Untouched w t ∧ Rotating lib original stored [] table' ∧
        table'.rows.map SecretRow.stableId = table.rows.map SecretRow.stableId := by
  induction rest generalizing w table with
  | nil => exact ⟨hw, ⟨rfl, rfl⟩, hrot, rfl⟩
  | cons row rest ih =>
    obtain ⟨key, hkey, hops⟩ := hrest row List.mem_cons_self
    refine (Maintains.ofExcept hw).bind fun plaintext t ht ⟨htw, hplain⟩ => ?_
    obtain rfl := plaintext_eq hholds hvalid hkey hops hplain
    have hnonce : Maintains (Kept lib original start) generateNonce env t
        fun _ u => Untouched w u :=
      ⟨ht.untouched ⟨rfl, rfl⟩, by rw [htw]; exact ⟨rfl, rfl⟩⟩
    refine hnonce.bind fun nonce u hu htou => ?_
    refine (Maintains.ofExcept hu).bind fun ⟨keyId, ciphertext⟩ v hv ⟨hvu, hcipher⟩ => ?_
    have hstep := hrot.update (moved_of_encrypt hholds hcipher)
    have hupdate : Maintains (Kept lib original start)
        (updateSecret row.stableId keyId ciphertext table) env v fun result x =>
          Untouched w x ∧ Rotating lib original stored rest result.2 ∧
            result.2.rows.map SecretRow.stableId = table.rows.map SecretRow.stableId := by
      refine maintains_step hv fun x hx => ?_
      split
      · exact hv.untouched hx
      · rw [hvu] at hx
        exact ⟨hu.untouched hx, htou.trans hx, hstep,
          stableIds_updateWhere table _ keyId ciphertext⟩
    refine hupdate.bind fun ⟨changed, table'⟩ x hx ⟨htou'', hrot', hids⟩ => ?_
    dsimp only
    split
    · exact hx
    · refine (ih hx (fun r hr => hrest r (List.mem_cons_of_mem row hr)) hrot').mono ?_
      rintro table'' y - ⟨hunt, hdone, hids'⟩
      exact ⟨htou''.trans hunt, hdone, hids'.trans hids⟩

theorem maintains_rotateRows (hholds : keyring.Holds stored) (hvalid : stored.Valid)
    (hw : Kept lib original start w)
    (hrows : ∀ row ∈ table, ∃ key, ⟨row.keyId, .ok key⟩ ∈ stored.keys ∧
      OpensRow lib original column row key) :
    Maintains (Kept lib original start) (rotateRows lib keyring table) env w fun table' t =>
      Untouched w t ∧ (∀ row ∈ table', Moved lib original stored column row) ∧
        table'.rows.map SecretRow.stableId = table.rows.map SecretRow.stableId := by
  refine (maintains_silent hw).bind fun _ t ht htou => ?_
  refine (maintains_silent ht).bind fun _ u hu htou' => ?_
  have hsta : Rotating lib original stored table.rows table :=
    ⟨fun _ h => h, table.keys_nodup, fun _ h => .inl h⟩
  refine (maintains_rotateEach hholds hvalid hu hrows hsta).mono ?_
  rintro table' v - ⟨htou'', hdone, hids⟩
  refine ⟨(htou.trans htou').trans htou'', fun row hrow => ?_, hids⟩
  exact (hdone.moved row hrow).resolve_left List.not_mem_nil

end RowRules

section Rotations

variable (lib)

/-- What happens to the keyring and the database between two looks at them. -/
inductive RotationEvent
  | rotate (env : RotationEnvironment)
  | powerLoss (mask : List Bool)

def RotationEvent.next (w : SecretsWorld) : RotationEvent → SecretsWorld
  | .rotate env => (rotateDatabase lib env w).state
  | .powerLoss mask => w.powerLoss mask

variable {lib}

theorem maintains_publishNewKey (hw : Kept lib original start w) :
    Maintains (Kept lib original start) publishNewKey env w fun result t =>
      t.file.contents = [some result.2] ∧ result.1 = result.2.activeKeyId ∧
        OpensAll lib original result.2 t.db := by
  refine (maintains_readStoredKeyring hw).bind fun stored w₁ hw₁ ⟨_, hstored⟩ => ?_
  refine (Maintains.ofExcept hw₁).bind fun _ w₂ hw₂ ⟨h₂, _⟩ => ?_
  refine (Maintains.ofExcept hw₂).bind fun newKeyId w₃ hw₃ ⟨h₃, hid⟩ => ?_
  rw [h₂] at h₃
  have hgenerate : Maintains (Kept lib original start) generateKey env w₃
      fun _ t => Untouched w₁ t :=
    ⟨hw₃.untouched ⟨rfl, rfl⟩, by rw [h₃]; exact ⟨rfl, rfl⟩⟩
  refine hgenerate.bind fun newKey w₄ hw₄ h₄ => ?_
  have hadded : OpensAll lib original (stored.addActive newKeyId newKey.toList) w₄.db := by
    rw [h₄.2]
    exact hstored.addActive hid newKey
  refine (maintains_writeKeyringAtomic hw₄ hadded).bind fun _ w₅ hw₅ ⟨hfile, hdb⟩ => ?_
  refine ⟨hw₅, hfile, rfl, ?_⟩
  rw [hdb]
  exact hadded

/-- The transaction moves all rows or none; the only content the file may have unlocks both. -/
theorem moved_columns {shares : SecretTable .shareToken} {admins : SecretTable .adminTotp}
    {enrollments : SecretTable .enrollmentTotp}
    (hshares : ∀ row ∈ shares, Moved lib original stored .shareToken row)
    (hadms : ∀ row ∈ admins, Moved lib original stored .adminTotp row)
    (henr : ∀ row ∈ enrollments, Moved lib original stored .enrollmentTotp row) :
    ∀ column, ∀ row ∈ SecretStore.table ⟨fun
      | .shareToken => shares
      | .adminTotp => admins
      | .enrollmentTotp => enrollments⟩ column, Moved lib original stored column row := by
  intro column
  cases column with
  | shareToken => exact hshares
  | adminTotp => exact hadms
  | enrollmentTotp => exact henr

theorem maintains_moveSecrets {rotating : Keyring} (hholds : rotating.Holds stored)
    (hw : Kept lib original start w) (hfile : w.file.contents = [some stored])
    (hops : OpensAll lib original stored w.db) :
    Maintains (Kept lib original start) (moveSecrets lib rotating) env w fun _ t =>
      t.file = w.file ∧
        ∀ column, ∀ row ∈ t.db.table column, Moved lib original stored column row := by
  have hbeg : Maintains (Kept lib original start) beginSecretTransaction env w
      fun db t => Untouched w t ∧ db = w.db :=
    maintains_step hw fun t ht => ⟨hw.untouched ht, ht, ht.2⟩
  refine hbeg.bind ?_
  rintro _ w₁ hw₁ ⟨h₁, rfl⟩
  refine (maintains_rotateRows hholds hops.valid hw₁ (hops.opens .shareToken)).bind
    fun shares w₂ hw₂ ⟨h₂, hshares, hshareIds⟩ => ?_
  refine (maintains_rotateRows hholds hops.valid hw₂ (hops.opens .adminTotp)).bind
    fun admins w₃ hw₃ ⟨h₃, hadms, hadminIds⟩ => ?_
  refine (maintains_rotateRows hholds hops.valid hw₃ (hops.opens .enrollmentTotp)).bind
    fun enrollments w₄ hw₄ ⟨h₄, henr, henrollmentIds⟩ => ?_
  have htou : Untouched w w₄ := ((h₁.trans h₂).trans h₃).trans h₄
  refine maintains_step hw₄ fun t ht => ?_
  have hmoved := moved_columns hshares hadms henr
  have hunt : t.file = w.file := (htou.trans ht).1
  refine ⟨⟨?_, ?_⟩, hunt, hmoved⟩
  · intro content hcon
    rw [show t.file = w.file from hunt, hfile, List.mem_singleton] at hcon
    exact ⟨stored, hcon, hops.valid, fun column row hrow => (hmoved column row hrow).2⟩
  · intro column
    rw [← hw.stableIds column]
    cases column with
    | shareToken => exact hshareIds
    | adminTotp => exact hadminIds
    | enrollmentTotp => exact henrollmentIds

theorem maintains_rotateDatabase (hw : Kept lib original start w) :
    Maintains (Kept lib original start) (rotateDatabase lib) env w fun _ _ => True := by
  refine (maintains_silent hw).bind fun _ w₁ hw₁ _ => ?_
  refine (maintains_silent hw₁).bind fun _ w₂ hw₂ _ => ?_
  refine (maintains_publishNewKey hw₂).bind ?_
  rintro ⟨newKeyId, stored⟩ w₃ hw₃ ⟨hfile, hact, hops⟩
  refine (Maintains.ofExcept hw₃).bind fun rotating w₄ hw₄ ⟨h₄, hrot⟩ => ?_
  refine (maintains_silent hw₄).bind fun _ w₅ hw₅ h₅ => ?_
  refine (maintains_silent hw₅).bind fun _ w₆ hw₆ h₆ => ?_
  have htou : Untouched w₃ w₆ := (h₄ ▸ h₅).trans h₆
  rw [← htou.1] at hfile
  rw [← htou.2] at hops
  have hholds := holds_of_fromStored hrot
  refine (maintains_moveSecrets hholds hw₆ hfile hops).bind fun _ w₇ hw₇ ⟨_, hmoved⟩ => ?_
  have hops' : OpensAll lib original stored w₇.db :=
    ⟨hops.valid, fun column row hrow => (hmoved column row hrow).2⟩
  have hretained := hops'.retain fun column row hrow => (hmoved column row hrow).1
  rw [← show newKeyId = stored.activeKeyId from hact] at hretained
  exact (maintains_writeKeyringAtomic hw₇ hretained).mono fun _ _ _ _ => trivial

theorem Kept.next (h : Kept lib original start w) (event : RotationEvent) :
    Kept lib original start (event.next lib w) := by
  cases event with
  | rotate env =>
    exact (maintains_rotateDatabase h).state
  | powerLoss mask => exact h.powerLoss mask

theorem Kept.run (h : Kept lib original start w) (events : List RotationEvent) :
    Kept lib original start (History.state (RotationEvent.next lib) w events) :=
  History.state_invariant (fun _ event h => h.next event) h events

theorem Kept.readable (h : Kept lib original start w) :
    Readable lib original w.keyringFile w.db :=
  readable_iff.mpr (h.opens _ w.file.view_mem_contents)

/-- Whatever happens to the rotations of a database, no secret is lost: after any number of
runs and power losses the rows are the ones of the start, and what the keyring file holds,
now or after one more power loss, decrypts each to its original plaintext. -/
theorem rotations_keep_secrets (lib : Libraries) (original : SecretColumn → String → List UInt8)
    (w : SecretsWorld) (hdurable : w.file.log = [])
    (hreadable : Readable lib original w.keyringFile w.db) (events : List RotationEvent) :
    let w' := History.state (RotationEvent.next lib) w events
    (∀ column, (w'.db.table column).rows.map SecretRow.stableId =
        (w.db.table column).rows.map SecretRow.stableId) ∧
      Readable lib original w'.keyringFile w'.db ∧
      ∀ mask, Readable lib original (w'.powerLoss mask).keyringFile (w'.powerLoss mask).db := by
  have hsta : Kept lib original w.db w := by
    refine ⟨fun file hfile => ?_, fun _ => rfl⟩
    rw [contents, hdurable, List.map_nil, List.mem_singleton] at hfile
    have hview : w.keyringFile = w.file.base := by
      rw [SecretsWorld.keyringFile, view, hdurable]
      rfl
    rw [hview] at hreadable
    rw [hfile]
    exact readable_iff.mp hreadable
  have hend := hsta.run events
  exact ⟨hend.stableIds, hend.readable, fun mask => (hend.powerLoss mask).readable⟩

/-- A cipher whose tag is the beginning of the key. -/
def tagLibraries : Libraries where
  encrypt := fun key _ message _ => some (message ++ (key ++ List.replicate 16 0).take 16)
  decrypt := fun key _ ciphertext _ =>
    if ciphertext.drop (ciphertext.length - 16) = (key ++ List.replicate 16 0).take 16 then
      some (ciphertext.take (ciphertext.length - 16))
    else none
  toLowercase := String.toLower
  decrypt_encrypt := by
    intro key nonce message aad ciphertext h
    cases h
    simp
  length_encrypt := by
    intro key nonce message aad ciphertext h
    cases h
    simp

def onlyKey : StoredKeyring := ⟨1, 1, ⟨[⟨1, .ok (List.replicate 32 7)⟩], by decide⟩⟩

/-- A share token and the TOTP secret of an administrator under the only key. -/
def twoSecrets : SecretsWorld where
  file := ⟨some onlyKey, []⟩
  db := ⟨fun
    | .shareToken => ⟨[⟨"h", 1, List.replicate 24 0 ++ [5] ++ List.replicate 16 7⟩], by decide⟩
    | .adminTotp => ⟨[⟨"Root", 1, List.replicate 24 0 ++ [6] ++ List.replicate 16 7⟩], by decide⟩
    | .enrollmentTotp => ∅⟩
  clock := 0

/-- A rotation that loses the power at the given time. -/
def rotationUntil (time : ℕ) (mask : List Bool) : RotationEnvironment where
  disturbance := fun t => if t = time then .powerLoss mask else .proceeds
  key := fun _ => Vector.replicate keyBytes 9
  nonce := fun t => Vector.replicate nonceBytes (UInt8.ofNat t)

/-- The first rotation loses the power, and with it the rename that dropped the old key; the
second one runs to its end. -/
def rotatedTwice : List RotationEvent :=
  [.rotate (rotationUntil 29 [false]), .rotate (rotationUntil 100 [])]

theorem rotations_keep_secrets_rotatedTwice :
    let original : SecretColumn → String → List UInt8 := fun column _ =>
      if column = .shareToken then [5] else [6]
    let w' := History.state (RotationEvent.next tagLibraries) twoSecrets rotatedTwice
    Readable tagLibraries original twoSecrets.keyringFile twoSecrets.db ∧
      w'.keyringFile.map (fun stored => stored.keys.rows.map StoredKey.id) = some [3] ∧
      (w'.db.table .adminTotp).rows.map (fun row => (row.stableId, row.keyId)) = [("Root", 3)] ∧
      Readable tagLibraries original w'.keyringFile w'.db := by
  intro original w'
  have hreadable : Readable tagLibraries original twoSecrets.keyringFile twoSecrets.db := by
    refine ⟨onlyKey, ⟨1, ⟨[⟨1, List.replicate 32 7⟩], by decide⟩⟩, rfl, by decide +kernel, ?_⟩
    intro column
    cases column <;> decide +kernel
  exact ⟨hreadable, by decide +kernel, by decide +kernel,
    (rotations_keep_secrets tagLibraries original twoSecrets rfl hreadable rotatedTwice).2.1⟩

end Rotations

end VaultLink
