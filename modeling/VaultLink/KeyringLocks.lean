import VaultLink.KeyringHost
import VaultLink.KeyringRotation

/-!
# A keyring in use is the one in the file

A rotation that gets the exclusive lock while an `open` converts its own drops the keys that
`open` is about to return. Where no rotation works on the file meanwhile, the file stays what that
`open` has read until it has the shared lock, and then no rotation is under way: every keyring in
use is the one of the file. The file then opens every secret that was stored with such a keyring.
-/
namespace VaultLink

open KeyringFile
open Keyring
open Function
open KeyringProcess
open VaultLink.Action (Maintains)

variable {stage : KeyringProcess} {stored : StoredKeyring} {w : SecretsWorld}

section Locking

variable {ι : Type} [DecidableEq ι] {lib : Libraries} {s : KeyringHost ι} {p : ι}

/-- What the file is as long as the process is in its stage. -/
def KeyringProcess.AgreesWith (file : KeyringFile) : KeyringProcess → Prop
  | openCreating _ => file = .missing
  | openConverting stored | openLoading stored => file = .stored stored
  | opened keyring => ∃ stored, file = .stored stored ∧ fromStored stored = .ok keyring
  | _ => True

theorem KeyringProcess.agreesWith_of_unlocked {process : KeyringProcess}
    (h : process.holds = none) (hconv : process.converting = false) (file : KeyringFile) :
    process.AgreesWith file := by
  cases process <;> trivial

theorem KeyringProcess.holds_of_not_running {process : KeyringProcess}
    (h : process.running = false) : process.holds = none := by
  cases process with
  | idle | failed error => rfl
  | _ => cases h

theorem KeyringProcess.agreesWith_of_not_running {process : KeyringProcess}
    (h : process.running = false) (file : KeyringFile) : process.AgreesWith file := by
  cases process with
  | idle | failed error => trivial
  | _ => cases h

/-- The lock excludes, and every process agrees with the file. -/
structure Orderly (s : KeyringHost ι) : Prop where
  exclusion : LockMode.Exclusion s.held
  agrees : ∀ p, (s.process p).AgreesWith s.file

omit [DecidableEq ι] in
/-- A process in its stage has the lock of the stage. -/
theorem KeyringHost.held_of_process (hp : s.process p = stage) : s.held p = stage.holds := by
  rw [held, hp]

omit [DecidableEq ι] in
theorem Orderly.agrees_of_process (h : Orderly s) (hp : s.process p = stage) :
    stage.AgreesWith s.file :=
  hp ▸ h.agrees p

/-- One process enters a stage, and may leave another file and database behind. -/
theorem Orderly.enter {t : KeyringHost ι} (hpro : t.process = update s.process p stage)
    (hexclusion : LockMode.Exclusion (update s.held p stage.holds))
    (hagrees : stage.AgreesWith t.file) (hothers : ∀ q, q ≠ p → (s.process q).AgreesWith t.file) :
    Orderly t where
  exclusion := by
    have hheld : t.held = update s.held p stage.holds := by
      funext q
      rw [KeyringHost.held, hpro]
      exact apply_update (fun _ => holds) s.process p stage q
    rwa [hheld]
  agrees := by
    intro q
    rw [hpro]
    by_cases hq : q = p
    · rwa [hq, update_self]
    · rw [update_of_ne hq]
      exact hothers q hq

/-- A stage without a lock may be entered whenever it agrees with the file. -/
theorem Orderly.leave (h : Orderly s) (hlock : stage.holds = none)
    (hagrees : stage.AgreesWith s.file) : Orderly (s.set p stage) := by
  refine .enter rfl ?_ hagrees fun q _ => h.agrees q
  rw [hlock]
  exact h.exclusion.release p

/-- The holder of the exclusive lock enters a stage with the lock or without one, and may
replace the file by one that the others agree with. -/
theorem Orderly.proceed (h : Orderly s) (hp : s.held p = some .exclusive) {t : KeyringHost ι}
    (hpro : t.process = update s.process p stage) (hstage : stage.holds ≠ some .shared)
    (hagrees : stage.AgreesWith t.file) (hothers : ∀ q, q ≠ p → (s.process q).AgreesWith t.file) :
    Orderly t := by
  refine .enter hpro ?_ hagrees hothers
  have hgr : LockMode.Grantable s.held p .exclusive := h.exclusion p hp
  cases hholds : stage.holds with
  | none => exact h.exclusion.release p
  | some mode =>
    cases mode with
    | shared => exact absurd hholds hstage
    | exclusive => exact h.exclusion.grant hgr

variable {env : RotationEnvironment}

/-- A rule for stages: what holds wherever the action may leave the host. -/
theorem KeyringHost.act_induction {α : Type} {I : SecretsWorld → Prop} {Q : α → SecretsWorld → Prop}
    {P : KeyringHost ι → Prop} {action : RotationM α} {next : α → KeyringProcess}
    (h : Maintains I action env s.world Q)
    (hok : ∀ value w, I w → Q value w → P (s.after p w (next value)))
    (hend : ∀ w stage, I w → stage.running = false → P (s.after p w stage)) :
    P (s.act p action env next) := by
  unfold Maintains Action.Meets at h
  unfold act
  cases hout : action env s.world with
  | ok value w =>
    rw [hout] at h
    exact hok value w h.1 h.2
  | err error w | crash w =>
    rw [hout] at h
    exact hend w _ h rfl

theorem keyringFile_of_contents (h : w.file.contents = [some stored]) :
    w.keyringFile = some stored :=
  List.mem_singleton.mp (h ▸ w.file.view_mem_contents)

theorem maintains_true {α : Type} {action : RotationM α} :
    Maintains (fun _ => True) action env w fun _ _ => True := by
  unfold Maintains Action.Meets
  cases action env w with
  | ok => exact ⟨trivial, trivial⟩
  | err => trivial
  | crash => trivial

namespace Orderly

variable (h : Orderly s)

include h

/-- The holder of the exclusive lock may replace the file where no `open` converts its lock. -/
theorem act (hp : s.held p = some .exclusive) (hconv : ∀ q, (s.process q).converting = false)
    {α : Type} {action : RotationM α} {next : α → KeyringProcess} {I : SecretsWorld → Prop}
    {Q : α → SecretsWorld → Prop} (hact : Maintains I action env s.world Q)
    (hnext : ∀ value w, Q value w → (next value).holds ≠ some .shared ∧
      (next value).AgreesWith (s.file.replaced w.keyringFile)) :
    Orderly (s.act p action env next) := by
  have hothers : ∀ file q, q ≠ p → (s.process q).AgreesWith file :=
    fun file q hq => agreesWith_of_unlocked (h.exclusion p hp q hq) (hconv q) file
  refine KeyringHost.act_induction hact (fun value w _ hw => ?_) fun w stage _ hstage => ?_
  · exact h.proceed hp rfl (hnext value w hw).1 (hnext value w hw).2 (hothers _)
  · exact h.proceed hp rfl (by simp [holds_of_not_running hstage])
      (agreesWith_of_not_running hstage _) (hothers _)

/-- Nobody has read a file that is missing. -/
theorem create (hp : s.process p = .openCreating stored) (env : RotationEnvironment) :
    Orderly (s.act p (writeKeyringAtomic stored) env fun _ => .openConverting stored) := by
  have hfile : s.file = .missing := h.agrees_of_process hp
  have hconv : ∀ q, (s.process q).converting = false := by
    intro q
    have hagrees := h.agrees q
    cases hq : s.process q with
    | openConverting read =>
      rw [hq, hfile] at hagrees
      cases hagrees
    | _ => rfl
  refine h.act (KeyringHost.held_of_process hp) hconv
    (replacing_writeKeyringAtomic s.world stored) fun _ w hcons => ⟨by simp [holds], ?_⟩
  rw [keyringFile_of_contents hcons]
  rfl

theorem read {creates : Bool} (hp : s.process p = .openReading creates)
    (key : Vector UInt8 keyBytes) : Orderly (s.set p (s.file.openStage creates key)) := by
  cases hfile : s.file with
  | stored => exact h.leave rfl hfile
  | invalid => exact h.leave rfl trivial
  | missing =>
    cases creates with
    | false => exact h.leave rfl trivial
    | true =>
      exact h.proceed (KeyringHost.held_of_process hp) rfl (by simp [openStage, holds]) hfile
        fun q _ => h.agrees q

theorem load {keyring : Keyring} (hp : s.process p = .openLoading stored)
    (hkeyr : fromStored stored = .ok keyring) : Orderly (s.set p (.opened keyring)) := by
  have hagrees : s.file = .stored stored := h.agrees_of_process hp
  refine .enter rfl ?_ ⟨stored, hagrees, hkeyr⟩ fun q _ => h.agrees q
  have hheld : s.held p = some .shared := KeyringHost.held_of_process hp
  rw [show (opened keyring).holds = s.held p from hheld.symm, update_eq_self]
  exact h.exclusion

theorem work (p : ι) (env : RotationEnvironment)
    (hspares : (s.process p).rotates = true → ∀ q, (s.process q).converting = false) :
    Orderly (s.work lib p env) := by
  have hrotate : ∀ {α : Type} {action : RotationM α} {next : α → KeyringProcess},
      (s.process p).rotates = true → (∀ value, (next value).holds ≠ some .shared ∧
        ∀ file, (next value).AgreesWith file) → Orderly (s.act p action env next) := by
    intro α action next hp hnext
    have hheld : s.held p = some .exclusive := by
      unfold KeyringHost.held
      cases hpro : s.process p <;> first | rfl | (rw [hpro] at hp; cases hp)
    exact h.act hheld (hspares hp) maintains_true fun value _ _ =>
      ⟨(hnext value).1, (hnext value).2 _⟩
  unfold KeyringHost.work
  cases hp : s.process p with
  | openReading => exact h.read hp _
  | openCreating => exact h.create hp env
  | openLoading stored =>
    dsimp only
    cases hkeyr : fromStored stored with
    | ok => exact h.load hp hkeyr
    | error => exact h.leave rfl trivial
  | rotatePublishing =>
    dsimp only
    cases s.file with
    | missing | invalid error => exact h.leave rfl trivial
    | stored => exact hrotate (by rw [hp]; rfl) fun _ => ⟨by simp [holds], fun _ => trivial⟩
  | rotateMoving newKeyId stored =>
    dsimp only
    cases fromStored stored with
    | ok => exact hrotate (by rw [hp]; rfl) fun _ => ⟨by simp [holds], fun _ => trivial⟩
    | error => exact h.leave rfl trivial
  | rotateRetaining => exact hrotate (by rw [hp]; rfl) fun _ => ⟨by simp [holds], fun _ => trivial⟩
  | _ => exact h

end Orderly

end Locking

section Runs

variable {ι : Type} [DecidableEq ι] [Fintype ι] {lib : Libraries} {s : KeyringHost ι} {p : ι}

/-- No rotation works on the file while an `open` is between its exclusive and its shared lock. -/
def SparesConversions (s : KeyringHost ι) : KeyringEvent ι → Prop
  | .work p _ => (s.process p).rotates = true → ∀ q, (s.process q).converting = false
  | _ => True

instance (s : KeyringHost ι) (event : KeyringEvent ι) : Decidable (SparesConversions s event) :=
  match event with
  | .work _ _ => inferInstanceAs (Decidable (_ → ∀ _, _))
  | .startOpen _ _ | .startRotation _ | .grant _ | .store _ _ _ _ _ | .exit _ => isTrue trivial

namespace Orderly

theorem grant (h : Orderly s) : Orderly (s.next lib (.grant p)) := by
  unfold KeyringHost.next
  dsimp only
  cases hp : s.process p with
  | openQueued | rotateQueued =>
    dsimp only [request]
    split
    · rename_i hgr
      exact .enter rfl (h.exclusion.grant hgr) trivial fun q _ => h.agrees q
    · exact h
  | openConverting stored =>
    dsimp only [request]
    split
    · rename_i hgr
      have hfile : s.file = .stored stored := h.agrees_of_process hp
      exact .enter rfl (h.exclusion.grant hgr) hfile fun q _ => h.agrees q
    · exact h
  | _ => exact h

omit [DecidableEq ι] [Fintype ι] in
theorem store (h : Orderly s) (column : SecretColumn) (stableId : String)
    (plaintext : List UInt8) (nonce : Vector UInt8 nonceBytes) :
    Orderly (s.store lib p column stableId plaintext nonce) := by
  unfold KeyringHost.store
  split
  · split
    · exact h
    · exact ⟨h.exclusion, h.agrees⟩
  · exact h

theorem next (h : Orderly s) {event : KeyringEvent ι} (hspares : SparesConversions s event) :
    Orderly (s.next lib event) := by
  cases event with
  | startOpen | startRotation =>
    unfold KeyringHost.next
    dsimp only
    split
    · exact h
    · exact h.leave rfl trivial
  | grant => exact h.grant
  | work p env => exact h.work p env hspares
  | store p column stableId plaintext nonce => exact h.store column stableId plaintext nonce
  | exit => exact h.leave rfl trivial

omit [DecidableEq ι] [Fintype ι] in
theorem of_idle (hidle : ∀ p, (s.process p).running = false) : Orderly s where
  exclusion := fun p hp => by
    rw [KeyringHost.held, holds_of_not_running (hidle p)] at hp
    cases hp
  agrees := fun p => agreesWith_of_not_running (hidle p) _

end Orderly

end Runs

section Coverage

variable {ι : Type} [DecidableEq ι] {lib : Libraries} {s : KeyringHost ι} {p : ι}

/-- What a process relies on to leave every secret readable. -/
def KeyringProcess.OnCourse (file : KeyringFile) (db : SecretStore) : KeyringProcess → Prop
  | openCreating stored => stored.Valid
  | rotateMoving newKeyId stored => file = .stored stored ∧ newKeyId = stored.activeKeyId
  | rotateRetaining newKeyId stored =>
    file = .stored stored ∧ newKeyId = stored.activeKeyId ∧
      ∀ column, ∀ row ∈ db.table column, row.keyId = newKeyId
  | _ => True

theorem KeyringProcess.onCourse_of_holds {process : KeyringProcess}
    (h : process.holds ≠ some .exclusive) (file : KeyringFile) (db : SecretStore) :
    process.OnCourse file db := by
  cases process <;> trivial

/-- A row encrypted with a key of the file takes the place of the one with its id. -/
theorem OpensAll.upsert {original : SecretColumn → String → List UInt8} {db : SecretStore}
    (h : OpensAll lib original stored db) {keyId : ℕ} {key ciphertext plaintext : List UInt8}
    {column : SecretColumn} {stableId : String} (hkey : ⟨keyId, .ok key⟩ ∈ stored.keys)
    (hopened : OpensWith lib key ciphertext (column.associatedData lib stableId) plaintext) :
    OpensAll lib
      (update original column (update (original column) stableId plaintext))
      stored
      ⟨update db.table column
        ((db.table column).upsert ⟨stableId, keyId, ciphertext⟩)⟩ := by
  refine ⟨h.valid, fun column' row hrow => ?_⟩
  unfold OpensRow
  by_cases hcolumn : column' = column
  · subst hcolumn
    simp only [update_self] at hrow ⊢
    obtain rfl | ⟨hold, hne⟩ := KeyedTable.mem_upsert.mp hrow
    · rw [update_self]
      exact ⟨key, hkey, hopened⟩
    · have hid : row.stableId ≠ stableId := by
        intro hid
        exact hne (congrArg column'.collate hid)
      rw [update_of_ne hid]
      exact h.opens column' row hold
  · simp only [update_of_ne hcolumn] at hrow ⊢
    exact h.opens column' row hrow

variable (lib) in
/-- The file opens every secret, or there is no keyring and no secret. -/
structure SecretsCovered (s : KeyringHost ι) : Prop where
  opens : ∀ stored, s.file = .stored stored → OpensAll lib s.plaintexts stored s.db
  empty : s.file.content = none → ∀ column row, row ∉ s.db.table column
  course : ∀ p, (s.process p).OnCourse s.file s.db

namespace SecretsCovered

omit [DecidableEq ι] in
theorem course_of_process (h : SecretsCovered lib s) (hp : s.process p = stage) :
    stage.OnCourse s.file s.db :=
  hp ▸ h.course p

theorem set (h : SecretsCovered lib s) (hstage : stage.OnCourse s.file s.db) :
    SecretsCovered lib (s.set p stage) := by
  refine ⟨h.opens, h.empty, fun q => ?_⟩
  show (update s.process p stage q).OnCourse s.file s.db
  by_cases hq : q = p
  · rwa [hq, update_self]
  · rw [update_of_ne hq]
    exact h.course q

theorem stay (h : SecretsCovered lib s) (hstage : stage.holds ≠ some .exclusive) :
    SecretsCovered lib (s.set p stage) :=
  h.set (onCourse_of_holds hstage _ _)

omit [DecidableEq ι] in
theorem kept (h : SecretsCovered lib s) (hfile : s.file = .stored stored) :
    Kept lib s.plaintexts s.db s.world := by
  refine ⟨fun content hcon => ⟨stored, ?_, h.opens stored hfile⟩, fun _ => rfl⟩
  rw [List.mem_singleton.mp (show content ∈ [s.file.content] from hcon), hfile]
  rfl

/-- The other processes of an exclusive holder are on course whatever it does. -/
theorem course_after (hord : Orderly s) (hp : s.held p = some .exclusive) {file : KeyringFile}
    {db : SecretStore} (hstage : stage.OnCourse file db) (q : ι) :
    (update s.process p stage q).OnCourse file db := by
  by_cases hq : q = p
  · rwa [hq, update_self]
  · rw [update_of_ne hq]
    refine onCourse_of_holds ?_ file db
    rw [show (s.process q).holds = none from hord.exclusion p hp q hq]
    simp

theorem after (hord : Orderly s) (hp : s.held p = some .exclusive) {start : SecretStore}
    (hw : Kept lib s.plaintexts start w)
    (hstage : ∀ stored, w.keyringFile = some stored → stage.OnCourse (.stored stored) w.db) :
    SecretsCovered lib (s.after p w stage) := by
  obtain ⟨stored, hview, hops⟩ := hw.opens _ w.file.view_mem_contents
  have hfile : (s.after p w stage).file = .stored stored := by
    show s.file.replaced w.keyringFile = .stored stored
    rw [show w.keyringFile = some stored from hview]
    rfl
  refine ⟨?_, ?_, ?_⟩
  · rintro stored' hstored'
    rw [hfile] at hstored'
    cases hstored'
    exact hops
  · rw [hfile]
    rintro ⟨⟩
  · rw [hfile]
    exact course_after hord hp (hstage stored hview)

theorem release (hord : Orderly s) (hp : s.held p = some .exclusive) {start : SecretStore}
    (hw : Kept lib s.plaintexts start w) (hstage : stage.holds = none) :
    SecretsCovered lib (s.after p w stage) := by
  refine after hord hp hw fun _ _ => onCourse_of_holds ?_ _ _
  simp [hstage]

/-- Where there was no keyring there was no secret, so that a new key locks none. -/
theorem create (h : SecretsCovered lib s) (hord : Orderly s)
    (hp : s.process p = .openCreating stored) (env : RotationEnvironment) :
    SecretsCovered lib
      (s.act p (writeKeyringAtomic stored) env fun _ => .openConverting stored) := by
  have hheld : s.held p = some .exclusive := KeyringHost.held_of_process hp
  have hfile : s.file = .missing := hord.agrees_of_process hp
  have hvalid : stored.Valid := h.course_of_process hp
  have hemp := h.empty (by rw [hfile]; rfl)
  have hend : ∀ w stage, Replacing s.world stored w → stage.holds = none →
      SecretsCovered lib (s.after p w stage) := by
    intro w stage hw hstage
    have hops : ∀ column row, row ∉ w.db.table column := by
      rw [hw.db]
      exact hemp
    refine ⟨fun stored' hstored' => ⟨?_, fun column row hrow => absurd hrow (hops column row)⟩,
      fun _ => hops, course_after hord hheld
        (onCourse_of_holds (by simp [hstage]) _ _)⟩
    have hreplaced : s.file.replaced w.keyringFile = .stored stored' := hstored'
    obtain hold | hnew := hw.contents _ w.file.view_mem_contents
    · have hnone : w.file.view WriteBack.overwrite = none := by
        simpa [KeyringHost.world, WriteBack.contents, hfile, content] using hold
      rw [SecretsWorld.keyringFile, hnone, hfile] at hreplaced
      cases hreplaced
    · rw [show w.keyringFile = some stored from hnew] at hreplaced
      cases hreplaced
      exact hvalid
  exact KeyringHost.act_induction (replacing_writeKeyringAtomic s.world stored)
    (fun _ w hw _ => hend w _ hw rfl)
    fun w stage hw hstage => hend w stage hw (holds_of_not_running hstage)

theorem publish (h : SecretsCovered lib s) (hord : Orderly s)
    (hp : s.process p = .rotatePublishing) (hfile : s.file = .stored stored)
    (env : RotationEnvironment) :
    SecretsCovered lib (s.act p publishNewKey env fun (newKeyId, stored) =>
      .rotateMoving newKeyId stored) := by
  have hheld : s.held p = some .exclusive := KeyringHost.held_of_process hp
  refine KeyringHost.act_induction (maintains_publishNewKey (h.kept hfile)) ?_ ?_
  · rintro ⟨newKeyId, published⟩ w hw ⟨hcons, hact, _⟩
    refine after hord hheld hw fun current hcur => ⟨?_, hact⟩
    cases hcur.symm.trans (keyringFile_of_contents hcons)
    rfl
  · intro w stage hw hstage
    exact release hord hheld hw (holds_of_not_running hstage)

theorem move (h : SecretsCovered lib s) (hord : Orderly s) {newKeyId : ℕ}
    (hp : s.process p = .rotateMoving newKeyId stored) {rotating : Keyring}
    (hrota : fromStored stored = .ok rotating) (env : RotationEnvironment) :
    SecretsCovered lib (s.act p (moveSecrets lib rotating) env fun _ =>
      .rotateRetaining newKeyId stored) := by
  have hheld : s.held p = some .exclusive := KeyringHost.held_of_process hp
  obtain ⟨hfile, hact⟩ : s.file = .stored stored ∧ newKeyId = stored.activeKeyId :=
    h.course_of_process hp
  have hcons : s.world.file.contents = [some stored] := by
    simp [KeyringHost.world, WriteBack.contents, hfile, content]
  refine KeyringHost.act_induction
    (maintains_moveSecrets (holds_of_fromStored hrota) (h.kept hfile) hcons
      (h.opens stored hfile)) ?_ ?_
  · rintro _ w hw ⟨hunt, hmoved⟩
    refine after hord hheld hw fun current hcur => ⟨?_, hact, fun column row hrow => ?_⟩
    · rw [SecretsWorld.keyringFile, hunt] at hcur
      cases hcur.symm.trans (keyringFile_of_contents hcons)
      rfl
    · rw [hact]
      exact (hmoved column row hrow).1
  · intro w stage hw hstage
    exact release hord hheld hw (holds_of_not_running hstage)

theorem retain (h : SecretsCovered lib s) (hord : Orderly s) {newKeyId : ℕ}
    (hp : s.process p = .rotateRetaining newKeyId stored) (env : RotationEnvironment) :
    SecretsCovered lib
      (s.act p (writeKeyringAtomic (stored.retain newKeyId)) env fun _ => .idle) := by
  have hheld : s.held p = some .exclusive := KeyringHost.held_of_process hp
  obtain ⟨hfile, hact, hrows⟩ : s.file = .stored stored ∧ newKeyId = stored.activeKeyId ∧
      ∀ column, ∀ row ∈ s.db.table column, row.keyId = newKeyId := h.course_of_process hp
  rw [hact] at hrows ⊢
  have hretained := (h.opens stored hfile).retain hrows
  refine KeyringHost.act_induction (maintains_writeKeyringAtomic (h.kept hfile) hretained)
    (fun _ w hw _ => release hord hheld hw rfl) ?_
  intro w stage hw hstage
  exact release hord hheld hw (holds_of_not_running hstage)

theorem newStoredKeyring_valid (key : Vector UInt8 keyBytes) : (newStoredKeyring key).Valid where
  version := rfl
  active := ⟨⟨1, .ok key.toList⟩, KeyedTable.mem_upsert.mpr (.inl rfl), rfl⟩
  decodes := by
    intro entry hent
    obtain rfl | ⟨hent, _⟩ := KeyedTable.mem_upsert.mp hent
    · exact ⟨key.toList, rfl, Vector.length_toList⟩
    · exact absurd hent (KeyedTable.not_mem_empty entry)

theorem openStage_onCourse (file : KeyringFile) (creates : Bool) (key : Vector UInt8 keyBytes)
    (db : SecretStore) : (file.openStage creates key).OnCourse file db := by
  cases file with
  | stored keyring | invalid error => trivial
  | missing =>
    cases creates with
    | false => trivial
    | true => exact newStoredKeyring_valid key

theorem work (h : SecretsCovered lib s) (hord : Orderly s) (p : ι) (env : RotationEnvironment) :
    SecretsCovered lib (s.work lib p env) := by
  unfold KeyringHost.work
  cases hp : s.process p with
  | openReading => exact h.set (openStage_onCourse _ _ _ _)
  | openCreating => exact h.create hord hp env
  | openLoading stored =>
    dsimp only
    cases fromStored stored <;> exact h.stay (by simp [holds])
  | rotatePublishing =>
    dsimp only
    cases hfile : s.file with
    | missing | invalid error => exact h.stay (by simp [holds])
    | stored => exact h.publish hord hp hfile env
  | rotateMoving newKeyId stored =>
    dsimp only
    cases hrota : fromStored stored with
    | ok => exact h.move hord hp hrota env
    | error => exact h.stay (by simp [holds])
  | rotateRetaining => exact h.retain hord hp env
  | _ => exact h

omit [DecidableEq ι] in
/-- A keyring in use is the one in the file, which therefore opens what is stored with it. -/
theorem store (h : SecretsCovered lib s) (hord : Orderly s) (column : SecretColumn)
    (stableId : String) (plaintext : List UInt8) (nonce : Vector UInt8 nonceBytes) :
    SecretsCovered lib (s.store lib p column stableId plaintext nonce) := by
  unfold KeyringHost.store
  split
  · rename_i keyring hp
    split
    · exact h
    · rename_i keyId ciphertext hencrypt
      obtain ⟨stored, hfile, hkeyr⟩ : ∃ stored, s.file = .stored stored ∧
          fromStored stored = .ok keyring := hord.agrees_of_process hp
      obtain ⟨_, key, hkey, hopened⟩ :=
        encrypt_ok (holds_of_fromStored hkeyr) hencrypt
      have hops := h.opens stored hfile
      refine ⟨?_, ?_, ?_⟩
      · intro stored' hstored'
        rw [show s.file = .stored stored' from hstored'] at hfile
        cases hfile
        exact hops.upsert hkey hopened
      · intro hnone
        rw [show s.file.content = some stored by rw [hfile]; rfl] at hnone
        cases hnone
      · intro q
        have hcourse := h.course q
        cases hq : s.process q with
        | rotateRetaining =>
          have hne : p ≠ q := by
            rintro rfl
            cases hp.symm.trans hq
          have hnone := hord.exclusion q (KeyringHost.held_of_process hq) p hne
          rw [KeyringHost.held, hp] at hnone
          cases hnone
        | openCreating _ | rotateMoving _ _ =>
          rw [hq] at hcourse
          exact hcourse
        | _ => trivial
  · exact h

theorem next [Fintype ι] (h : SecretsCovered lib s) (hord : Orderly s)
    (event : KeyringEvent ι) : SecretsCovered lib (s.next lib event) := by
  cases event with
  | startOpen p creates | startRotation p =>
    unfold KeyringHost.next
    dsimp only
    split
    · exact h
    · exact h.stay (by simp [holds])
  | grant p =>
    unfold KeyringHost.next
    dsimp only
    split
    · rename_i mode stage hreq
      split
      · refine h.set ?_
        cases hp : s.process p <;> rw [hp] at hreq <;> cases hreq <;> trivial
      · exact h
    · exact h
  | work p env => exact h.work hord p env
  | store p column stableId plaintext nonce =>
    exact h.store hord column stableId plaintext nonce
  | exit => exact h.stay (by simp [holds])

end SecretsCovered

end Coverage

section Results

variable {ι : Type} [DecidableEq ι] [Fintype ι] (lib : Libraries)

/-- The keyring file decrypts every secret, or there is neither a keyring nor a secret. -/
def KeyringHost.Readable (s : KeyringHost ι) : Prop :=
  VaultLink.Readable lib s.plaintexts s.file.content s.db ∨
    s.file.content = none ∧ ∀ column row, row ∉ s.db.table column

/-- The keyring that `open` returned is in the file: its active id, the bytes of each of its
keys, and whatever it encrypts decrypts with what the file holds. -/
def InFile (keyring : Keyring) (file : KeyringFile) : Prop :=
  ∃ stored, file = .stored stored ∧
    (∃ entry ∈ stored.keys, entry.id = keyring.activeKeyId) ∧
    (∀ entry ∈ keyring.keys, ⟨entry.id, .ok entry.key⟩ ∈ stored.keys) ∧
    ∀ nonce plaintext aad keyId ciphertext,
      keyring.encrypt lib nonce plaintext aad = .ok (keyId, ciphertext) →
        ∃ current, fromStored stored = .ok current ∧
          current.decrypt lib keyId ciphertext aad = .ok plaintext

variable {lib} {s : KeyringHost ι}

omit [DecidableEq ι] [Fintype ι] in
theorem Orderly.inFile (h : Orderly s) {p : ι} {keyring : Keyring}
    (hp : s.process p = .opened keyring) : InFile lib keyring s.file := by
  obtain ⟨stored, hfile, hkeyr⟩ : ∃ stored, s.file = .stored stored ∧
      fromStored stored = .ok keyring := h.agrees_of_process hp
  have hvalid := valid_of_fromStored hkeyr
  have hholds := holds_of_fromStored hkeyr
  refine ⟨stored, hfile, ?_, fun entry hent => (hholds.mem_iff entry).mp hent, ?_⟩
  · rw [hholds.active]
    exact hvalid.active
  · intro nonce plaintext aad keyId ciphertext hencrypt
    exact ⟨keyring, hkeyr,
      (decrypt_ok_iff hholds hvalid).mpr (encrypt_ok hholds hencrypt).2⟩

omit [DecidableEq ι] [Fintype ι] in
theorem SecretsCovered.of_readable (hidle : ∀ p, (s.process p).running = false)
    (h : s.Readable lib) : SecretsCovered lib s := by
  have hcourse : ∀ p, (s.process p).OnCourse s.file s.db := fun p =>
    onCourse_of_holds (by simp [holds_of_not_running (hidle p)]) _ _
  obtain hreadable | ⟨hnone, hemp⟩ := h
  · obtain ⟨stored, hcon, hops⟩ := readable_iff.mp hreadable
    refine ⟨fun stored' hstored' => ?_, fun hnone => ?_, hcourse⟩
    · rw [hstored'] at hcon
      cases hcon
      exact hops
    · rw [hnone] at hcon
      cases hcon
  · refine ⟨fun stored hstored => ?_, fun _ => hemp, hcourse⟩
    rw [hstored] at hnone
    cases hnone

omit [DecidableEq ι] [Fintype ι] in
theorem SecretsCovered.readable (h : SecretsCovered lib s) : s.Readable lib := by
  cases hfile : s.file with
  | missing | invalid error =>
    have hnone : s.file.content = none := by rw [hfile]; rfl
    exact .inr ⟨hnone, h.empty hnone⟩
  | stored stored =>
    exact .inl (readable_iff.mpr ⟨stored, by rw [hfile]; rfl, h.opens stored hfile⟩)

/-- In every run in which no rotation works on the file while an `open` converts its lock, a
keyring that is in use is in the file, and the file keeps decrypting every secret. -/
theorem opened_keyrings_are_in_the_file (lib : Libraries) (s : KeyringHost ι)
    (hidle : ∀ p, (s.process p).running = false) (history : List (KeyringEvent ι))
    (hspares : History.Throughout (KeyringHost.next lib) SparesConversions s history) :
    let t := History.state (KeyringHost.next lib) s history
    (∀ p keyring, t.process p = .opened keyring → InFile lib keyring t.file) ∧
      (s.Readable lib → t.Readable lib) := by
  intro t
  have hord : Orderly t :=
    hspares.invariant (fun _ _ hspares h => h.next hspares) (Orderly.of_idle hidle)
  refine ⟨fun p keyring hp => hord.inFile hp, fun hreadable => ?_⟩
  have hboth : Orderly t ∧ SecretsCovered lib t :=
    hspares.invariant (P := fun t => Orderly t ∧ SecretsCovered lib t)
      (fun _ event hspares h => ⟨h.1.next hspares, h.2.next h.1 event⟩)
      ⟨Orderly.of_idle hidle, SecretsCovered.of_readable hidle hreadable⟩
  exact hboth.2.readable

/-- A disturbance-free run of a stage. -/
def steadily : RotationEnvironment where
  disturbance := fun _ => .proceeds
  key := fun _ => Vector.replicate keyBytes 9
  nonce := fun t => Vector.replicate nonceBytes (UInt8.ofNat t)

/-- One key, no secret, and two processes that have not started. -/
def oneKey : KeyringHost Bool where
  file := .stored onlyKey
  db := ⟨fun _ => ∅⟩
  plaintexts := fun _ _ => []
  process := fun _ => .idle

/-- `open` in the first process, up to the conversion of its lock. -/
def opensUntilConversion : List (KeyringEvent Bool) :=
  [.startOpen false false, .grant false, .work false steadily]

/-- `open` goes on and a share token is stored. -/
def opensAndStores : List (KeyringEvent Bool) :=
  [.grant false, .work false steadily,
    .store false .shareToken "h" [5] (Vector.replicate nonceBytes 0)]

/-- A whole rotation in the second process. -/
def rotatesWholly : List (KeyringEvent Bool) :=
  [.startRotation true, .grant true, .work true steadily, .work true steadily,
    .work true steadily]

theorem opened_keyrings_are_in_the_file_opensAndStores :
    let history := opensUntilConversion ++ opensAndStores ++ [.exit false] ++ rotatesWholly ++
      opensUntilConversion ++ opensAndStores
    let t := History.state (KeyringHost.next tagLibraries) oneKey history
    t.process false = .opened ⟨2, ⟨[⟨2, List.replicate 32 9⟩], by decide⟩⟩ ∧
      InFile tagLibraries ⟨2, ⟨[⟨2, List.replicate 32 9⟩], by decide⟩⟩ t.file ∧
      t.Readable tagLibraries := by
  intro history t
  have hopened : t.process false = .opened ⟨2, ⟨[⟨2, List.replicate 32 9⟩], by decide⟩⟩ := by
    decide +kernel
  have hreadable : oneKey.Readable tagLibraries :=
    .inl ⟨_, ⟨1, ⟨[⟨1, List.replicate 32 7⟩], by decide⟩⟩, rfl, by decide +kernel,
      fun column row hrow => absurd hrow (KeyedTable.not_mem_empty row)⟩
  have hres := opened_keyrings_are_in_the_file tagLibraries oneKey (by decide) history
    (by decide +kernel)
  exact ⟨hopened, hres.1 false _ hopened, hres.2 hreadable⟩

/-- A rotation that gets the lock within the conversion drops the key that `open` has read.
The keyring is returned and in use, its active key is not in the file, and neither is the
key of the secret that was stored with it. -/
theorem rotation_strands_an_opened_keyring :
    let t := History.state (KeyringHost.next tagLibraries) oneKey
      (opensUntilConversion ++ rotatesWholly ++ opensAndStores)
    t.process false = .opened ⟨1, ⟨[⟨1, List.replicate 32 7⟩], by decide⟩⟩ ∧
      t.held false = some .shared ∧
      t.file = .stored ⟨1, 2, ⟨[⟨2, .ok (List.replicate 32 9)⟩], by decide⟩⟩ ∧
      (t.db.table .shareToken).rows.map (fun row => (row.stableId, row.keyId)) = [("h", 1)] ∧
      ¬t.Readable tagLibraries := by
  intro t
  have hfile : t.file = .stored ⟨1, 2, ⟨[⟨2, .ok (List.replicate 32 9)⟩], by decide⟩⟩ := by
    decide +kernel
  have hrow : (⟨"h", 1, List.replicate 24 0 ++ [5] ++ List.replicate 16 7⟩ : SecretRow) ∈
      t.db.table .shareToken := by
    decide +kernel
  refine ⟨by decide +kernel, by decide +kernel, hfile, by decide +kernel, ?_⟩
  rintro (⟨stored, keyring, hstored, _, hrows⟩ | ⟨_, hemp⟩)
  · obtain ⟨entry, hent, hid⟩ := (hrows .shareToken _ hrow).1
    rw [hfile] at hstored
    cases hstored
    cases List.mem_singleton.mp hent
    cases hid
  · exact hemp .shareToken _ hrow

end Results

end VaultLink
