import Mathlib.Data.List.Dedup
import VaultLink.RenameProtocol

/-!
# Renames are atomic

The request itself runs through the states of the rename, and a power loss anywhere leaves one
of them. However often recovery is interrupted after that, as soon as it returns the object is
under one of its two names and the shares say the same.
-/
namespace VaultLink

open WriteBack (replay survive settle flush)

namespace RenameCase

variable {c : RenameCase} {env : Environment} {w : World} {s : Store} {token : ℕ}

section Staging

/-- The transaction the rename is left with when its filesystem part is done. -/
def staged (c : RenameCase) (token : ℕ) : StagedRename :=
  { originalPath := c.oldPath, newPath := c.newPath, kind := c.kind, sourceIdentity := c.pair
    committed := false, parent := c.parent, originalName := c.oldName, newName := c.newName
    operationName := .operation token, commitStarted := false }

/-- What the filesystem part of the rename leads to. -/
def Staged (c : RenameCase) (s : Store) : RenameStageOutcome → World → Prop
  | .ready staged, w => ∃ token, staged = c.staged token ∧ c.files c.new = none ∧
      Stored w (withJournal c.moved token (c.journal .moved)) s
  | .publishedUncertain _ _ _, w => c.Reached w

/-- What the probes after the move find. -/
def Reconciled (c : RenameCase) (token : ℕ) (s : Store) :
    Option RenameStageOutcome → World → Prop
  | none, w => c.files c.new = none ∧
      Stored w (withJournal c.moved token (c.journal .intent)) s
  | some outcome, w => c.Staged s outcome w

theorem act_move_journal :
    Mutation.act (.move c.old c.new) (withJournal c.files token (c.journal .intent)) =
      withJournal c.moved token (c.journal .intent) := by
  simp only [Mutation.act, c.journaled_old]
  rw [withJournal, withJournal, moved, Function.update_comm (c.old_ne_staged _).symm,
    Function.update_comm (c.new_ne_staged _).symm]

variable (hT : Tolerated env)

include hT

theorem renameInDirectory_safe
    (hw : Stored w (withJournal c.files token (c.journal .intent)) s) (hbef : c.Before s) :
    Keeps env c.Class (renameInDirectory c.parent c.oldName c.newName) w
      (fun _ w' => c.files c.new = none ∧
        Stored w' (withJournal c.moved token (c.journal .intent)) s)
      (fun _ w' => Stored w' (withJournal c.files token (c.journal .intent)) s) := by
  have hclass : c.Class (withJournal c.files token (c.journal .intent)) s := .intent hbef
  refine (renameNoreplace_safe hT hw (covered_nil.mpr hclass) rfl rfl (by simp)).bind ?_
    fun _ _ h => h.1
  rintro - w₁ ⟨hw₁, hnew⟩
  have hnone : c.files c.new = none := (withJournal_of_ne (c.new_ne_staged _)).symm.trans hnew
  have htargets : [c.old.target, c.new.target].dedup = [.directory c.parent] :=
    List.dedup_cons_of_mem (List.mem_singleton.mpr rfl)
  have hw₁ : Holds Location.isTemporary w₁ (withJournal c.files token (c.journal .intent))
      [⟨.move c.old c.new, [.directory c.parent]⟩] s := htargets ▸ hw₁
  refine (bestEffort_safe ((syncDirectory_last hT hw₁ ⟨hclass, ?_⟩).mono
    (fun _ _ h => h) fun _ _ h => h.elim)).mono (fun _ w₂ hw₂ => ⟨hnone, ?_⟩) fun _ _ h => h.elim
  · exact act_move_journal ▸ .renamed hnone hbef
  · exact act_move_journal ▸ hw₂

/-- After the move the object is found under its new name. -/
theorem reconcileMoved_safe (hw : Stored w (withJournal c.moved token (c.journal .intent)) s)
    (hfree : c.files c.new = none) (hbef : c.Before s) :
    Keeps env c.Class (reconcileRenameResult c.parent c.oldName c.newName c.newPath c.pair
        c.kind (.operation token) (.ok ())) w
      (c.Reconciled token s) (fun _ w' => c.Reached w') := by
  refine (probe_safe hT hw (.renamed hfree hbef) c.parent c.newName).attempt ?_ fun _ _ h => h
  rintro _ w₁ ⟨rfl, hw₁⟩
  rw [show c.moved (.visible c.parent c.newName) = _ from c.moved_new, c.identityOf_entry]
  exact ⟨hfree, hw₁⟩

/-- After a refused move the object is found under its old name, and the journal goes. -/
theorem reconcileUnmoved_safe (hw : Stored w (withJournal c.files token (c.journal .intent)) s)
    (hbef : c.Before s) (error : IoError) :
    Keeps env c.Class (reconcileRenameResult c.parent c.oldName c.newName c.newPath c.pair
        c.kind (.operation token) (.error error)) w
      (c.Reconciled token s) (fun _ w' => c.Reached w') := by
  have hclass : c.Class (withJournal c.files token (c.journal .intent)) s := .intent hbef
  refine (probe_safe hT hw hclass c.parent c.newName).attempt ?_ fun _ _ h => h
  rintro destination w₁ ⟨-, hw₁⟩
  refine (probe_safe hT hw₁ hclass c.parent c.oldName).attempt ?_ fun _ _ h => h
  rintro _ w₂ ⟨rfl, hw₂⟩
  rw [show c.files (.visible c.parent c.oldName) = _ from c.entry, c.identityOf_entry]
  have hremove := removeJournal_safe hT hw₂ (c.files_journal token) hclass (.untouched hbef)
  cases destination <;>
    exact hremove.bind (fun _ w₃ hw₃ => ⟨_, s, hw₃, .untouched hbef⟩)
      fun _ w₃ h => ⟨_, s, h, hclass⟩

/-- The journal follows the object. -/
theorem recordMove_safe (hw : Stored w (withJournal c.moved token (c.journal .intent)) s)
    (hfree : c.files c.new = none) (hbef : c.Before s) :
    Keeps env c.Class (do
        syncDirectory (.directory c.parent)
        replaceFileOperation (.operation token) (c.journal .moved)) w
      (fun _ w' => Stored w' (withJournal c.moved token (c.journal .moved)) s)
      (fun _ w' => c.Reached w') := by
  have hclass : c.Class (withJournal c.moved token (c.journal .intent)) s := .renamed hfree hbef
  have hagain := withJournal_again c.moved token (c.journal .intent) (c.journal .moved)
  refine (syncDirectory_nothing hT hw hclass _).andThen ?_
  intro _ w₁ hw₁
  refine (replaceFileOperation_safe hT hw₁ withJournal_self ⟨hclass, ?_⟩).mono ?_
    fun _ w₂ h => ⟨_, s, h, hclass⟩
  · exact hagain.symm ▸ .recorded hfree (.inl hbef)
  · exact fun _ w₂ hw₂ => hagain ▸ hw₂

theorem stageRename_safe (hmode : c.forbidSymlinks = env.forbidSymlinks)
    (hw : Stored w c.files s) (hbef : c.Before s) :
    Keeps env c.Class (stageRenameWithOutcome c.oldPath c.newName) w
      (c.Staged s) (fun _ w' => c.Reached w') := by
  have hclass : c.Class c.files s := .untouched hbef
  have hkept : ∀ w', Stored w' c.files s → c.Reached w' :=
    fun w' hw' => ⟨_, s, hw', hclass⟩
  unfold stageRenameWithOutcome
  refine Action.Meets.ofOk (splitParentName_joinRelative c.plain c.old_safe) ?_
  dsimp only
  rw [if_neg (by simp [c.new_safe]), if_neg c.names_ne]
  refine (bindDirectory_safe hT hw (covered_nil.mpr hclass) (fun _ _ => rfl) _).bind ?_
    fun _ w' h => hkept w' h
  rintro directory w₁ ⟨hw₁, hdir⟩
  obtain rfl : c.parent = directory := by simpa [replay, ← hmode, c.resolves] using hdir
  refine (duplicate_safe hT hw₁ (covered_nil.mpr hclass)).bind ?_ fun _ w' h => hkept w' h
  intro _ w₂ hw₂
  refine (duplicate_safe hT hw₂ (covered_nil.mpr hclass)).bind ?_ fun _ w' h => hkept w' h
  intro _ w₃ hw₃
  refine (openPath_safe hT hw₃ (covered_nil.mpr hclass) c.old_in_sight).bind ?_
    fun _ w' h => hkept w' h.1
  rintro entry w₄ ⟨hw₄, hent⟩
  obtain rfl : .object c.identity c.kind.type = entry := Option.some.inj (c.entry.symm.trans hent)
  have hkind : ∀ refusal, sourceKind refusal (.object c.identity c.kind.type) = .ok c.kind := by
    intro refusal
    cases c.kind <;> rfl
  refine Action.Meets.ofOk (hkind _) ?_
  refine (writeFileOperation_safe hT hw₄ hclass fun token _ => .intent hbef).mapBind ?_
    fun _ w' h => hkept w' h.1
  rintro name w₆ ⟨token, rfl, -, hw₆⟩
  refine (renameInDirectory_safe hT hw₆ hbef).attempt
    (fun _ w₇ hw₇ => (reconcileMoved_safe hT hw₇.2 hw₇.1 hbef).bind ?_ fun _ _ h => h)
    fun error w₇ hw₇ => (reconcileUnmoved_safe hT hw₇ hbef error).bind ?_ fun _ _ h => h
  -- Whether or not the move happened, the probes tell.
  all_goals
    rintro (- | outcome) w₈ hreconciled
    · obtain ⟨hnone, hw₈⟩ := hreconciled
      exact (recordMove_safe hT hw₈ hnone hbef).attempt
        (fun _ w₉ hw₉ => ⟨token, rfl, hnone, hw₉⟩) fun _ _ h => h
    · exact hreconciled

end Staging

section Commit

/-- What the request leaves behind, with what it tells the storage guard. -/
def Left (c : RenameCase) (clean : Bool) (w : World) : Prop :=
  c.Reached w ∧ (clean = true → c.Done w)

theorem Done.left (h : c.Done w) (clean : Bool) : c.Left clean w :=
  ⟨h.reached, fun _ => h⟩

theorem recoverUncertain_safe (hT : Tolerated env) (hw : c.Reached w) :
    Keeps env c.Class recoverUncertainFileOperationBeforeUnlock w
      c.Left (fun _ _ => False) := by
  obtain ⟨g, s, hw, hclass⟩ := hw
  refine (recover_safe hT hw hclass).attempt ?_ ?_
  · exact fun _ w₁ hdone => hdone.left true
  · exact fun _ w₁ hstopped => ⟨hstopped, Bool.noConfusion⟩

theorem finishRename_safe (hT : Tolerated env)
    (hw : Stored w (withJournal c.moved token (c.journal .moved)) s)
    (hfree : c.files c.new = none) (haft : c.After s) {staged : StagedRename}
    (hname : staged.operationName = .operation token) (updatedShares : ℕ) :
    Keeps env c.Class (finishRename staged updatedShares) w
      (fun result w' => c.Left result.clean w') (fun _ _ => False) := by
  have hclass : c.Class (withJournal c.moved token (c.journal .moved)) s :=
    .recorded hfree (.inr haft)
  have hcommit : Keeps env c.Class staged.commit w (fun _ w' => c.Done w')
      (fun _ w' => c.Reached w') := by
    rw [StagedRename.commit, hname]
    exact (removeJournal_safe hT hw (c.moved_journal token) hclass
      (.finished hfree haft)).mono (fun _ w₁ hw₁ => ⟨c.moved, s, hw₁, .renamed hfree haft⟩)
      fun _ w₁ h => ⟨_, s, h, hclass⟩
  refine hcommit.attempt (fun _ w₁ hdone => hdone.left true) ?_
  exact fun _ w₁ hreached =>
    (recoverUncertain_safe hT hreached).bind (fun _ _ h => h) fun _ _ h => h

theorem commitRename_safe (hT : Tolerated env) {outcome : RenameStageOutcome}
    (hbef : c.Before s) (hw : c.Staged s outcome w) :
    Keeps env c.Class (commitRename outcome) w
      (fun result w' => c.Left result.clean w')
      (fun _ w' => c.Reached w') := by
  cases outcome with
  | publishedUncertain =>
    obtain ⟨g, s', hw, hclass⟩ := hw
    refine Action.Meets.mapBind (readDatabase_safe hw) ?_ fun _ _ h => h.elim
    rintro db w₁ ⟨hw₁, rfl⟩
    refine (commitTransaction_safe hT hw₁ (covered_nil.mpr hclass) _).mapBind ?_
      fun _ w₂ h => ⟨g, _, h, hclass⟩
    intro _ w₂ hw₂
    exact (recoverUncertain_safe hT ⟨g, _, hw₂, hclass⟩).bind (fun _ _ h => h) fun _ _ h => h.elim
  | ready =>
    obtain ⟨token, rfl, hfree, hw⟩ := hw
    have hclass : c.Class (withJournal c.moved token (c.journal .moved)) s :=
      .recorded hfree (.inl hbef)
    refine Action.Meets.mapBind (readDatabase_safe hw) ?_ fun _ _ h => h.elim
    rintro db w₁ ⟨hw₁, rfl⟩
    have haft := c.after_of_rename (.inl hbef) false
    refine (commitTransaction_safe hT hw₁ (covered_nil.mpr hclass) _).attempt ?_ ?_
    · intro _ w₂ hw₂
      exact (finishRename_safe hT hw₂ hfree haft rfl _).mono (fun _ _ h => h) fun _ _ h => h.elim
    · intro error w₂ hw₂
      -- The commit has begun, so dropping the transaction changes nothing.
      refine Action.Meets.mapBind (Q := fun _ w' => c.Reached w') ⟨_, _, hw₂, hclass⟩ ?_
        fun _ _ h => h
      intro _ w₃ hw₃
      exact (recoverUncertain_safe hT hw₃).bind (fun _ _ h => h) fun _ _ h => h.elim

end Commit

/-- The request renames this entry, links being refused or not. -/
structure Names (c : RenameCase) (forbidSymlinks : Bool) (request : RenameRequest) : Prop where
  mode : c.forbidSymlinks = forbidSymlinks
  path : normalize request.path false = .ok c.oldPath
  newName : request.newName = c.newName

/-- The entry that is renamed. -/
def object (c : RenameCase) : Entry := .object c.identity c.kind.type

theorem files_new_ne : c.files c.new ≠ some c.object := by
  intro h
  have hname : c.new = c.old := c.files_expected (by rw [← new, h, object, c.identityOf_entry])
  exact c.old_ne_new hname.symm

/-- In every state the object is under exactly one of its names. -/
theorem Class.one_name {g : FileMap} (h : c.Class g s) :
    Xor (g c.old = some c.object) (g c.new = some c.object) := by
  have hfiles : Xor (c.files c.old = some c.object) (c.files c.new = some c.object) :=
    .inl ⟨c.entry, c.files_new_ne⟩
  have hmoved : Xor (c.moved c.old = some c.object) (c.moved c.new = some c.object) :=
    .inr ⟨c.moved_new, by simp [c.moved_old]⟩
  cases h with
  | untouched => exact hfiles
  | finished => exact hmoved
  -- The journal is not one of the two names.
  | _ => rwa [withJournal_of_ne (c.old_ne_staged _), withJournal_of_ne (c.new_ne_staged _)]

/-- A request names at most one entry of a tree. -/
theorem Names.unique {c' : RenameCase} {forbidSymlinks : Bool} {request : RenameRequest}
    (h : c.Names forbidSymlinks request) (h' : c'.Names forbidSymlinks request)
    (hfiles : c.files = c'.files) (hdb : c.db = c'.db) : c = c' := by
  have hpath : c.oldPath = c'.oldPath := Except.ok.inj (h.path.symm.trans h'.path)
  have hsplit : (c.parentPath, c.oldName) = (c'.parentPath, c'.oldName) := by
    have hc := splitParentName_joinRelative c.plain c.old_safe
    have hc' := splitParentName_joinRelative c'.plain c'.old_safe
    change splitParentName c.oldPath = _ at hc
    change splitParentName c'.oldPath = _ at hc'
    rw [hpath, hc'] at hc
    exact (Except.ok.inj hc).symm
  obtain ⟨hparentPath, holdName⟩ := Prod.mk.inj hsplit
  have hpar : c.parent = c'.parent := by
    have hc := c.resolves
    rw [h.mode, ← h'.mode, hfiles, hparentPath, c'.resolves] at hc
    exact (Option.some.inj hc).symm
  have hent : Entry.object c.identity c.kind.type = .object c'.identity c'.kind.type := by
    have hc := c.entry
    rw [hfiles, hpar, holdName, c'.entry] at hc
    exact (Option.some.inj hc).symm
  obtain ⟨hidentity, htype⟩ := Entry.object.inj hent
  have hkind : c.kind = c'.kind := by
    cases hk : c.kind <;> cases hk' : c'.kind <;> simp_all [EntryKind.type]
  have hnewName : c.newName = c'.newName := h.newName.symm.trans h'.newName
  have hmode : c.forbidSymlinks = c'.forbidSymlinks := h.mode.trans h'.mode.symm
  cases c
  cases c'
  simp_all

end RenameCase

section Request

variable {env : Environment} {w : World} {f : FileMap} {db : Store} {forbidSymlinks : Bool}
  {request : RenameRequest}

theorem planRename_ok {raw newName : Text} {plan : RenamePlan}
    (h : planRename raw newName = .ok plan) :
    normalize raw false = .ok plan.path ∧ plan.newName = newName := by
  unfold planRename validateName at h
  cases hpath : normalize raw false with
  | error => simp [hpath, bind, Except.bind] at h
  | ok =>
    by_cases hsafe : safeAdminFilename newName = true
    · simp only [hpath, hsafe, bind, Except.bind, if_true] at h
      split_ifs at h <;> exact Except.ok.inj h ▸ ⟨rfl, rfl⟩
    · simp [hpath, hsafe, bind, Except.bind] at h

theorem validatedRenamePaths_ok {path newName : Text}
    (h : validatedRenamePaths request.path request.newName = .ok (path, newName)) :
    normalize request.path false = .ok path ∧ newName = request.newName := by
  unfold validatedRenamePaths at h
  cases hplan : planRename request.path request.newName with
  | error => simp [hplan, bind, Except.bind] at h
  | ok =>
    simp only [hplan, bind, Except.bind] at h
    split_ifs at h
    obtain ⟨rfl, rfl⟩ := Prod.mk.inj (Except.ok.inj h)
    exact planRename_ok hplan

/-- A normalized path is put together again from its parts. -/
theorem joinRelative_splitParentName {raw path name : Text} {parent : List Text}
    (hpath : normalize raw false = .ok path) (hsplit : splitParentName path = .ok (parent, name)) :
    joinRelative parent name = path := by
  unfold normalize at hpath
  cases hparts : validateRelative raw with
  | none => simp [hparts] at hpath
  | some components =>
    have hrender : path = ['/'].intercalate components := by
      simp only [hparts] at hpath
      split_ifs at hpath
      exact (Except.ok.inj hpath).symm
    have hvalid := validateRelative_render (PlainComponent.of_validateRelative hparts)
    rw [splitParentName, hrender, hvalid] at hsplit
    cases hlast : components.getLast? with
    | none => simp [hlast] at hsplit
    | some =>
      simp only [hlast] at hsplit
      split_ifs at hsplit
      obtain ⟨rfl, rfl⟩ := Prod.mk.inj (Except.ok.inj hsplit)
      rw [hrender, joinRelative, List.dropLast_append_getLast?]
      exact hlast

/-- A request that names no entry of the tree changes nothing. -/
theorem stageRename_missing (hT : Tolerated env) (hidle : Idle f)
    (hw : Stored w f db) {path : Text} (hpath : normalize request.path false = .ok path)
    (hno : ¬∃ c : RenameCase, c.files = f ∧ c.db = db ∧ c.Names env.forbidSymlinks request) :
    Keeps env (fun g s => g = f ∧ s = db) (stageRenameWithOutcome path request.newName) w
      (fun _ _ => False) (fun _ w' => Stored w' f db) := by
  have hclass : (fun g s => g = f ∧ s = db) f db := ⟨rfl, rfl⟩
  unfold stageRenameWithOutcome
  refine Action.Meets.ofExcept (fun (parentPath, name) hsplit => ?_) fun _ => hw
  obtain ⟨hplain, hname⟩ := splitParentName_ok hsplit
  dsimp only
  split
  · exact hw
  rename_i hsafe
  split
  · exact hw
  rename_i hne
  refine (bindDirectory_safe hT hw (covered_nil.mpr hclass) (fun _ _ => rfl) _).bind ?_
    fun _ _ h => h
  rintro parent w₁ ⟨hw₁, hpar⟩
  refine (duplicate_safe hT hw₁ (covered_nil.mpr hclass)).bind ?_ fun _ _ h => h
  intro _ w₂ hw₂
  refine (duplicate_safe hT hw₂ (covered_nil.mpr hclass)).bind ?_ fun _ _ h => h
  intro _ w₃ hw₃
  refine Action.Meets.bind (openPath_safe hT hw₃ (covered_nil.mpr hclass) rfl) ?_ fun _ w' h => h.1
  rintro entry w₄ ⟨hw₄, hent⟩
  have hent : f (.visible parent name) = some entry := hent
  refine Action.Meets.ofExcept (fun kind hkind => ?_) fun _ => hw₄
  obtain ⟨identity, rfl⟩ := hidle.source hent hkind
  -- Everything that was checked makes up a rename.
  have hjoin := joinRelative_splitParentName hpath hsplit
  refine absurd ?_ hno
  exact ⟨{ files := f, db, idle := hidle, forbidSymlinks := env.forbidSymlinks
           parentPath, parent, oldName := name
           newName := request.newName, identity, kind, plain := hplain, old_safe := hname
           new_safe := by simpa using hsafe, names_ne := hne, resolves := hpar
           entry := hent }, rfl, rfl, rfl, hjoin.symm ▸ hpath, rfl⟩

/-- The states around a request: nothing has happened, or the rename of the entry it names is in
one of its states. -/
def RenameStates (forbidSymlinks : Bool) (f : FileMap) (db : Store) (request : RenameRequest)
    (g : FileMap) (s : Store) : Prop :=
  (g = f ∧ shareRows s = shareRows db) ∨
    ∃ c : RenameCase, c.files = f ∧ c.db = db ∧ c.Names forbidSymlinks request ∧ c.Class g s

/-- The request has had all its effect or none. -/
def RenameSettled (forbidSymlinks : Bool) (f : FileMap) (db : Store) (request : RenameRequest)
    (g : FileMap) (s : Store) : Prop :=
  (g = f ∧ shareRows s = shareRows db) ∨
    ∃ c : RenameCase, c.files = f ∧ c.db = db ∧ c.Names forbidSymlinks request ∧ c.Settled g s

theorem rename_safe (hT : Tolerated env) (hidle : Idle f) (hw : Stored w f db) :
    Keeps env (RenameStates env.forbidSymlinks f db request) (rename request) w
      (fun result w' =>
        (∃ g s, Stored w' g s ∧ RenameStates env.forbidSymlinks f db request g s) ∧
          (result.clean = true →
            ∃ g s, Stored w' g s ∧ RenameSettled env.forbidSymlinks f db request g s))
      (fun _ w' => ∃ g s, Stored w' g s ∧ RenameStates env.forbidSymlinks f db request g s) := by
  have hsame : RenameStates env.forbidSymlinks f db request f db := .inl ⟨rfl, rfl⟩
  refine Action.Meets.ofExcept (fun (path, newName) hplanned => ?_) fun _ => ⟨f, db, hw, hsame⟩
  obtain ⟨hpath, rfl⟩ := validatedRenamePaths_ok hplanned
  refine (beginTransaction_safe hT hw (covered_nil.mpr hsame)).mapBind ?_
    fun _ _ h => ⟨f, db, h, hsame⟩
  intro _ w₂ hw₂
  split
  · by_cases hcase : ∃ c : RenameCase, c.files = f ∧ c.db = db ∧
        c.Names env.forbidSymlinks request
    · obtain ⟨c, rfl, rfl, hnames⟩ := hcase
      obtain rfl : c.oldPath = path := Except.ok.inj (hnames.path.symm.trans hpath)
      have hstates : ∀ g s, c.Class g s →
          RenameStates env.forbidSymlinks c.files c.db request g s :=
        fun g s hclass => .inr ⟨c, rfl, rfl, hnames, hclass⟩
      have hreached : ∀ w', c.Reached w' → ∃ g s, Stored w' g s ∧
          RenameStates env.forbidSymlinks c.files c.db request g s :=
        fun w' ⟨g, s, hw', hclass⟩ => ⟨g, s, hw', hstates g s hclass⟩
      rw [hnames.newName]
      refine Safe.enlarge ?_ hstates
      refine (RenameCase.stageRename_safe hT hnames.mode hw₂ rfl).mapBind ?_
        fun _ w' h => hreached w' h
      intro outcome w₃ hstaged
      refine (RenameCase.commitRename_safe hT rfl hstaged).mono ?_ fun _ w' h => hreached w' h
      rintro result w₄ ⟨hleft, hclean⟩
      refine ⟨hreached w₄ hleft, fun h => ?_⟩
      obtain ⟨g, s, hw₄, hset⟩ := hclean h
      exact ⟨g, s, hw₄, .inr ⟨c, rfl, rfl, hnames, hset⟩⟩
    · refine ((stageRename_missing hT hidle hw₂ hpath hcase).enlarge ?_).mapBind
        (fun _ _ h => h.elim) fun _ w' h => ⟨f, db, h, hsame⟩
      rintro g s ⟨rfl, rfl⟩
      exact hsame
  · exact ⟨⟨f, db, hw₂, hsame⟩, fun _ => ⟨f, db, hw₂, .inl ⟨rfl, rfl⟩⟩⟩

/-- Recovery settles the request, unless a call fails. Its own mode need not be that of the
request. -/
theorem recoverRename_settles (hT : Tolerated env) (hidle : Idle f) {g : FileMap} {s : Store}
    (hw : Stored w g s) (hstates : RenameStates forbidSymlinks f db request g s) :
    Keeps env (RenameStates forbidSymlinks f db request) recoverPendingFileOperationsBlocking w
      (fun _ w' => ∃ g s, Stored w' g s ∧ RenameSettled forbidSymlinks f db request g s)
      (fun _ w' => ∃ g s, Stored w' g s ∧ RenameStates forbidSymlinks f db request g s) := by
  obtain ⟨rfl, hrows⟩ | ⟨c, rfl, rfl, hnames, hclass⟩ := hstates
  · have hsame : RenameStates forbidSymlinks g db request g s := .inl ⟨rfl, hrows⟩
    refine recoverBlocking_safe hT hw hsame hidle.noManifests (.none hidle.no_journal)
      (fun w' hw' => ?_) fun _ w' hw' => ⟨g, s, hw', hsame⟩
    exact ⟨g, s, hw', .inl ⟨rfl, hrows⟩⟩
  · have hstates : ∀ g s, c.Class g s → RenameStates forbidSymlinks c.files c.db request g s :=
      fun g s hclass => .inr ⟨c, rfl, rfl, hnames, hclass⟩
    refine ((RenameCase.recover_safe hT hw hclass).enlarge hstates).mono ?_ ?_
    · rintro tombstones w' ⟨g, s, hw', hset⟩
      exact ⟨g, s, hw', .inr ⟨c, rfl, rfl, hnames, hset⟩⟩
    · rintro error w' ⟨g, s, hw', hclass⟩
      exact ⟨g, s, hw', hstates g s hclass⟩

/-- Opening the storage root leaves the request as it is. -/
theorem openRoot_keeps (hT : Tolerated env) (hidle : Idle f) {g : FileMap} {s : Store}
    (hw : Stored w g s) (hstates : RenameStates forbidSymlinks f db request g s) :
    Keeps env (RenameStates forbidSymlinks f db request) openSecureRoot w
      (fun _ w' => Stored w' g s) (fun _ w' => Stored w' g s) := by
  obtain ⟨hman, pending, hjou⟩ : NoManifests g ∧ ∃ pending, Journals g pending := by
    obtain ⟨rfl, -⟩ | ⟨c, -, -, -, hclass⟩ := hstates
    · exact ⟨hidle.noManifests, _, .none hidle.no_journal⟩
    · exact hclass.pending
  exact openSecureRoot_safe hT hw hstates hman hjou

end Request

section Runs

/-- What is done about an interrupted operation, and the environment it is done in. -/
inductive Attempt
  | openRoot (env : Environment)
  | recover (env : Environment)

def Attempt.env : Attempt → Environment
  | .openRoot env | .recover env => env

/-- The world after the attempt, however it ends. -/
def Attempt.run (w : World) : Attempt → World
  | .openRoot env => (openSecureRoot env w).state
  | .recover env => (recoverPendingFileOperationsBlocking env w).state

variable {f : FileMap} {db : Store} {forbidSymlinks : Bool} {request : RenameRequest}

/-- The request is in one of its states, with nothing waiting to become durable. -/
def RenameReached (forbidSymlinks : Bool) (f : FileMap) (db : Store) (request : RenameRequest)
    (w : World) : Prop :=
  ∃ g s, Stored w g s ∧ RenameStates forbidSymlinks f db request g s

theorem RenameReached.attempt (hidle : Idle f) {w : World}
    (h : RenameReached forbidSymlinks f db request w) {attempt : Attempt}
    (hT : Tolerated attempt.env) : RenameReached forbidSymlinks f db request (attempt.run w) := by
  obtain ⟨g, s, hw, hstates⟩ := h
  cases attempt with
  | openRoot =>
    exact Action.Meets.state (openRoot_keeps hT hidle hw hstates)
      (fun _ w' hw' => ⟨g, s, hw', hstates⟩) (fun _ w' hw' => ⟨g, s, hw', hstates⟩) fun _ h => h
  | recover =>
    refine Action.Meets.state (recoverRename_settles hT hidle hw hstates) ?_ (fun _ _ h => h)
      fun _ h => h
    rintro tombstones w' ⟨g', s', hw', hset⟩
    refine ⟨g', s', hw', hset.imp id ?_⟩
    rintro ⟨c, hfiles, hdb, hnames, hset⟩
    refine ⟨c, hfiles, hdb, hnames, ?_⟩
    cases hset with
    | unchanged before => exact .untouched before
    | renamed free after => exact .finished free after

theorem RenameReached.attempts (hidle : Idle f) {w : World}
    (h : RenameReached forbidSymlinks f db request w) {attempts : List Attempt}
    (hT : ∀ attempt ∈ attempts, Tolerated attempt.env) :
    RenameReached forbidSymlinks f db request (attempts.foldl Attempt.run w) := by
  induction attempts generalizing w with
  | nil => exact h
  | cons attempt attempts ih =>
    exact ih (h.attempt hidle (hT attempt List.mem_cons_self))
      fun other hoth => hT other (List.mem_cons_of_mem attempt hoth)

theorem Stored.view {w : World} {g : FileMap} {s : Store} (h : Stored w g s)
    {location : Location} (hloc : location.isTemporary = false) :
    w.view.map location = g location :=
  h.lookup hloc

theorem RenameSettled.no_journal (hidle : Idle f) {g : FileMap} {s : Store}
    (h : RenameSettled forbidSymlinks f db request g s) (token : ℕ) :
    g (.staged (.operation token)) = none := by
  obtain ⟨rfl, -⟩ | ⟨c, rfl, -, -, hset⟩ := h
  · exact hidle.no_journal token
  · cases hset with
    | unchanged => exact c.files_journal token
    | renamed => exact c.moved_journal token

/-- A rename is atomic, whether links are followed or refused. Whatever happens during the request
and during any number of recovery attempts after it, the object is under exactly one of its two
names; and when recovery returns, no journal is left and either nothing in sight has changed, or the
object has its new name and exactly the shares at or below the old path follow it. -/
theorem rename_survives_crashes (request : RenameRequest) {w : World} (hw : Stored w f db)
    (hidle : Idle f) {env : Environment} (henv : Tolerated env) (attempts : List Attempt)
    (hattempts : ∀ attempt ∈ attempts, Tolerated attempt.env) :
    (∀ c : RenameCase, c.files = f → c.db = db → c.Names env.forbidSymlinks request →
      Xor ((attempts.foldl Attempt.run (rename request env w).state).view.map c.old =
          some c.object)
        ((attempts.foldl Attempt.run (rename request env w).state).view.map c.new =
          some c.object)) ∧
    ∀ (env' : Environment) tombstones w', Tolerated env' →
      recoverPendingFileOperationsBlocking env'
          (attempts.foldl Attempt.run (rename request env w).state) = .ok tombstones w' →
        (∀ token, w'.view.map (.staged (.operation token)) = none) ∧
          RenameSettled env.forbidSymlinks f db request
            (conceal Location.isTemporary w'.view.map) w'.db := by
  have hrename : RenameReached env.forbidSymlinks f db request (rename request env w).state :=
    Action.Meets.state (rename_safe henv hidle hw) (fun _ _ h => h.1) (fun _ _ h => h)
      fun _ h => h
  obtain ⟨g, s, hw₁, hstates⟩ := hrename.attempts hidle hattempts
  refine ⟨fun c hfiles hdb hnames => ?_, fun env' tombstones w' henv' hok => ?_⟩
  · rw [hw₁.view c.old_in_sight, hw₁.view c.new_in_sight]
    obtain ⟨rfl, -⟩ | ⟨c', hfiles', hdb', hnames', hclass⟩ := hstates
    · subst hfiles
      exact .inl ⟨c.entry, c.files_new_ne⟩
    · obtain rfl := hnames.unique hnames' (hfiles.trans hfiles'.symm) (hdb.trans hdb'.symm)
      exact hclass.one_name
  · obtain ⟨g', s', hw', hset⟩ :=
      Action.Meets.ok (recoverRename_settles henv' hidle hw₁ hstates) hok
    have hview : conceal Location.isTemporary w'.view.map = g' := hw'.view_map
    rw [hview, hw'.db]
    refine ⟨fun token => ?_, hset⟩
    exact (hw'.lookup rfl).trans (hset.no_journal hidle token)

/-- One file at the root, and a share of it. -/
def oneFile : FileMap := Function.update (fun _ => none) (.visible .root "a".toList)
  (some (.object ⟨1, 1, by decide, by decide⟩ .file))

def oneShare : Store :=
  committed .empty (createShare 0 ⟨"share", none, ['a'], false, .downloadOnly, none, none, none,
    none, none, none, .reject, 1⟩ none .empty)

def oneFileWorld : World :=
  { files := ⟨(∅ : Namespace).insert (.visible .root "a".toList)
      (.object ⟨1, 1, by decide, by decide⟩ .file), []⟩
    db := oneShare, clock := 0, tokens := 0 }

theorem oneFile_eq {location : Location} {entry : Entry} (h : oneFile location = some entry) :
    location = .visible .root "a".toList ∧
      entry = .object ⟨1, 1, by decide, by decide⟩ .file := by
  by_cases hloc : location = .visible .root "a".toList
  · subst hloc
    exact ⟨rfl, (Option.some.inj (by simpa [oneFile] using h)).symm⟩
  · rw [oneFile, Function.update_of_ne hloc] at h
    cases h

theorem oneFile_staged (name : StagingName) : oneFile (.staged name) = none := by
  simp [oneFile]

theorem oneFile_idle : Idle oneFile where
  unique := fun directory name directory' name' identity type type' h h' => by
    have hhere := (oneFile_eq h).1.trans (oneFile_eq h').1.symm
    exact Location.visible.inj hhere
  objects := fun directory name content h => by simpa using (oneFile_eq h).2
  no_journal := fun token => oneFile_staged _
  no_manifest := fun token => oneFile_staged _
  no_pending := fun token => oneFile_staged _

theorem oneFileWorld_map : oneFileWorld.files.base.map = oneFile :=
  lookup_insert_eq ∅ _ _

theorem oneFileWorld_stored : Stored oneFileWorld oneFile oneShare where
  files := by
    rw [oneFileWorld_map]
    funext location
    cases location with
    | visible | fragment => rfl
    | staged => simp [conceal, oneFile_staged]
  log_eq := rfl
  db := rfl
  fresh := fun name _ => by simp [oneFileWorld_map, oneFile_staged]
  sight := by simp
  plain := fun location hhide => by
    cases location with
    | visible | fragment => cases hhide
    | staged =>
      rw [oneFileWorld_map, oneFile_staged]
      rfl

/-- The power is lost before the call with this number. -/
def crashAt (time : ℕ) (mask : List Bool) : Environment where
  fault now _ := if now = time then .crashes mask else .proceeds
  forbidSymlinks := false

theorem crashAt_tolerated (time : ℕ) (mask : List Bool) : Tolerated (crashAt time mask) where
  no_loss := fun now syscall kind => by
    unfold crashAt
    dsimp only
    split <;> simp
  may_fail := fun now syscall => by
    unfold crashAt
    dsimp only
    split <;> simp

/-- The power is lost when the file has moved and again during recovery; the share follows. -/
theorem rename_survives_crashes_twice :
    (recoverPendingFileOperationsBlocking (crashAt 0 [])
      ([.openRoot (crashAt 0 []), .recover (crashAt 24 [])].foldl Attempt.run
        (rename ⟨"a".toList, "b".toList, true⟩ (crashAt 11 [true])
          oneFileWorld).state)).isOk = true ∧
    (recoverPendingFileOperationsBlocking (crashAt 0 [])
      ([.openRoot (crashAt 0 []), .recover (crashAt 24 [])].foldl Attempt.run
        (rename ⟨"a".toList, "b".toList, true⟩ (crashAt 11 [true])
          oneFileWorld).state)).state.db.shares.rows.map Share.relativePath = [['b']] ∧
    ∀ (env' : Environment) tombstones w', Tolerated env' →
      recoverPendingFileOperationsBlocking env'
          ([.openRoot (crashAt 0 []), .recover (crashAt 24 [])].foldl Attempt.run
            (rename ⟨"a".toList, "b".toList, true⟩ (crashAt 11 [true]) oneFileWorld).state) =
          .ok tombstones w' →
        (∀ token, w'.view.map (.staged (.operation token)) = none) ∧
          RenameSettled false oneFile oneShare ⟨"a".toList, "b".toList, true⟩
            (conceal Location.isTemporary w'.view.map) w'.db :=
  ⟨by decide +kernel, by decide +kernel, (rename_survives_crashes _ oneFileWorld_stored oneFile_idle
    (crashAt_tolerated 11 [true]) _ (by simp [Attempt.env, crashAt_tolerated])).2⟩

end Runs

end VaultLink
