import VaultLink.StagingEffects

/-!
# What staging a rename or a delete has done

Whatever calls fail or lose their answers, an error means that the entry is where it was, and
an entry that has moved is reported as staged or as uncertain, with the journal or manifest
that brings it back.
-/
namespace VaultLink

open VaultLink.Action.Meets
open Mutation

variable {f : FileMap} {source destination : Location}

section Visible

theorem moved_source (h : source ≠ destination) : f.moved source destination source = none := by
  cases hent : f source with
  | none => simp [FileMap.moved, act, hent]
  | some entry => simp [FileMap.moved, act, hent, h]

theorem moved_destination {entry : Entry} (h : f source = some entry) :
    f.moved source destination destination = some entry := by
  simp [FileMap.moved, act, h]

theorem moved_of_ne {location : Location} (hsrc : location ≠ source)
    (hdst : location ≠ destination) : f.moved source destination location = f location :=
  act_of_not_touches (by simp [touches, hsrc, hdst]) f

theorem ne_none_of_expected {entry : Option Entry} {identity : ℕ × ℕ} {kind : EntryKind}
    (h : identityOf entry identity kind = .expected) : entry ≠ none := by
  rintro rfl
  cases h

theorem identityOf_eq_missing {entry : Option Entry} {identity : ℕ × ℕ} {kind : EntryKind} :
    identityOf entry identity kind = .missing ↔ entry = none := by
  cases entry with
  | none => simp [identityOf]
  | some entry =>
    simp only [identityOf, reduceCtorEq, iff_false]
    split <;> simp

/-- Moving an entry commutes with changes of names that the move does not read. -/
theorem EqOff.act_move {names : Set StagingName} {g g' : FileMap} (h : EqOff names g g')
    (hsrc : g' source = g source) (destination : Location) :
    EqOff names (g.moved source destination) (g'.moved source destination) := by
  cases hent : g source with
  | none =>
    rw [hent] at hsrc
    rwa [FileMap.moved, FileMap.moved, act, act, hsrc, hent]
  | some entry =>
    rw [hent] at hsrc
    simp only [FileMap.moved, act, hsrc, hent]
    constructor
    · intro directory name
      simp only [Function.update_apply, h.visible directory name]
    · intro name hname
      simp only [Function.update_apply, h.staged name hname]
    · intro name
      simp only [Function.update_apply, h.fragment name]

/-- What is moved to a free name and back is where it was. -/
theorem moved_moved (hne : source ≠ destination) (hfree : f destination = none) :
    (f.moved source destination).moved destination source = f := by
  cases hent : f source with
  | none => simp [FileMap.moved, act, hent, hfree]
  | some entry =>
    funext location
    by_cases hs : location = source
    · subst hs
      simp [FileMap.moved, act, hent]
    by_cases hd : location = destination
    · subst hd
      simp [FileMap.moved, act, hent, hfree, hs]
    · rw [moved_of_ne hd hs, moved_of_ne hs hd]

end Visible

section Rename

variable {n : ℕ} {w : World} {f : FileMap} {env : Environment}

/-- The caller sees that a call has failed, not whether it took effect. -/
theorem attempt_leaves {m : FsM Unit} {f' : FileMap}
    (h : Leaves m env w (fun _ w' => Steady n w' f')
      (fun _ w' => Steady n w' f ∨ Steady n w' f')) :
    Leaves (Action.attempt m) env w
    (fun result w' => ∃ f₁, Steady n w' f₁ ∧
      (f₁ = f ∧ (∃ error, result = .error error) ∨ f₁ = f'))
    (fun (_ : IoError) _ => False) := by
  refine Action.meets_attempt.mpr (h.weaken (fun _ _ h => ⟨f', h, .inr rfl⟩) ?_)
  rintro error w' (h | h)
  · exact ⟨f, h, .inl ⟨rfl, error, rfl⟩⟩
  · exact ⟨f', h, .inr rfl⟩

variable (henv : Reports env) (hw : Steady n w f)

include henv hw

theorem renameInDirectory_leaves (parent : Directory) (old new : Text) :
    Leaves (renameInDirectory parent old new) env w
    (fun _ w' => Steady n w' (f.moved (.visible parent old) (.visible parent new)))
    (fun _ w' => Steady n w' f ∨
      Steady n w' (f.moved (.visible parent old) (.visible parent new))) := by
  refine (renameNoreplace_leaves henv hw
    (show Location.drawnBefore n (.visible parent new) from trivial)).bind ?_ fun _ _ h => h
  intro _ w₁ hw₁
  exact (bestEffort_leaves (syncDirectory_leaves henv hw₁ _)).weaken (fun _ _ h => h)
    (fun _ _ h => h.elim)

/-- The probes tell a rename that happened from one that did not, or admit not to know. -/
theorem reconcileRenameResult_leaves {f₀ : FileMap} {parent : Directory}
    {originalName newName : Text} (hne : originalName ≠ newName)
    (hsrc : f₀ (.visible parent originalName) ≠ none) {rename : Except IoError Unit}
    (hst : f = f₀ ∧ (∃ error, rename = .error error) ∨
      f = f₀.moved (.visible parent originalName) (.visible parent newName))
    (newPath : Text) (identity : ℕ × ℕ) (kind : EntryKind) (operationName : StagingName) :
    Leaves (reconcileRenameResult parent originalName newName newPath identity kind operationName
      rename) env w
    (fun outcome w' => Steady n w' f ∧
      (outcome = none → f = f₀.moved (.visible parent originalName) (.visible parent newName)) ∧
      ∀ staged, outcome ≠ some (.ready staged))
    (fun _ w' => f = f₀ ∧ (Steady n w' f ∨
      Steady n w' (Function.update f (.staged operationName) none))) := by
  have hloc : Location.visible parent originalName ≠ .visible parent newName := by
    simpa using hne
  refine (entryIdentityState_leaves henv hw _ identity kind).attempt ?_ ?_
  · rintro destinationState w₁ ⟨hw₁, rfl⟩
    cases rename with
    | ok value =>
      have hmoved : f = f₀.moved (.visible parent originalName) (.visible parent newName) :=
        hst.resolve_left fun h => by
          obtain ⟨-, error, herr⟩ := h
          cases herr
      dsimp only
      split
      · exact ⟨hw₁, fun _ => hmoved, nofun⟩
      · exact ⟨hw₁, nofun, nofun⟩
      · exact ⟨hw₁, nofun, nofun⟩
    | error error =>
      refine (entryIdentityState_leaves henv hw₁ _ identity kind).attempt ?_ ?_
      · rintro sourceState w₂ ⟨hw₂, rfl⟩
        dsimp only
        split
        · rename_i hexp
          -- The entry is at its old name, so it has not moved.
          have hstay : f = f₀ := by
            obtain ⟨hstay, -⟩ | hmoved := hst
            · exact hstay
            · exact absurd (by rw [hmoved, moved_source hloc]) (ne_none_of_expected hexp)
          refine (removeRecord_leaves henv hw₂ operationName).bind ?_ fun _ _ h => ⟨hstay, h⟩
          exact fun _ w₃ hw₃ => ⟨hstay, .inr hw₃⟩
        · rename_i hmis
          refine ⟨hw₂, fun _ => ?_, nofun⟩
          obtain ⟨hstay, -⟩ | hmoved := hst
          · rw [identityOf_eq_missing, hstay] at hmis
            exact absurd hmis hsrc
          · exact hmoved
        · exact ⟨hw₂, nofun, nofun⟩
      · exact fun _ _ hw₂ => ⟨hw₂, nofun, nofun⟩
  · exact fun _ _ hw₁ => ⟨hw₁, nofun, nofun⟩

/-- A rename of an existing entry to another name in its directory. -/
structure RenameAttempt (forbidSymlinks : Bool) (f : FileMap) (relative newName : Text) where
  parentPath : List Text
  originalName : Text
  parent : Directory
  source : Entry
  kind : EntryKind
  split : splitParentName relative = .ok (parentPath, originalName)
  resolves : resolve forbidSymlinks f parentPath = some parent
  names_ne : originalName ≠ newName
  here : f (.visible parent originalName) = some source
  kind_eq : sourceKind "rename source is not a regular file or directory" source = .ok kind

namespace RenameAttempt

variable {forbidSymlinks : Bool} {relative newName : Text}
  (r : RenameAttempt forbidSymlinks f relative newName)

def operation (phase : DurableRenamePhase) : DurableFileOperation :=
  .rename
    { originalPath := joinRelative r.parentPath r.originalName
      newPath := joinRelative r.parentPath newName
      kind := r.kind, device := r.source.identity.1, inode := r.source.identity.2, phase }

/-- The files once the entry has moved. -/
def moved : FileMap := f.moved (.visible r.parent r.originalName) (.visible r.parent newName)

/-- The journal of the rename is there. -/
def Recorded (token : ℕ) (f' : FileMap) : Prop :=
  ∃ phase, f' (.staged (.operation token)) = some (.record (.operation (r.operation phase)))

omit hw in
/-- Advancing the journal keeps one in place. -/
theorem advance_leaves {n₀ token : ℕ} {w' : World} {f' : FileMap} (hw' : Steady n w' f')
    (hle : n₀ ≤ token) (hlt : token < n)
    (hintent : f' (.staged (.operation token)) =
      some (.record (.operation (r.operation .intent))))
    (hoff : EqOff (newJournals n₀) r.moved f') :
    Leaves (do
      syncDirectory (.directory r.parent)
      replaceFileOperation (.operation token) (r.operation .moved)) env w'
    (fun _ w'' => ∃ f'', Steady n w'' f'' ∧ r.Recorded token f'' ∧
      EqOff (newJournals n₀) r.moved f'')
    (fun _ w'' => ∃ f'', Steady n w'' f'' ∧ r.Recorded token f'' ∧
      EqOff (newJournals n₀) r.moved f'') := by
  refine (syncDirectory_leaves henv hw' _).bind (fun _ w₁ hw₁ => ?_)
    fun _ _ h => ⟨f', h, ⟨.intent, hintent⟩, hoff⟩
  refine (replaceFileOperation_leaves henv hw₁ hlt).weaken ?_ ?_
  · rintro - w₂ ⟨f'', hw₂, hhere, hf''⟩
    exact ⟨f'', hw₂, ⟨.moved, hhere⟩, hoff.trans (hf''.mono (journalNames_subset hle))⟩
  · rintro _ w₂ ⟨f'', hw₂, hhere, hf''⟩
    refine ⟨f'', hw₂, ?_, hoff.trans (hf''.mono (journalNames_subset hle))⟩
    obtain hsame | hnow := hhere
    · exact ⟨.intent, hsame.trans hintent⟩
    · exact ⟨.moved, hnow⟩

end RenameAttempt

/-- A successful staging has moved the entry, and an uncertain one may have; either leaves the
journal. An error leaves the entry where it was. -/
theorem stageRenameWithOutcome_leaves (relative newName : Text) :
    Leaves (stageRenameWithOutcome relative newName) env w
    (fun outcome w' => ∃ (r : RenameAttempt env.forbidSymlinks f relative newName) (token n' : ℕ)
        (f' : FileMap), Steady n' w' f' ∧ r.Recorded token f' ∧
      (EqOff (newJournals n) r.moved f' ∨
        EqOff (newJournals n) f f' ∧ ∀ staged, outcome ≠ .ready staged))
    (fun _ => Unmoved n f) := by
  have hfail : ∀ w', Steady n w' f → Unmoved n f w' :=
    fun w' hw' => ⟨n, f, hw', .refl _ f⟩
  refine ofExcept (fun (parentPath, originalName) hsplit => ?_) fun _ => hfail w hw
  dsimp only
  split
  · exact hfail _ hw
  split
  · exact hfail _ hw
  rename_i hne
  refine (bindDirectory_leaves henv hw parentPath).bind ?_ fun _ w' h => hfail w' h
  rintro parent w₁ ⟨hw₁, hresolves⟩
  refine (duplicate_leaves henv hw₁).bind (fun _ w₂ hw₂ => ?_) fun _ w' h => hfail w' h
  refine (duplicate_leaves henv hw₂).bind (fun _ w₃ hw₃ => ?_) fun _ w' h => hfail w' h
  refine (openPath_leaves henv hw₃ _).bind ?_ fun _ w' h => hfail w' h.1
  rintro source w₄ ⟨hw₄, hhere⟩
  refine ofExcept (fun kind hkind => ?_) fun _ => hfail w₄ hw₄
  let r : RenameAttempt env.forbidSymlinks f relative newName :=
    ⟨parentPath, originalName, parent, source, kind, hsplit, hresolves, hne, hhere, hkind⟩
  refine (writeFileOperation_leaves henv hw₄ (r.operation .intent)).mapBind ?_ fun _ _ h => h
  rintro name w₅ ⟨n', token, f₅, hle, hlt, rfl, hw₅, hjou, hnew⟩
  -- From here on the journal is there; only the state of the visible entry is open.
  have hsrc : f₅ (.visible parent originalName) ≠ none := by
    rw [hnew.visible, hhere]
    simp
  have hkept : (f₅.moved (.visible parent originalName) (.visible parent newName))
      (.staged (.operation token)) = some (.record (.operation (r.operation .intent))) := by
    rw [moved_of_ne (by simp) (by simp), hjou]
  have hmovedOff : EqOff (newJournals n) r.moved
      (f₅.moved (.visible parent originalName) (.visible parent newName)) :=
    hnew.act_move (hnew.visible parent originalName) _
  refine (attempt_leaves (renameInDirectory_leaves henv hw₅ parent originalName newName)).andThen ?_
  rintro rename w₆ ⟨f₆, hw₆, hst⟩
  have hrecd : r.Recorded token f₆ := by
    obtain ⟨rfl, -⟩ | rfl := hst
    · exact ⟨.intent, hjou⟩
    · exact ⟨.intent, hkept⟩
  have hoff : EqOff (newJournals n) r.moved f₆ ∨ EqOff (newJournals n) f f₆ := by
    obtain ⟨rfl, -⟩ | rfl := hst
    · exact .inr hnew
    · exact .inl hmovedOff
  refine (reconcileRenameResult_leaves henv hw₆ hne hsrc hst _ source.identity kind
    (.operation token)).bind ?_ ?_
  · rintro outcome w₇ ⟨hw₇, hmoved, huncertain⟩
    cases outcome with
    | some outcome =>
      have hnot : ∀ staged, outcome ≠ .ready staged := fun staged h => huncertain staged (h ▸ rfl)
      exact ⟨r, token, n', f₆, hw₇, hrecd, hoff.imp_right fun h => ⟨h, hnot⟩⟩
    | none =>
      obtain rfl := hmoved rfl
      refine (RenameAttempt.advance_leaves henv r hw₇ hle hlt hkept hmovedOff).attempt ?_ ?_
      · rintro - w₈ ⟨f', hw₈, hrecd', hoff'⟩
        exact ⟨r, token, n', f', hw₈, hrecd', .inl hoff'⟩
      · rintro error w₈ ⟨f', hw₈, hrecd', hoff'⟩
        exact ⟨r, token, n', f', hw₈, hrecd', .inl hoff'⟩
  · rintro error w₇ ⟨rfl, hw₇⟩
    obtain hw₇ | hw₇ := hw₇
    · exact ⟨n', _, hw₇, hnew⟩
    · refine ⟨n', _, hw₇, hnew.trans (EqOff.update _ ?_ none)⟩
      exact .inr ⟨token, hle, rfl⟩

end Rename

variable {token : ℕ}

section Delete

variable {n : ℕ} {w : World} {f : FileMap} {env : Environment}

/-- The manifests with a token from `n` on. -/
def newManifests (n : ℕ) : Set StagingName :=
  {name | ∃ token, n ≤ token ∧ name = .deletionManifest token}

theorem newManifests_antitone {n n' : ℕ} (h : n ≤ n') : newManifests n' ⊆ newManifests n := by
  rintro name ⟨token, htok, rfl⟩
  exact ⟨token, h.trans htok, rfl⟩

theorem manifest_subset {n : ℕ} (h : n ≤ token) :
    {StagingName.deletionManifest token} ⊆ newManifests n := by
  rintro name rfl
  exact ⟨token, h, rfl⟩

theorem pending_not_manifest (n token : ℕ) :
    StagingName.deletionPending token ∉ newManifests n := by
  rintro ⟨_, -, hname⟩
  cases hname

/-- The files once the entry is pending under the token. -/
abbrev FileMap.pending (f : FileMap) (parent : Directory) (name : Text) (token : ℕ) : FileMap :=
  f.moved (.visible parent name) (.staged (.deletionPending token))

/-- The manifest for the token is there. -/
def Manifested (token : ℕ) (originalPath : Text) (f : FileMap) : Prop :=
  f (.staged (.deletionManifest token)) = some (.record (.manifest originalPath))

theorem Manifested.of_pending {originalPath : Text} (h : Manifested token originalPath f)
    (parent : Directory) (name : Text) :
    Manifested token originalPath (f.pending parent name token) := by
  rw [Manifested, FileMap.pending, moved_of_ne (by simp) (by simp)]
  exact h

variable (henv : Reports env) (hw : Steady n w f)

include henv hw

/-- A candidate is the next token, with its manifest; without one nothing but manifests has
changed. -/
theorem preparePendingDeleteCandidate_leaves (originalPath : Text) :
    Leaves (preparePendingDeleteCandidate originalPath) env w
    (fun candidate w' => ∃ f', Steady (n + 1) w' f' ∧ EqOff (newManifests n) f f' ∧
      ∀ names, candidate = some names →
        names = (.deletionPending n, .deletionManifest n) ∧ Manifested n originalPath f')
    (fun _ w' => ∃ f', Steady (n + 1) w' f' ∧ EqOff (newManifests n) f f') := by
  refine (randomToken_leaves hw).andThen ?_
  rintro token w₁ ⟨hw₁, rfl⟩
  refine (writePendingManifest_leaves henv hw₁ (Nat.lt_succ_self token) originalPath).attempt ?_ ?_
  · rintro name w₂ ⟨rfl, f', hw₂, hhere, hf'⟩
    refine ⟨f', hw₂, hf'.mono (manifest_subset le_rfl), ?_⟩
    rintro names ⟨⟩
    exact ⟨rfl, hhere⟩
  · rintro error w₂ ⟨f', hw₂, hf'⟩
    dsimp only
    split
    · exact ⟨f', hw₂, hf'.mono (manifest_subset le_rfl), nofun⟩
    · exact ⟨f', hw₂, hf'.mono (manifest_subset le_rfl)⟩

theorem removePendingManifest_leaves (token : ℕ) :
    Leaves (removePendingManifest (.deletionManifest token)) env w
    (fun _ w' => ∃ f', Steady n w' f' ∧ EqOff {.deletionManifest token} f f')
    (fun _ w' => ∃ f', Steady n w' f' ∧ EqOff {.deletionManifest token} f f') := by
  have hmem : StagingName.deletionManifest token ∈ ({.deletionManifest token} : Set StagingName) :=
    rfl
  refine (removeRecord_leaves henv hw _).weaken (fun _ _ h => ⟨_, h, EqOff.update f hmem none⟩)
    ?_
  rintro _ w' (hw' | hw')
  · exact ⟨f, hw', .refl _ f⟩
  · exact ⟨_, hw', EqOff.update f hmem none⟩

/-- A probe that finds the entry is certain; all others may have failed. -/
theorem probe_leaves (location : Location) (identity : ℕ × ℕ) (kind : EntryKind) :
    Leaves (Action.attempt (entryIdentityState location identity kind)) env w
    (fun state w' => Steady n w' f ∧
      (state = .ok .expected → identityOf (f location) identity kind = .expected))
    (fun (_ : IoError) _ => False) := by
  refine Action.meets_attempt.mpr ((entryIdentityState_leaves henv hw location identity kind).weaken
    ?_ (fun _ _ h => ⟨h, nofun⟩))
  rintro state w' ⟨hw', rfl⟩
  exact ⟨hw', Except.ok.inj⟩

/-- Another candidate is tried, or an error reported, only when the entry has not moved. -/
theorem reconcilePendingDeleteRename_leaves {f₀ : FileMap} (source : PendingDeleteSource)
    (hst : f = f₀ ∨ f = f₀.pending source.parent source.originalName token)
    (hfree : f₀ (.staged (.deletionPending token)) = none) (renameError : IoError) :
    Leaves (reconcilePendingDeleteRename source (.deletionPending token) (.deletionManifest token)
      renameError) env w
    (fun outcome w' =>
      (outcome = none → f = f₀ ∧ ∃ f', Steady n w' f' ∧
        EqOff {.deletionManifest token} f f') ∧
      ∀ stage, outcome = some stage → Steady n w' f ∧
        (f = f₀.pending source.parent source.originalName token ∧
            stage = .ready (.deletionPending token) (.deletionManifest token) ∨
          ∃ error, stage = .publishedUncertain error))
    (fun _ w' => f = f₀ ∧ ∃ f', Steady n w' f' ∧ EqOff {.deletionManifest token} f f') := by
  refine (probe_leaves henv hw _ source.identity source.kind).andThen ?_
  rintro pendingState w₁ ⟨hw₁, hpend⟩
  split
  · refine ⟨nofun, ?_⟩
    rintro stage ⟨⟩
    refine ⟨hw₁, .inl ⟨hst.resolve_left ?_, rfl⟩⟩
    rintro rfl
    exact ne_none_of_expected (hpend rfl) hfree
  refine (probe_leaves henv hw₁ _ source.identity source.kind).andThen ?_
  rintro sourceState w₂ ⟨hw₂, hsrc⟩
  split
  · rename_i hunch
    have hexp : sourceState = .ok .expected := by
      unfold sourceIsUnchangedAndPendingIsForeign at hunch
      split at hunch <;> first | rfl | cases hunch
    have hstay : f = f₀ := by
      refine hst.resolve_right ?_
      rintro rfl
      exact ne_none_of_expected (hsrc hexp) (moved_source (by simp))
    refine (bestEffort_leaves (removePendingManifest_leaves henv hw₂ token)).andThen ?_
    rintro - w₃ hw₃
    split
    · exact ⟨fun _ => ⟨hstay, hw₃⟩, nofun⟩
    · exact ⟨hstay, hw₃⟩
  · refine ⟨nofun, ?_⟩
    rintro stage ⟨⟩
    exact ⟨hw₂, .inr ⟨_, rfl⟩⟩

/-- The entry is pending, or that is uncertain; its manifest is there. -/
def PendingStaged (n : ℕ) (f : FileMap) (source : PendingDeleteSource)
    (stage : PendingDeleteStage) (w : World) : Prop :=
  ∃ token n' f', n ≤ token ∧ Steady n' w f' ∧
    Manifested token source.originalPath f' ∧
    (EqOff (newManifests n) (f.pending source.parent source.originalName token) f' ∧
        stage = .ready (.deletionPending token) (.deletionManifest token) ∨
      (EqOff (newManifests n) (f.pending source.parent source.originalName token) f' ∨
        EqOff (newManifests n) f f') ∧ ∃ error, stage = .publishedUncertain error)

/-- Nothing has changed but manifests. -/
def Unstaged (n : ℕ) (f : FileMap) (w : World) : Prop :=
  ∃ n' f', Steady n' w f' ∧ EqOff (newManifests n) f f'

omit henv hw in
/-- A later candidate has a later token, and so have its manifests. -/
theorem PendingStaged.of_later {f₁ : FileMap} {source : PendingDeleteSource}
    {stage : PendingDeleteStage} (hf₁ : EqOff (newManifests n) f f₁)
    (h : PendingStaged (n + 1) f₁ source stage w) : PendingStaged n f source stage w := by
  have hlat := newManifests_antitone (Nat.le_succ n)
  obtain ⟨token, n', f', hle, hw', hhere, hf'⟩ := h
  have hmoved : EqOff (newManifests n) (f.pending source.parent source.originalName token)
      (f₁.pending source.parent source.originalName token) := hf₁.act_move (hf₁.visible _ _) _
  refine ⟨token, n', f', by omega, hw', hhere, ?_⟩
  obtain ⟨hf', hready⟩ | ⟨hf', herr⟩ := hf'
  · exact .inl ⟨hmoved.trans (hf'.mono hlat), hready⟩
  · exact .inr ⟨hf'.imp (fun h => hmoved.trans (h.mono hlat))
      fun h => hf₁.trans (h.mono hlat), herr⟩

omit henv hw in
theorem Unstaged.of_later {f₁ : FileMap} (hf₁ : EqOff (newManifests n) f f₁)
    (h : Unstaged (n + 1) f₁ w) : Unstaged n f w := by
  obtain ⟨n', f', hw', hf'⟩ := h
  exact ⟨n', f', hw', hf₁.trans (hf'.mono (newManifests_antitone (Nat.le_succ n)))⟩

/-- The loop tries new candidates while the entry stays where it was. -/
theorem stagePendingDelete_leaves (source : PendingDeleteSource) (attempts : ℕ) :
    Leaves (stagePendingDelete source attempts) env w
    (PendingStaged n f source) (fun _ => Unstaged n f) := by
  induction attempts generalizing n w f with
  | zero => exact ⟨n, f, hw, .refl _ f⟩
  | succ attempts ih =>
    have hnext : ∀ w₁ f₁, Steady (n + 1) w₁ f₁ → EqOff (newManifests n) f f₁ →
        Leaves (stagePendingDelete source attempts) env w₁
        (PendingStaged n f source) (fun _ => Unstaged n f) := fun w₁ f₁ hw₁ hf₁ =>
      (ih hw₁).weaken (fun _ _ h => h.of_later hf₁) fun _ _ h => h.of_later hf₁
    refine (preparePendingDeleteCandidate_leaves henv hw source.originalPath).bind ?_ ?_
    swap
    · rintro _ w' ⟨f', hw', hf'⟩
      exact ⟨n + 1, f', hw', hf'⟩
    rintro candidate w₁ ⟨f₁, hw₁, hf₁, hnames⟩
    cases candidate with
    | none => exact hnext w₁ f₁ hw₁ hf₁
    | some names =>
      obtain ⟨rfl, hhere⟩ := hnames names rfl
      have hfree : f₁ (.staged (.deletionPending n)) = none := by
        rw [hf₁.staged _ (pending_not_manifest n n)]
        by_contra hne
        exact lt_irrefl n (hw.lawful _ hne)
      have hmovedOff : EqOff (newManifests n) (f.pending source.parent source.originalName n)
          (f₁.pending source.parent source.originalName n) := hf₁.act_move (hf₁.visible _ _) _
      refine (renameNoreplace_leaves henv hw₁ (show Location.drawnBefore (n + 1)
        (.staged (.deletionPending n)) from Nat.lt_succ_self n)).attempt ?_ ?_
      · intro _ w₂ hw₂
        exact ⟨n, n + 1, _, le_rfl, hw₂, hhere.of_pending _ _, .inl ⟨hmovedOff, rfl⟩⟩
      · intro error w₂ hw₂
        have hst : ∃ f₂, Steady (n + 1) w₂ f₂ ∧
            (f₂ = f₁ ∨ f₂ = f₁.pending source.parent source.originalName n) := by
          obtain hw₂ | hw₂ := hw₂
          · exact ⟨f₁, hw₂, .inl rfl⟩
          · exact ⟨_, hw₂, .inr rfl⟩
        obtain ⟨f₂, hw₂, hst⟩ := hst
        refine (reconcilePendingDeleteRename_leaves henv hw₂ source hst hfree error).bind ?_ ?_
        · rintro outcome w₃ ⟨hnone, hsome⟩
          cases outcome with
          | none =>
            obtain ⟨rfl, f₃, hw₃, hf₃⟩ := hnone rfl
            exact hnext w₃ f₃ hw₃ (hf₁.trans (hf₃.mono (manifest_subset le_rfl)))
          | some stage =>
            obtain ⟨hw₃, hstage⟩ := hsome stage rfl
            have hman : Manifested n source.originalPath f₂ := by
              obtain rfl | rfl := hst
              · exact hhere
              · exact hhere.of_pending _ _
            refine ⟨n, n + 1, f₂, le_rfl, hw₃, hman, ?_⟩
            obtain ⟨rfl, hready⟩ | herr := hstage
            · exact .inl ⟨hmovedOff, hready⟩
            · obtain rfl | rfl := hst
              · exact .inr ⟨.inr hf₁, herr⟩
              · exact .inr ⟨.inl hmovedOff, herr⟩
        · rintro _ w₃ ⟨rfl, f₃, hw₃, hf₃⟩
          exact ⟨n + 1, f₃, hw₃, hf₁.trans (hf₃.mono (manifest_subset le_rfl))⟩

theorem inspectPendingDelete_leaves (parent : Directory) (name : StagingName) (identity : ℕ × ℕ)
    (kind : EntryKind) : Leaves (inspectPendingDelete parent name identity kind) env w
    (fun _ w' => Steady n w' f) (fun _ w' => Steady n w' f) := by
  refine (openPath_leaves henv hw _).bind ?_ fun _ _ h => h.1
  rintro tombstone w₁ ⟨hw₁, -⟩
  split
  · exact hw₁
  have hfinish : ∀ w₂ (directoryNonEmpty : Bool), Steady n w₂ f → Leaves (do
      syncDirectory .staging
      syncDirectory (.directory parent)
      pure { kind, directoryNonEmpty : EntryStatus }) env w₂
      (fun _ w' => Steady n w' f) (fun _ w' => Steady n w' f) := by
    intro w₂ _ hw₂
    refine (syncDirectory_leaves henv hw₂ _).bind (fun _ w₃ hw₃ => ?_) fun _ _ h => h
    exact (syncDirectory_leaves henv hw₃ _).bind (fun _ _ h => h) fun _ _ h => h
  cases kind with
  | file => exact hfinish w₁ false hw₁
  | directory =>
    exact (scanNonEmpty_leaves henv hw₁ _).bind (fun found w₂ hw₂ => hfinish w₂ found hw₂)
      fun _ _ h => h

/-- An error is reported only when the entry is back at its name; otherwise it is still pending,
with its manifest. -/
theorem reconcileFailedDeleteStage_leaves {f₀ : FileMap} {n₀ : ℕ} {parent : Directory}
    {originalName originalPath : Text} (htok : n₀ ≤ token)
    (hfree : f₀ (.staged (.deletionPending token)) = none)
    (hmoved : EqOff (newManifests n₀) (f₀.pending parent originalName token) f)
    (hman : Manifested token originalPath f) (originalError : IoError) (identity : ℕ × ℕ)
    (kind : EntryKind) : Leaves (reconcileFailedDeleteStage originalError (.deletionPending token)
      (.deletionManifest token) parent originalName originalPath identity kind) env w
    (fun outcome w' => (∃ error, outcome = .publishedUncertain originalPath kind error) ∧
      ∃ f', Steady n w' f' ∧
        (EqOff (newManifests n₀) (f₀.pending parent originalName token) f' ∧
            Manifested token originalPath f' ∨ EqOff (newManifests n₀) f₀ f'))
    (fun _ w' => ∃ f', Steady n w' f' ∧ EqOff (newManifests n₀) f₀ f') := by
  have hpend : f (.staged (.deletionPending token)) =
      f₀.pending parent originalName token (.staged (.deletionPending token)) :=
    hmoved.staged _ (pending_not_manifest n₀ token)
  have hrestored : EqOff (newManifests n₀) f₀
      (f.moved (.staged (.deletionPending token)) (.visible parent originalName)) := by
    have hback := hmoved.act_move hpend (.visible parent originalName)
    rwa [FileMap.pending, moved_moved (by simp) hfree] at hback
  refine (attempt_leaves (renameNoreplace_leaves henv hw
    (show Location.drawnBefore n (.visible parent originalName) from trivial))).andThen ?_
  rintro rollback w₁ ⟨f₁, hw₁, hst⟩
  have hwhere : EqOff (newManifests n₀) (f₀.pending parent originalName token) f₁ ∧
      Manifested token originalPath f₁ ∨ EqOff (newManifests n₀) f₀ f₁ := by
    obtain ⟨rfl, -⟩ | rfl := hst
    · exact .inl ⟨hmoved, hman⟩
    · exact .inr hrestored
  refine (probe_leaves henv hw₁ _ identity kind).andThen ?_
  rintro sourceState w₂ ⟨hw₂, hsrc⟩
  refine (probe_leaves henv hw₂ _ identity kind).andThen ?_
  rintro pendingState w₃ ⟨hw₃, -⟩
  have hsync : ∀ w₄ target, Steady n w₄ f₁ →
      Leaves (Action.attempt (syncDirectory target)) env w₄ (fun _ w' => Steady n w' f₁)
      (fun (_ : IoError) _ => False) := fun w₄ target hw₄ =>
    Action.meets_attempt.mpr (syncDirectory_leaves henv hw₄ target)
  refine (hsync w₃ _ hw₃).andThen fun parentSync w₄ hw₄ => ?_
  refine (hsync w₄ _ hw₄).andThen fun stagingSync w₅ hw₅ => ?_
  dsimp only
  split
  · -- The entry was found at its name, so the rename back has happened.
    have hback : EqOff (newManifests n₀) f₀ f₁ := by
      obtain ⟨rfl, -⟩ | rfl := hst
      · refine absurd ?_ (ne_none_of_expected (hsrc rfl))
        rw [hmoved.visible]
        exact moved_source (by simp)
      · exact hrestored
    have haft : ∀ f', EqOff {.deletionManifest token} f₁ f' → EqOff (newManifests n₀) f₀ f' :=
      fun f' hf' => hback.trans (hf'.mono (manifest_subset htok))
    refine (removePendingManifest_leaves henv hw₅ token).attempt ?_ ?_
    · rintro - w₆ ⟨f', hw₆, hf'⟩
      exact ⟨f', hw₆, haft f' hf'⟩
    · rintro manifestError w₆ ⟨f', hw₆, hf'⟩
      exact ⟨⟨_, rfl⟩, f', hw₆, .inr (haft f' hf')⟩
  · exact ⟨⟨_, rfl⟩, f₁, hw₅, hwhere⟩

/-- A delete of an existing entry. -/
structure DeleteAttempt (forbidSymlinks : Bool) (f : FileMap) (relative : Text) where
  parentPath : List Text
  originalName : Text
  parent : Directory
  source : Entry
  kind : EntryKind
  split : splitParentName relative = .ok (parentPath, originalName)
  resolves : resolve forbidSymlinks f parentPath = some parent
  here : f (.visible parent originalName) = some source
  kind_eq : sourceKind "deletion target is not a regular file or directory" source = .ok kind

namespace DeleteAttempt

variable {forbidSymlinks : Bool} {relative : Text} (d : DeleteAttempt forbidSymlinks f relative)

def originalPath : Text := joinRelative d.parentPath d.originalName

/-- The files once the entry is pending. -/
def pending (token : ℕ) : FileMap := f.pending d.parent d.originalName token

end DeleteAttempt

/-- A successful staging has made the entry pending, and an uncertain one may have; as long as it
is pending its manifest is there. An error leaves the entry where it was. -/
theorem stageDelete_leaves (relative : Text) :
    Leaves (stageDelete relative) env w
    (fun outcome w' => ∃ (d : DeleteAttempt env.forbidSymlinks f relative) (token n' : ℕ)
        (f' : FileMap), Steady n' w' f' ∧
      (EqOff (newManifests n) (d.pending token) f' ∧ Manifested token d.originalPath f' ∨
        EqOff (newManifests n) f f' ∧ ∀ staged, outcome ≠ .ready staged))
    (fun _ => Unstaged n f) := by
  have hfail : ∀ w', Steady n w' f → Unstaged n f w' :=
    fun w' hw' => ⟨n, f, hw', .refl _ f⟩
  refine ofExcept (fun (parentPath, originalName) hsplit => ?_) fun _ => hfail w hw
  dsimp only
  refine (bindDirectory_leaves henv hw parentPath).bind ?_ fun _ w' h => hfail w' h
  rintro parent w₁ ⟨hw₁, hresolves⟩
  refine (duplicate_leaves henv hw₁).bind (fun _ w₂ hw₂ => ?_) fun _ w' h => hfail w' h
  refine (duplicate_leaves henv hw₂).bind (fun _ w₃ hw₃ => ?_) fun _ w' h => hfail w' h
  refine (openPath_leaves henv hw₃ _).bind ?_ fun _ w' h => hfail w' h.1
  rintro source w₄ ⟨hw₄, hhere⟩
  refine ofExcept (fun kind hkind => ?_) fun _ => hfail w₄ hw₄
  let d : DeleteAttempt env.forbidSymlinks f relative :=
    ⟨parentPath, originalName, parent, source, kind, hsplit, hresolves, hhere, hkind⟩
  refine bind (Q := fun _ w' => w' = w₄) (E := fun _ _ => False) rfl ?_
    fun _ _ h => h.elim
  rintro attempts w₆ rfl
  refine (stagePendingDelete_leaves henv hw₄ _ attempts).bind ?_ fun _ _ h => h
  rintro stage w₆ ⟨token, n', f', hle, hw₆, hman, hstage⟩
  obtain ⟨hmoved, rfl⟩ | ⟨hmoved, error, rfl⟩ := hstage
  · have hfree : f (.staged (.deletionPending token)) = none := by
      by_contra hne
      exact absurd (hw.lawful _ hne) (not_lt.mpr hle)
    refine (inspectPendingDelete_leaves henv hw₆ _ _ _ _).attempt ?_ ?_
    · exact fun status w₇ hw₇ => ⟨d, token, n', f', hw₇, .inl ⟨hmoved, hman⟩⟩
    · intro error w₇ hw₇
      refine (reconcileFailedDeleteStage_leaves henv hw₇ hle hfree hmoved hman error _ _).weaken
        ?_ ?_
      · rintro outcome w₈ ⟨⟨_, rfl⟩, f₈, hw₈, hf₈⟩
        exact ⟨d, token, n', f₈, hw₈, hf₈.imp_right fun h => ⟨h, by simp⟩⟩
      · rintro _ w₈ ⟨f₈, hw₈, hf₈⟩
        exact ⟨n', f₈, hw₈, hf₈⟩
  · exact ⟨d, token, n', f', hw₆, hmoved.imp (fun h => ⟨h, hman⟩) fun h => ⟨h, by simp⟩⟩

end Delete

end VaultLink
