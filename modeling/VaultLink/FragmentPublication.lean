import VaultLink.StagingOutcomes

/-!
# Publication of an upload fragment

`PendingUpload`: the fragment is moved from private staging to its destination, and when the
move reports an error the probes decide whether it happened. Together with the staging of
renames and deletes this is everything that moves an entry between two names, and none of it
reports a failure for a move that happened.
-/
namespace VaultLink

section Model

/-- `PublishOutcome`, with its errors. -/
inductive Publication
  | durable
  | publishedSyncUncertain (error : IoError)
  | publishedUncertain (error : IoError)

structure PendingUpload where
  destination : Option Directory
  temporaryName : Text
  /-- `active_key` is set. -/
  active : Bool
  expectedIdentity : ℕ × ℕ
  allowReplace : Bool
  published : Bool

def uploadDestinationName (name : Text) : Except IoError Text :=
  if safeAdminFilename name then .ok name
  else .error ⟨.invalidInput, "upload destination uses an invalid or private name"⟩

def ambiguousPublicationError (renameError : IoError)
    (destinationState stagingState : Except IoError EntryIdentityState) : IoError :=
  ⟨renameError.kind, s!"upload rename outcome is ambiguous after {renameError.message}; "
    ++ s!"destination {describeIdentity destinationState}; "
    ++ s!"staging {describeIdentity stagingState}"⟩

namespace PendingUpload

variable (self : PendingUpload)

def boundDestination : Except IoError Directory :=
  match self.destination with
  | some destination => .ok destination
  | none => .error ⟨.invalidInput, "upload destination is not bound"⟩

def validateStagingIdentity : FsM Unit := do
  if !self.active then
    Action.fail ⟨.invalidInput, "upload is no longer active"⟩
  else
    let current ← openPath (.fragment self.temporaryName)
    if !current.is self.expectedIdentity .file then
      Action.fail ⟨.permissionDenied, "upload staging entry changed before atomic publication"⟩

def syncDirectory : FsM Unit := do
  let destination ← Action.ofExcept self.boundDestination
  VaultLink.syncDirectory (.directory destination)
  VaultLink.syncDirectory .uploads

/-- Neither name is touched any more when the upload is dropped. -/
def markPublished : PendingUpload := { self with published := true, active := false }

def finishPublication : FsM (Publication × PendingUpload) := do
  match ← Action.attempt self.syncDirectory with
  | .ok () => pure (.durable, self.markPublished)
  | .error error => pure (.publishedSyncUncertain error, self.markPublished)

def finishUncertainPublication (publicationError : IoError) :
    FsM (Publication × PendingUpload) := do
  match ← Action.attempt self.syncDirectory with
  | .ok () => pure (.publishedUncertain publicationError, self.markPublished)
  | .error syncError => pure (.publishedUncertain ⟨publicationError.kind,
      publicationError.message ++
        s!"; publication directory sync also failed: {syncError.message}"⟩, self.markPublished)

def reconcilePublicationError (destination : Directory) (name : Text) (renameError : IoError) :
    FsM (Publication × PendingUpload) := do
  let destinationState ← Action.attempt
    (entryIdentityState (.visible destination name) self.expectedIdentity .file)
  match destinationState with
  | .ok .expected => self.finishPublication
  | destinationState =>
    let stagingState ← Action.attempt
      (entryIdentityState (.fragment self.temporaryName) self.expectedIdentity .file)
    match stagingState with
    | .ok .expected => Action.fail renameError
    | stagingState =>
      self.finishUncertainPublication
        (ambiguousPublicationError renameError destinationState stagingState)

/-- The common part of `publish` and `publish_replace`, which differ in the call they make. -/
def publishWith (rename : Location → Location → FsM Unit) (name : Text) :
    FsM (Publication × PendingUpload) := do
  let name ← Action.ofExcept (uploadDestinationName name)
  self.validateStagingIdentity
  let destination ← Action.ofExcept self.boundDestination
  duplicate
  match ← Action.attempt (rename (.fragment self.temporaryName) (.visible destination name)) with
  | .ok () => self.finishPublication
  | .error error => self.reconcilePublicationError destination name error

def publish (name : Text) : FsM (Publication × PendingUpload) :=
  self.publishWith renameNoreplace name

def publishReplace (name : Text) : FsM (Publication × PendingUpload) := do
  if !self.allowReplace then
    Action.fail ⟨.permissionDenied,
      "replacement publication is disabled for external-writer storage"⟩
  else self.publishWith renameReplace name

end PendingUpload

end Model

section Rules

namespace PendingUpload

variable {n : ℕ} {w : World} {f : FileMap} {env : Environment}
  (henv : Reports env) (self : PendingUpload)

include henv

theorem syncDirectory_leaves (hw : Steady n w f) : Leaves self.syncDirectory env w
    (fun _ w' => Steady n w' f) (fun _ w' => Steady n w' f) := by
  refine Action.Meets.ofExcept (fun destination _ => ?_) fun _ => hw
  refine (VaultLink.syncDirectory_leaves henv hw _).bind (fun _ w₂ hw₂ => ?_) fun _ _ h => h
  exact VaultLink.syncDirectory_leaves henv hw₂ _

theorem finishPublication_leaves (hw : Steady n w f) : Leaves self.finishPublication env w
    (fun _ w' => Steady n w' f) (fun _ _ => False) :=
  (self.syncDirectory_leaves henv hw).attempt (fun _ _ h => h) fun _ _ h => h

theorem finishUncertainPublication_leaves (hw : Steady n w f) (error : IoError) :
    Leaves (self.finishUncertainPublication error) env w
    (fun result w' => Steady n w' f ∧ ∃ error, result.1 = .publishedUncertain error)
    (fun _ _ => False) :=
  (self.syncDirectory_leaves henv hw).attempt (fun _ _ h => ⟨h, _, rfl⟩) fun _ _ h => ⟨h, _, rfl⟩

/-- An error is reported only when the fragment was found in staging, so it has not moved. -/
theorem reconcilePublicationError_leaves {f₀ : FileMap} (hw : Steady n w f)
    {destination : Directory} {name : Text}
    (hst : f = f₀ ∨ f = f₀.moved (.fragment self.temporaryName) (.visible destination name))
    (renameError : IoError) :
    Leaves (self.reconcilePublicationError destination name renameError) env w
    (fun result w' => Steady n w' f ∧
      (identityOf (f (.visible destination name)) self.expectedIdentity .file = .expected ∨
        ∃ error, result.1 = .publishedUncertain error))
    (fun _ w' => f = f₀ ∧ Steady n w' f) := by
  refine (probe_leaves henv hw _ self.expectedIdentity .file).andThen ?_
  rintro destinationState w₁ ⟨hw₁, hdst⟩
  split
  · exact (self.finishPublication_leaves henv hw₁).weaken
      (fun _ _ h => ⟨h, .inl (hdst rfl)⟩) (fun _ _ h => h.elim)
  refine (probe_leaves henv hw₁ _ self.expectedIdentity .file).andThen ?_
  rintro stagingState w₂ ⟨hw₂, hstaging⟩
  split
  · refine ⟨hst.resolve_right ?_, hw₂⟩
    rintro rfl
    exact ne_none_of_expected (hstaging rfl) (moved_source (by simp))
  · exact (self.finishUncertainPublication_leaves henv hw₂ _).weaken
      (fun _ _ h => ⟨h.1, .inr h.2⟩) (fun _ _ h => h.elim)

/-- The fragment is at its destination or still staged; what is not uncertain has been found at
the destination. -/
def Reported (f : FileMap) (name : Text) (result : Publication × PendingUpload) (f' : FileMap) :
    Prop :=
  ∃ destination, self.destination = some destination ∧
    (f' = f.moved (.fragment self.temporaryName) (.visible destination name) ∨ f' = f) ∧
    (identityOf (f' (.visible destination name)) self.expectedIdentity .file = .expected ∨
      ∃ error, result.1 = .publishedUncertain error)

theorem validateStagingIdentity_leaves (hw : Steady n w f) :
    Leaves self.validateStagingIdentity env w
    (fun _ w' => Steady n w' f ∧ ∃ entry, f (.fragment self.temporaryName) = some entry ∧
      entry.is self.expectedIdentity .file = true)
    (fun _ w' => Steady n w' f) := by
  unfold validateStagingIdentity
  split
  · exact hw
  refine (openPath_leaves henv hw _).bind ?_ fun _ _ h => h.1
  rintro entry w₁ ⟨hw₁, hent⟩
  split
  · exact hw₁
  · rename_i his
    exact ⟨hw₁, entry, hent, by simpa using his⟩

theorem publishWith_leaves (hw : Steady n w f) {rename : Location → Location → FsM Unit}
    (hrename : ∀ w₁ source destination, Steady n w₁ f →
      destination.drawnBefore n → Leaves (rename source destination) env w₁
      (fun _ w' => Steady n w' (f.moved source destination))
      (fun _ w' => Steady n w' f ∨ Steady n w' (f.moved source destination)))
    (name : Text) : Leaves (self.publishWith rename name) env w
    (fun result w' => ∃ f', Steady n w' f' ∧ self.Reported f name result f')
    (fun _ w' => Steady n w' f) := by
  refine Action.Meets.ofExcept (fun found hfound => ?_) fun _ => hw
  obtain rfl : name = found := by
    unfold uploadDestinationName at hfound
    split at hfound
    · exact Except.ok.inj hfound
    · cases hfound
  refine (self.validateStagingIdentity_leaves henv hw).bind ?_ fun _ _ h => h
  rintro - w₂ ⟨hw₂, entry, hent, his⟩
  refine Action.Meets.ofExcept (fun destination hbound => ?_) fun _ => hw₂
  have hdst : self.destination = some destination := by
    unfold boundDestination at hbound
    split at hbound
    · rwa [← Except.ok.inj hbound]
    · cases hbound
  refine (duplicate_leaves henv hw₂).bind (fun _ w₄ hw₄ => ?_) fun _ _ h => h
  refine (hrename w₄ _ (.visible destination _) hw₄ trivial).attempt ?_ ?_
  · intro _ w₅ hw₅
    refine (self.finishPublication_leaves henv hw₅).weaken ?_ (fun _ _ h => h.elim)
    intro result w' hw'
    refine ⟨_, hw', destination, hdst, .inl rfl, .inl ?_⟩
    rw [moved_destination hent]
    simp [identityOf, his]
  · intro error w₅ hw₅
    have hst : ∃ f₅, Steady n w₅ f₅ ∧ (f₅ = f ∨
        f₅ = f.moved (.fragment self.temporaryName) (.visible destination name)) := by
      obtain hw₅ | hw₅ := hw₅
      · exact ⟨f, hw₅, .inl rfl⟩
      · exact ⟨_, hw₅, .inr rfl⟩
    obtain ⟨f₅, hw₅, hst⟩ := hst
    refine (self.reconcilePublicationError_leaves henv hw₅ hst error).weaken ?_ ?_
    · rintro result w' ⟨hw', hfound⟩
      exact ⟨f₅, hw', destination, hdst, hst.symm, hfound⟩
    · rintro _ w' ⟨rfl, hw'⟩
      exact hw'

theorem publish_leaves (hw : Steady n w f) (name : Text) : Leaves (self.publish name) env w
    (fun result w' => ∃ f', Steady n w' f' ∧ self.Reported f name result f')
    (fun _ w' => Steady n w' f) :=
  self.publishWith_leaves henv hw (fun _ _ _ hw₁ => renameNoreplace_leaves henv hw₁) name

theorem publishReplace_leaves (hw : Steady n w f) (name : Text) :
    Leaves (self.publishReplace name) env w
    (fun result w' => ∃ f', Steady n w' f' ∧ self.Reported f name result f')
    (fun _ w' => Steady n w' f) := by
  unfold publishReplace
  split
  · exact hw
  exact self.publishWith_leaves henv hw
    (fun _ _ _ hw₁ => renameReplace_leaves henv hw₁) name

end PendingUpload

end Rules

section Reports

/-- The entry is under its new name, or that is uncertain; the journal is there. -/
def RenameReported (forbidSymlinks : Bool) (w : World) (relative newName : Text)
    (outcome : RenameStageOutcome) (w' : World) : Prop :=
  ∃ (r : RenameAttempt forbidSymlinks w.view.map relative newName) (token : ℕ),
    r.Recorded token w'.view.map ∧
    (EqOff (newJournals w.tokens) r.moved w'.view.map ∨
      EqOff (newJournals w.tokens) w.view.map w'.view.map ∧ ∀ staged, outcome ≠ .ready staged)

/-- The entry is pending and its manifest is there, or it is at its name and the outcome is
uncertain. -/
def DeleteReported (forbidSymlinks : Bool) (w : World) (relative : Text)
    (outcome : DeleteStageOutcome) (w' : World) : Prop :=
  ∃ (d : DeleteAttempt forbidSymlinks w.view.map relative) (token : ℕ),
    EqOff (newManifests w.tokens) (d.pending token) w'.view.map ∧
        Manifested token d.originalPath w'.view.map ∨
      EqOff (newManifests w.tokens) w.view.map w'.view.map ∧ ∀ staged, outcome ≠ .ready staged

/-- Any call may fail, and any rename may happen and report any error. An error of a staging or
publication then still means that nothing was moved, and what was moved can be reconciled. -/
theorem staging_reports_moves (env : Environment) (henv : Reports env) (w : World)
    (hw : w.Sound) :
    (∀ relative newName, Leaves (stageRenameWithOutcome relative newName) env w
      (RenameReported env.forbidSymlinks w relative newName)
      (fun _ w' => EqOff (newJournals w.tokens) w.view.map w'.view.map)) ∧
    (∀ relative, Leaves (stageDelete relative) env w
      (DeleteReported env.forbidSymlinks w relative)
      (fun _ w' => EqOff (newManifests w.tokens) w.view.map w'.view.map)) ∧
    (∀ (upload : PendingUpload) name, Leaves (upload.publish name) env w
      (fun result w' => upload.Reported w.view.map name result w'.view.map)
      (fun _ w' => w'.view.map = w.view.map)) ∧
    ∀ (upload : PendingUpload) name, Leaves (upload.publishReplace name) env w
      (fun result w' => upload.Reported w.view.map name result w'.view.map)
      (fun _ w' => w'.view.map = w.view.map) := by
  have hsteady := Steady.of_sound hw
  refine ⟨fun relative newName => ?_, fun relative => ?_, fun upload name => ?_,
    fun upload name => ?_⟩
  · refine (stageRenameWithOutcome_leaves henv hsteady relative newName).weaken ?_ ?_
    · rintro outcome w' ⟨r, token, n', f', hw', hrecd, hmoved⟩
      obtain rfl := hw'.view
      exact ⟨r, token, hrecd, hmoved⟩
    · rintro _ w' ⟨n', f', hw', hf'⟩
      exact hw'.view ▸ hf'
  · refine (stageDelete_leaves henv hsteady relative).weaken ?_ ?_
    · rintro outcome w' ⟨d, token, n', f', hw', hmoved⟩
      obtain rfl := hw'.view
      exact ⟨d, token, hmoved⟩
    · rintro _ w' ⟨n', f', hw', hf'⟩
      exact hw'.view ▸ hf'
  · refine (upload.publish_leaves henv hsteady name).weaken ?_ (fun _ _ h => h.view)
    rintro result w' ⟨f', hw', hrep⟩
    exact hw'.view ▸ hrep
  · refine (upload.publishReplace_leaves henv hsteady name).weaken ?_ (fun _ _ h => h.view)
    rintro result w' ⟨f', hw', hrep⟩
    exact hw'.view ▸ hrep

/-- Every rename happens and reports that the destination exists. -/
def lyingRenames : Environment where
  fault _ syscall := if syscall.isRename then .loses .alreadyExists else .proceeds
  forbidSymlinks := false

theorem lyingRenames_reports : Reports lyingRenames := by
  intro time syscall kind h
  simp only [lyingRenames] at h
  split at h
  · exact .inr (by assumption)
  · cases h

/-- A file in the root and a fragment that is to be published. -/
def fragmentWorld : World where
  files :=
    { base := ((∅ : Namespace).insert (.visible .root "a".toList)
          (.object ⟨1, 2, Nat.one_ne_zero, by decide⟩ .file)).insert (.fragment "part".toList)
        (.object ⟨1, 3, Nat.one_ne_zero, by decide⟩ .file)
      log := [] }
  db := .empty
  clock := 0
  tokens := 0

theorem fragmentWorld_pristine : fragmentWorld.Pristine where
  log := rfl
  staged := by
    intro name hname
    refine absurd ?_ hname
    show AList.lookup _ (AList.insert _ _ _) = none
    rw [AList.lookup_insert_ne (by simp), AList.lookup_insert_ne (by simp), AList.lookup_empty]

theorem staging_reports_moves_lying :
    (stageDelete "a".toList lyingRenames fragmentWorld).isOk = true ∧
    Leaves (stageDelete "a".toList) lyingRenames fragmentWorld
      (DeleteReported false fragmentWorld "a".toList)
      (fun _ w' => EqOff (newManifests 0) fragmentWorld.view.map w'.view.map) :=
  ⟨by decide +kernel, (staging_reports_moves lyingRenames lyingRenames_reports fragmentWorld
    fragmentWorld_pristine.sound).2.1 "a".toList⟩

end Reports

end VaultLink
