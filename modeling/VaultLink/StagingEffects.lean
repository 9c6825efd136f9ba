import VaultLink.JournalRules
import VaultLink.StagingSoundness

/-!
# What the helpers of the protocols do to the files in sight

Identity probes, journals and manifests under arbitrary faults. A helper that ends with an
error may have done all of its work or none; what it cannot have touched is everything
outside its own names, and `EqOff` says so.
-/
namespace VaultLink

open StagingName
open Function
open Mutation

section Frames

/-- The two agree on the visible tree, on the upload fragments and on all private names outside the
set. -/
structure EqOff (names : Set StagingName) (f f' : FileMap) : Prop where
  visible : ∀ directory name, f' (.visible directory name) = f (.visible directory name)
  staged : ∀ name, name ∉ names → f' (.staged name) = f (.staged name)
  fragment : ∀ name, f' (.fragment name) = f (.fragment name)

namespace EqOff

variable {names names' : Set StagingName} {f f' f'' : FileMap} {name other : StagingName}

theorem refl (names : Set StagingName) (f : FileMap) : EqOff names f f :=
  ⟨fun _ _ => rfl, fun _ _ => rfl, fun _ => rfl⟩

theorem trans (h : EqOff names f f') (h' : EqOff names f' f'') : EqOff names f f'' :=
  ⟨fun directory name => (h'.visible directory name).trans (h.visible directory name),
    fun name hname => (h'.staged name hname).trans (h.staged name hname),
    fun name => (h'.fragment name).trans (h.fragment name)⟩

theorem mono (h : EqOff names f f') (hsub : names ⊆ names') : EqOff names' f f' :=
  ⟨h.visible, fun name hname => h.staged name fun hmem => hname (hsub hmem), h.fragment⟩

theorem update (f : FileMap) (hname : name ∈ names) (entry : Option Entry) :
    EqOff names f (update f (.staged name) entry) where
  visible := fun directory other => update_of_ne (by simp) _ _
  staged := by
    intro other hoth
    have hne : other ≠ name := by
      rintro rfl
      exact hoth hname
    exact update_of_ne (by simpa using hne) _ _
  fragment := fun other => update_of_ne (by simp) _ _

theorem create (f : FileMap) (hname : name ∈ names) :
    EqOff names f (act (.create name) f) := update f hname _

theorem write (f : FileMap) (hname : name ∈ names) (content : Content) :
    EqOff names f (act (.write name content) f) := by
  rw [act]
  split
  · exact update f hname _
  · exact refl names f

theorem moved (f : FileMap) (hname : name ∈ names) (hoth : other ∈ names) :
    EqOff names f (f.moved (.staged name) (.staged other)) := by
  rw [FileMap.moved, act]
  split
  · exact refl names f
  · exact (update f hname none).trans (update _ hoth _)

end EqOff

/-- The temporary names of journals. -/
def temporaries : Set StagingName := {name | isFileOperationTemporaryName name = true}

/-- The temporaries and one journal. -/
def journalNames (token : ℕ) : Set StagingName := insert (.operation token) temporaries

/-- The temporaries and all journals with a token from `n` on. -/
def newJournals (n : ℕ) : Set StagingName :=
  temporaries ∪ {name | ∃ token, n ≤ token ∧ name = .operation token}

theorem temporary_mem (token : ℕ) : operationTemporary token ∈ temporaries := rfl

theorem journalNames_subset {n token : ℕ} (h : n ≤ token) : journalNames token ⊆ newJournals n := by
  rintro name (rfl | hname)
  · exact .inr ⟨token, h, rfl⟩
  · exact .inl hname

end Frames

variable {n : ℕ} {w : World} {f : FileMap} {env : Environment}

section Identity

variable (henv : Reports env) (hw : Steady n w f)

include henv hw

theorem entryIdentityState_leaves (location : Location) (identity : ℕ × ℕ) (kind : EntryKind) :
    Leaves (entryIdentityState location identity kind) env w
    (fun state w' => Steady n w' f ∧ state = identityOf (f location) identity kind)
    (fun _ w' => Steady n w' f) := by
  refine (openPath_leaves henv hw location).attempt ?_ ?_
  · rintro entry w' ⟨hw', hent⟩
    exact ⟨hw', by simp [identityOf, hent]⟩
  · rintro error w' ⟨hw', ⟨hkind, hent⟩ | hkind⟩
    · simp only [hkind]
      exact ⟨hw', by simp [identityOf, hent]⟩
    · simp only [hkind]
      exact hw'

end Identity

section Records

/-- An action that is only attempted. -/
theorem bestEffort_leaves {m : FsM Unit} {Q : World → Prop}
    (hm : Leaves m env w (fun _ => Q) (fun _ => Q)) :
    Leaves (bestEffort m) env w (fun _ => Q) (fun _ _ => False) :=
  Action.Meets.attempt hm (fun _ _ h => h) fun _ _ h => h

variable (henv : Reports env) (hw : Steady n w f)

include henv hw

theorem removeRecord_leaves (name : StagingName) : Leaves (removeRecord name) env w
    (fun _ w' => Steady n w' (update f (.staged name) none))
    (fun _ w' => Steady n w' f ∨
      Steady n w' (update f (.staged name) none)) := by
  refine (unlink_leaves henv hw name).attempt ?_ ?_
  · intro _ w₁ hw₁
    exact (syncDirectory_leaves henv hw₁ .staging).weaken (fun _ _ h => h) (fun _ _ h => .inr h)
  · rintro error w₁ (⟨hw₁, hnone⟩ | ⟨hkind, hw₁⟩)
    · by_cases hkind : error.kind = .notFound
      · simp only [hkind, if_true]
        have hsame : update f (.staged name) none = f :=
          update_eq_self_iff.mpr (hnone hkind).symm
        rwa [← hsame] at hw₁
      · simp only [hkind, if_false]
        exact .inl hw₁
    · simp only [hkind, reduceCtorEq, if_false]
      exact .inr hw₁

theorem discardTemporary_leaves (name : StagingName) : Leaves (discardTemporary name) env w
    (fun _ w' => Steady n w' f ∨
      Steady n w' (update f (.staged name) none))
    (fun _ _ => False) := by
  have hunlink : Leaves (unlink name) env w
      (fun _ w' => Steady n w' f ∨
        Steady n w' (update f (.staged name) none))
      (fun _ w' => Steady n w' f ∨
        Steady n w' (update f (.staged name) none)) := by
    refine (unlink_leaves henv hw name).weaken (fun _ _ h => .inr h) ?_
    rintro error w' (⟨hw', -⟩ | ⟨-, hw'⟩)
    · exact .inl hw'
    · exact .inr hw'
  refine (bestEffort_leaves hunlink).bind ?_ fun _ _ h => h
  rintro - w₁ (hw₁ | hw₁)
  · exact bestEffort_leaves ((syncDirectory_leaves henv hw₁ .staging).weaken (fun _ _ h => .inl h)
      (fun _ _ h => .inl h))
  · exact bestEffort_leaves ((syncDirectory_leaves henv hw₁ .staging).weaken (fun _ _ h => .inr h)
      (fun _ _ h => .inr h))

/-- A journal is written under its temporary name and published. -/
theorem publishOperation_leaves {token : ℕ} {operation : DurableFileOperation}
    {publish : FsM Unit}
    (hpublish : ∀ w₁ f₁, Steady n w₁ f₁ → Leaves publish env w₁
      (fun _ w' => Steady n w'
        (f₁.moved (.staged (.operationTemporary token)) (.staged (.operation token))))
      (fun _ w' => Steady n w' f₁ ∨ Steady n w'
        (f₁.moved (.staged (.operationTemporary token)) (.staged (.operation token))))) :
    let f₁ := act (.write (.operationTemporary token) (.operation operation)) f
    let f₂ := f₁.moved (.staged (.operationTemporary token)) (.staged (.operation token))
    Leaves (publishOperation (.operationTemporary token) operation publish) env w
    (fun _ w' => Steady n w' f₂)
    (fun _ w' => ∃ g, Steady n w' g ∧ (EqOff temporaries f g ∨ g = f₂)) := by
  intro f₁ f₂
  have hf₁ : EqOff temporaries f f₁ := EqOff.write f (temporary_mem token) _
  have hwrite : Leaves (do
      writeRecord (.operationTemporary token) (.operation operation)
      syncFile (.operationTemporary token)
      publish) env w
      (fun _ w' => Steady n w' f₂)
      (fun _ w' => ∃ g, Steady n w' g ∧ (EqOff temporaries f g ∨ g = f₂)) := by
    refine (writeRecord_leaves henv hw _ _).bind (fun _ w₁ hw₁ => ?_) fun _ _ h =>
      h.elim (fun h => ⟨f, h, .inl (.refl _ f)⟩) fun h => ⟨f₁, h, .inl hf₁⟩
    refine (syncFile_leaves henv hw₁ _).bind (fun _ w₂ hw₂ => ?_) fun _ _ h => ⟨f₁, h, .inl hf₁⟩
    refine (hpublish w₂ f₁ hw₂).weaken (fun _ _ h => h) ?_
    rintro error w' (h | h)
    · exact ⟨f₁, h, .inl hf₁⟩
    · exact ⟨f₂, h, .inr rfl⟩
  refine hwrite.mapBind (fun _ w₁ hw₁ => ?_) fun _ _ h => h
  exact (syncDirectory_leaves henv hw₁ .staging).mapError fun _ _ h => ⟨f₂, h, .inr rfl⟩

end Records

section Journals

variable {operation : DurableFileOperation} {token : ℕ}

/-- A journal that was created, written and published is there. -/
theorem published_self (f : FileMap) (token : ℕ) (operation : DurableFileOperation) :
    (act (.write (.operationTemporary token) (.operation operation))
      (act (.create (.operationTemporary token)) f)).moved
        (.staged (.operationTemporary token)) (.staged (.operation token))
        (.staged (.operation token)) = some (.record (.operation operation)) := by
  simp [FileMap.moved, act]

theorem written_eqOff (f : FileMap) (token : ℕ) (operation : DurableFileOperation) :
    EqOff temporaries f (act (.write (.operationTemporary token) (.operation operation))
      (act (.create (.operationTemporary token)) f)) :=
  (EqOff.create f (temporary_mem token)).trans (EqOff.write _ (temporary_mem token) _)

theorem published_eqOff (f : FileMap) (token : ℕ) (operation : DurableFileOperation) :
    EqOff (journalNames token) f
      ((act (.write (.operationTemporary token) (.operation operation))
        (act (.create (.operationTemporary token)) f)).moved
          (.staged (.operationTemporary token)) (.staged (.operation token))) :=
  ((written_eqOff f token operation).mono (Set.subset_insert _ _)).trans
    (EqOff.moved _ (.inr (temporary_mem token)) (.inl rfl))

/-- Discarding the temporary leaves everything but temporaries as it was. -/
theorem discardTemporary_eqOff {g : FileMap} {names : Set StagingName} (henv : Reports env)
    (hw : Steady n w g) (hg : EqOff names f g) (hnames : temporaries ⊆ names) (token : ℕ) :
    Leaves (discardTemporary (.operationTemporary token)) env w
    (fun _ w' => ∃ f', Steady n w' f' ∧ EqOff names f f') (fun _ _ => False) := by
  refine (discardTemporary_leaves henv hw _).weaken ?_ (fun _ _ h => h)
  rintro - w' (hw' | hw')
  · exact ⟨g, hw', hg⟩
  · exact ⟨_, hw', hg.trans (EqOff.update g (hnames (temporary_mem token)) none)⟩

/-- The journal is there under a new token. Where renames lie there may be more of them. -/
def Journaled (n : ℕ) (f : FileMap) (operation : DurableFileOperation) (name : StagingName)
    (w : World) : Prop :=
  ∃ n' token f', n ≤ token ∧ token < n' ∧ name = .operation token ∧ Steady n' w f' ∧
    f' (.staged (.operation token)) = some (.record (.operation operation)) ∧
    EqOff (newJournals n) f f'

/-- Nothing has changed but journals. -/
def Unmoved (n : ℕ) (f : FileMap) (w : World) : Prop :=
  ∃ n' f', Steady n' w f' ∧ EqOff (newJournals n) f f'

section Writes

variable (henv : Reports env) (hw : Steady n w f)

include henv hw

theorem writeFileOperationAttempts_leaves (attempts : ℕ) :
    Leaves (writeFileOperationAttempts operation attempts) env w
    (Journaled n f operation) (fun _ => Unmoved n f) := by
  induction attempts generalizing n w f with
  | zero => exact ⟨n, f, hw, .refl _ f⟩
  | succ attempts ih =>
    have hnew : temporaries ⊆ newJournals n := Set.subset_union_left
    -- The next attempt starts with one token more.
    have hnext : ∀ w₁ f₁, Steady (n + 1) w₁ f₁ → EqOff (newJournals n) f f₁ →
        Leaves (writeFileOperationAttempts operation attempts) env w₁
        (Journaled n f operation) (fun _ => Unmoved n f) := by
      intro w₁ f₁ hw₁ hf₁
      have hlat : newJournals (n + 1) ⊆ newJournals n := by
        rintro name (hname | ⟨token, htok, rfl⟩)
        · exact .inl hname
        · exact .inr ⟨token, by omega, rfl⟩
      refine (ih hw₁).weaken ?_ ?_
      · rintro name w' ⟨n', token, f', hle, hlt, rfl, hw', hhere, hf'⟩
        exact ⟨n', token, f', by omega, hlt, rfl, hw', hhere, hf₁.trans (hf'.mono hlat)⟩
      · rintro _ w' ⟨n', f', hw', hf'⟩
        exact ⟨n', f', hw', hf₁.trans (hf'.mono hlat)⟩
    refine (randomToken_leaves hw).mapBind ?_ fun _ _ h => h.elim
    rintro token w₁ ⟨hw₁, rfl⟩
    have hlt := Nat.lt_succ_self token
    have hcre := EqOff.create f (temporary_mem token)
    have hpub := (published_eqOff f token operation).mono (journalNames_subset le_rfl)
    refine (createRecord_leaves henv hw₁ (.operationTemporary token) hlt).attempt ?_ ?_
    · intro _ w₂ hw₂
      refine (publishOperation_leaves henv hw₂ fun w₃ f₃ hw₃ =>
        renameNoreplace_leaves henv hw₃ hlt).attempt ?_ ?_
      · intro _ w₃ hw₃
        exact ⟨token + 1, token, _, le_rfl, hlt, rfl, hw₃, published_self f token operation, hpub⟩
      · rintro ⟨error, published⟩ w₃ ⟨g, hw₃, hg⟩
        have hstay : EqOff (newJournals token) f g := by
          obtain hg | rfl := hg
          · exact (hcre.trans hg).mono hnew
          · exact hpub
        cases published with
        | true => exact ⟨token + 1, g, hw₃, hstay⟩
        | false =>
          refine (discardTemporary_eqOff henv hw₃ hstay hnew token).mapBind ?_
            fun _ _ h => h.elim
          rintro - w₄ ⟨f₄, hw₄, hf₄⟩
          split
          · exact hnext w₄ f₄ hw₄ hf₄
          · exact ⟨token + 1, f₄, hw₄, hf₄⟩
    · rintro error w₂ (hw₂ | ⟨hkind, hw₂⟩)
      · dsimp only
        split
        · exact hnext w₂ f hw₂ (.refl _ f)
        · exact ⟨token + 1, f, hw₂, .refl _ f⟩
      · dsimp only
        rw [if_neg (by simp [hkind])]
        exact ⟨token + 1, _, hw₂, hcre.mono hnew⟩

theorem writeFileOperation_leaves (operation : DurableFileOperation) :
    Leaves (writeFileOperation operation) env w
    (Journaled n f operation) (fun _ => Unmoved n f) :=
  writeFileOperationAttempts_leaves henv hw 16

/-- Replacing a journal changes the journal and temporaries, and never removes it. -/
theorem replaceFileOperation_leaves (htok : token < n) :
    Leaves (replaceFileOperation (.operation token) operation) env w
    (fun _ w' => ∃ f', Steady n w' f' ∧
      f' (.staged (.operation token)) = some (.record (.operation operation)) ∧
      EqOff (journalNames token) f f')
    (fun _ w' => ∃ f', Steady n w' f' ∧
      (f' (.staged (.operation token)) = f (.staged (.operation token)) ∨
        f' (.staged (.operation token)) = some (.record (.operation operation))) ∧
      EqOff (journalNames token) f f') := by
  have htemporaries : temporaries ⊆ journalNames token := Set.subset_insert _ _
  have hkept : ∀ {f₁ f₂}, EqOff temporaries f₁ f₂ →
      f₂ (.staged (.operation token)) = f₁ (.staged (.operation token)) :=
    fun h => h.staged _ Bool.false_ne_true
  have hcre := EqOff.create f (temporary_mem token)
  refine (createRecord_leaves henv hw (.operationTemporary token) htok).bind ?_ ?_
  · intro _ w₁ hw₁
    refine (publishOperation_leaves henv hw₁ fun w₂ f₂ hw₂ =>
      renameReplace_leaves henv hw₂ htok).attempt ?_ ?_
    · intro _ w₂ hw₂
      exact ⟨_, hw₂, published_self f token operation, published_eqOff f token operation⟩
    · rintro ⟨error, published⟩ w₂ ⟨g, hw₂, hg⟩
      have hstay : (g (.staged (.operation token)) = f (.staged (.operation token)) ∨
          g (.staged (.operation token)) = some (.record (.operation operation))) ∧
          EqOff (journalNames token) f g := by
        obtain hg | rfl := hg
        · exact ⟨.inl (hkept (hcre.trans hg)), (hcre.trans hg).mono htemporaries⟩
        · exact ⟨.inr (published_self f token operation), published_eqOff f token operation⟩
      cases published with
      | true => exact ⟨g, hw₂, hstay⟩
      | false =>
        refine (discardTemporary_eqOff henv hw₂ (EqOff.refl temporaries g) le_rfl token).andThen ?_
        rintro - w₃ ⟨f₃, hw₃, hf₃⟩
        rw [← hkept hf₃] at hstay
        exact ⟨f₃, hw₃, hstay.1, hstay.2.trans (hf₃.mono htemporaries)⟩
  · rintro error w₁ (hw₁ | ⟨-, hw₁⟩)
    · exact ⟨f, hw₁, .inl rfl, .refl _ f⟩
    · exact ⟨_, hw₁, .inl (hkept hcre), hcre.mono htemporaries⟩

end Writes

end Journals

section Manifests

variable {token : ℕ}

/-- Writing a manifest changes nothing but the manifest. -/
theorem writePendingManifest_leaves (henv : Reports env) (hw : Steady n w f)
    (htok : token < n) (originalPath : Text) :
    Leaves (writePendingManifest (.deletionPending token) originalPath) env w
    (fun name w' => name = .deletionManifest token ∧ ∃ f', Steady n w' f' ∧
      f' (.staged (.deletionManifest token)) = some (.record (.manifest originalPath)) ∧
      EqOff {.deletionManifest token} f f')
    (fun _ w' => ∃ f', Steady n w' f' ∧ EqOff {.deletionManifest token} f f') := by
  have hmem : deletionManifest token ∈ ({.deletionManifest token} : Set StagingName) :=
    rfl
  refine (createRecord_leaves henv hw (.deletionManifest token) htok).bind ?_ ?_
  · intro _ w₁ hw₁
    let f₁ := act (.create (.deletionManifest token)) f
    let f₂ := act (.write (.deletionManifest token) (.manifest originalPath)) f₁
    have hf₁ : EqOff {.deletionManifest token} f f₁ := EqOff.create f hmem
    have hf₂ : EqOff {.deletionManifest token} f f₂ := hf₁.trans (EqOff.write f₁ hmem _)
    have hwrite : Leaves (do
        writeRecord (.deletionManifest token) (.manifest originalPath)
        syncFile (.deletionManifest token)
        syncDirectory .staging) env w₁ (fun _ w' => Steady n w' f₂)
        (fun _ w' => ∃ f', Steady n w' f' ∧ EqOff {.deletionManifest token} f f') := by
      refine (writeRecord_leaves henv hw₁ _ _).bind (fun _ w₂ hw₂ => ?_) ?_
      · refine (syncFile_leaves henv hw₂ _).bind (fun _ w₃ hw₃ => ?_) fun _ _ h => ⟨f₂, h, hf₂⟩
        exact (syncDirectory_leaves henv hw₃ .staging).weaken (fun _ _ h => h)
          (fun _ _ h => ⟨f₂, h, hf₂⟩)
      · rintro error w₂ (hw₂ | hw₂)
        · exact ⟨f₁, hw₂, hf₁⟩
        · exact ⟨f₂, hw₂, hf₂⟩
    refine hwrite.attempt (fun _ w₂ hw₂ => ⟨rfl, f₂, hw₂, ?_, hf₂⟩) ?_
    · simp [f₂, f₁, act]
    · rintro error w₂ ⟨g, hw₂, hg⟩
      have hunlink : Leaves (unlink (.deletionManifest token)) env w₂
          (fun _ w' => ∃ f', Steady n w' f' ∧ EqOff {.deletionManifest token} f f')
          (fun _ w' => ∃ f', Steady n w' f' ∧ EqOff {.deletionManifest token} f f') := by
        refine (unlink_leaves henv hw₂ _).weaken
          (fun _ _ h => ⟨_, h, hg.trans (EqOff.update g hmem none)⟩) ?_
        rintro _ w' (⟨hw', -⟩ | ⟨-, hw'⟩)
        · exact ⟨g, hw', hg⟩
        · exact ⟨_, hw', hg.trans (EqOff.update g hmem none)⟩
      refine (bestEffort_leaves hunlink).andThen ?_
      rintro - w₃ ⟨f₃, hw₃, hf₃⟩
      refine (bestEffort_leaves ((syncDirectory_leaves henv hw₃ .staging).weaken
        (fun _ _ h => h) (fun _ _ h => h))).andThen ?_
      exact fun _ w₄ hw₄ => ⟨f₃, hw₄, hf₃⟩
  · rintro error w₁ (hw₁ | ⟨-, hw₁⟩)
    · exact ⟨f, hw₁, .refl _ f⟩
    · exact ⟨_, hw₁, EqOff.create f hmem⟩

end Manifests

end VaultLink
