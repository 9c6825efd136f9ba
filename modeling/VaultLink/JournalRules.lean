import VaultLink.SyscallRules

/-!
# Rules for identities, journals and manifests

What the helpers of the protocols do to the files in sight, with the journal temporaries
concealed. Publishing a journal is atomic here: a power loss leaves it as it was before or as
it is afterwards. A manifest is written in place, so a power loss may leave an incomplete one.
-/
namespace VaultLink

open StagingName
open Function
open Location
open Mutation
open WriteBack (replay survive settle flush survive_inv)

/-- The temporary names of journals. -/
def Location.isTemporary : Location → Bool
  | .staged (.operationTemporary _) => true
  | _ => false

variable {env : Environment} {𝒞 : FileMap → Store → Prop} {w : World}
  {f g : FileMap} {s : Store}

section Identity

variable {log : FileLog} {hide : Location → Bool}

/-- The state of a name that holds this entry. -/
def identityOf (entry : Option Entry) (identity : ℕ × ℕ) (kind : EntryKind) : EntryIdentityState :=
  match entry with
  | none => .missing
  | some entry => if entry.is identity kind then .expected else .replaced

variable (hT : Tolerated env) (hw : Holds hide w g log s)
  (hc : Covered 𝒞 g log s) {location : Location} (hloc : hide location = false)
  (identity : ℕ × ℕ) (kind : EntryKind)

include hT hw hc hloc

theorem entryIdentityState_safe :
    Safe hide env 𝒞 (entryIdentityState location identity kind) w
    (fun state w' => Holds hide w' g log s ∧
      state = identityOf (replay act log g location) identity kind)
    (fun _ w' => Holds hide w' g log s) := by
  refine (openPath_safe hT hw hc hloc).attempt ?_ ?_
  · rintro entry w' ⟨hw', hent⟩
    exact ⟨hw', by simp [identityOf, hent]⟩
  · rintro error w' ⟨hw', ⟨hkind, hent⟩ | hkind⟩
    · simp only [hkind]
      exact ⟨hw', by simp [identityOf, hent]⟩
    · simp only [hkind]
      exact hw'

end Identity

section Records

variable {hide : Location → Bool}

/-- A synchronization that finds nothing to do. -/
theorem syncDirectory_nothing (hT : Tolerated env) (hw : Holds hide w g [] s)
    (hc : 𝒞 g s) (target : SyncTarget) : Safe hide env 𝒞 (syncDirectory target) w
    (fun _ w' => Holds hide w' g [] s) (fun _ _ => False) :=
  syncDirectory_safe hT hw (covered_nil.mpr hc) target

/-- A synchronization that makes the only waiting mutation durable. -/
theorem syncDirectory_last {mutation : Mutation} {target : SyncTarget}
    (hT : Tolerated env) (hw : Holds hide w g [⟨mutation, [target]⟩] s)
    (hc : 𝒞 g s ∧ 𝒞 (mutation.act g) s) :
    Safe hide env 𝒞 (syncDirectory target) w
    (fun _ w' => Holds hide w' (mutation.act g) [] s) (fun _ _ => False) := by
  refine (syncDirectory_safe hT hw (covered_one.mpr ⟨fun _ => hc.1, hc.2⟩) target).mono
    (fun _ w' h => ?_) fun _ _ h => h
  simpa [settle, flush] using h

theorem bestEffort_safe {m : FsM Unit} {Q : World → Prop}
    (h : Safe hide env 𝒞 m w (fun _ => Q) (fun _ => Q)) :
    Safe hide env 𝒞 (bestEffort m) w (fun _ => Q) (fun _ _ => False) :=
  Action.Meets.attempt h (fun _ _ h => h) fun _ _ h => h

theorem removeRecord_safe (hT : Tolerated env) (hw : Holds hide w g [] s)
    {name : StagingName} (hname : hide (.staged name) = false)
    (hent : isDirectoryEntry (g (.staged name)) = false)
    (hc : 𝒞 g s ∧ 𝒞 (update g (.staged name) none) s) :
    Safe hide env 𝒞 (removeRecord name) w
    (fun _ w' => Holds hide w' (update g (.staged name) none) [] s)
    (fun _ w' => Holds hide w' g [] s) := by
  refine (unlink_safe hT hw (covered_nil.mpr hc.1) hname).attempt ?_ ?_
  · intro _ w' hw'
    exact (syncDirectory_last hT hw' hc).mono (fun _ _ h => h) fun _ _ h => h.elim
  · rintro error w' ⟨hw', ⟨hkind, hnone⟩ | ⟨hkind, hdir | -⟩⟩
    · have hsame : update g (.staged name) none = g :=
        update_eq_self_iff.mpr hnone.symm
      simp only [hkind, hsame, if_true]
      exact hw'
    · rw [show replay act [] g = g from rfl, hent] at hdir
      cases hdir
    · simp only [hkind, reduceCtorEq, if_false]
      exact hw'

theorem readFileOperation_safe (hT : Tolerated env) (hw : Holds hide w g [] s)
    (hc : 𝒞 g s) {name : StagingName} (hname : hide (.staged name) = false)
    {operation : DurableFileOperation}
    (hent : g (.staged name) = some (.record (.operation operation))) :
    Safe hide env 𝒞 (readFileOperation name) w
    (fun found w' => Holds hide w' g [] s ∧ found = operation)
    (fun _ w' => Holds hide w' g [] s) := by
  refine (readRecord_safe hT hw (covered_nil.mpr hc) hname _).bind ?_ fun _ _ h => h
  rintro content w' ⟨hw', hcon⟩
  obtain rfl : Content.operation operation = content := by
    simpa [replay, hent, recordContent] using hcon
  exact ⟨hw', rfl⟩

end Records

section Exposing

/-- Nothing is concealed. -/
def noName (_ : Location) : Bool := false

/-- No directory under the name of a journal temporary. -/
def PlainTemporaries (f : FileMap) : Prop :=
  ∀ location, location.isTemporary = true → isDirectoryEntry (f location) = false

/-- The class, stated for files together with the temporaries that are there. -/
def Concealed (𝒞 : FileMap → Store → Prop) (f : FileMap) (s : Store) : Prop :=
  𝒞 (conceal isTemporary f) s ∧ PlainTemporaries f

/-- The files together with the temporaries that are there. -/
theorem Holds.expose (h : Holds isTemporary w g [] s) :
    ∃ f, Holds noName w f [] s ∧ conceal isTemporary f = g ∧ PlainTemporaries f :=
  ⟨w.files.base.map,
    ⟨rfl, h.log_eq, h.db, h.fresh, by simp, fun _ hhide => (Bool.false_ne_true hhide).elim⟩,
    h.files, h.plain⟩

theorem Holds.cover (h : Holds noName w f [] s) (hplain : PlainTemporaries f) :
    Holds isTemporary w (conceal isTemporary f) [] s := by
  have hbase : w.files.base.map = f := h.files
  exact ⟨by rw [hbase], h.log_eq, h.db, h.fresh, by simp, by rwa [hbase]⟩

theorem Safe.cover {ε α : Type} {m : Action Environment World ε α} {Q : α → World → Prop}
    {E : ε → World → Prop} (h : Safe noName env (Concealed 𝒞) m w Q E) :
    Safe isTemporary env 𝒞 m w Q E := by
  refine Action.Meets.mono h (fun _ _ h => h) (fun _ _ h => h) ?_
  rintro w' ⟨f, s, hw', hf, hplain⟩
  exact ⟨_, s, hw'.cover hplain, hf⟩

/-- Only records are stored under the names of temporaries. -/
theorem PlainTemporaries.act (h : PlainTemporaries f) {mutation : Mutation}
    (hmove : ∀ source destination, mutation = .move source destination →
      destination.isTemporary = false) : PlainTemporaries (mutation.act f) := by
  intro location hloc
  have hold := h location hloc
  cases mutation with
  | create | remove =>
    simp only [Mutation.act, update_apply]
    split
    · rfl
    · exact hold
  | write name content =>
    simp only [Mutation.act]
    split
    · rw [update_apply]
      split
      · rfl
      · exact hold
    · exact hold
  | move source destination =>
    have hne : location ≠ destination := by
      rintro rfl
      simp [hmove source location rfl] at hloc
    cases hent : f source with
    | none => simpa [Mutation.act, hent] using hold
    | some entry =>
      simp only [Mutation.act, hent, update_of_ne hne, update_apply]
      split
      · rfl
      · exact hold

end Exposing

section Publishing

variable {token : ℕ} {operation : DurableFileOperation}

/-- A log of creations, writes and removals of temporaries. -/
def HiddenLog (log : FileLog) : Prop :=
  ∀ entry ∈ log, (∀ location ∈ entry.op.touches, location.isTemporary = true) ∧
    ∀ source destination, entry.op ≠ .move source destination

/-- Mutations of temporaries do not show. -/
theorem HiddenLog.conceals {log : FileLog} (h : HiddenLog log) : ∀ entry ∈ log, ∀ f',
    conceal isTemporary f' = g → conceal isTemporary (act entry.op f') = g := by
  rintro entry hent f' rfl
  funext location
  by_cases hloc : location.isTemporary = true
  · simp [conceal, hloc]
  · rw [Bool.not_eq_true] at hloc
    rw [conceal_apply hloc, conceal_apply hloc]
    refine act_of_not_touches (fun hmem => ?_) f'
    rw [(h entry hent).1 location hmem] at hloc
    cases hloc

/-- As long as only temporaries are touched, a power loss leaves the same files in sight. -/
theorem covered_hidden {log : FileLog} (hc : Concealed 𝒞 f s)
    (hlog : HiddenLog log) : Covered (Concealed 𝒞) f log s := by
  intro mask
  refine ⟨?_, survive_inv (fun entry hent f hf => hf.act fun source destination hop =>
    absurd hop ((hlog entry hent).2 source destination)) mask hc.2⟩
  rw [survive_inv hlog.conceals mask rfl]
  exact hc.1

/-- A journal temporary that was created. -/
def createdLog (token : ℕ) : FileLog := [⟨.create (.operationTemporary token), [.staging]⟩]

/-- A journal temporary whose content is durable as soon as its name is. -/
def writtenLog (token : ℕ) (operation : DurableFileOperation) : FileLog :=
  [⟨.create (.operationTemporary token), [.staging]⟩,
    ⟨.write (.operationTemporary token) (.operation operation), []⟩]

/-- A journal that was given its name. -/
def publishedLog (token : ℕ) (operation : DurableFileOperation) : FileLog :=
  writtenLog token operation ++
    [⟨.move (.staged (.operationTemporary token)) (.staged (.operation token)), [.staging]⟩]

/-- The files with this journal. -/
def withJournal (f : FileMap) (token : ℕ) (operation : DurableFileOperation) : FileMap :=
  update f (.staged (.operation token)) (some (.record (.operation operation)))

theorem conceal_withJournal (f : FileMap) (token : ℕ) (operation : DurableFileOperation) :
    conceal isTemporary (withJournal f token operation) =
      withJournal (conceal isTemporary f) token operation :=
  conceal_update rfl f _

theorem withJournal_temporary (f : FileMap) {location : Location}
    (hloc : location.isTemporary = true) : withJournal f token operation location = f location := by
  refine update_of_ne ?_ _ _
  rintro rfl
  cases hloc

theorem PlainTemporaries.withJournal (h : PlainTemporaries f) :
    PlainTemporaries (withJournal f token operation) := fun location hloc => by
  rw [withJournal_temporary f hloc]
  exact h location hloc

/-- What the temporary holds before it is given the journal's name. -/
def written (f : FileMap) (token : ℕ) (operation : DurableFileOperation) : FileMap :=
  update f (.staged (.operationTemporary token)) (some (.record (.operation operation)))

theorem act_write_create (f : FileMap) :
    act (.write (.operationTemporary token) (.operation operation))
      (act (.create (.operationTemporary token)) f) = written f token operation := by
  simp [act, written]

theorem act_move_written (hnone : f (.staged (.operationTemporary token)) = none) :
    act (.move (.staged (.operationTemporary token)) (.staged (.operation token)))
      (written f token operation) = withJournal f token operation := by
  have hsame : update f (.staged (.operationTemporary token)) none = f :=
    update_eq_self_iff.mpr hnone.symm
  simp [act, written, withJournal, hsame]

theorem conceal_written (f : FileMap) :
    conceal isTemporary (written f token operation) = conceal isTemporary f := by
  funext location
  by_cases h : location = .staged (.operationTemporary token)
  · subst h
    rfl
  · simp [conceal, written, h]

/-- A power loss before the last synchronization keeps the old journal or the new one. -/
theorem conceal_survive_publishedLog (mask : List Bool)
    (hnone : f (.staged (.operationTemporary token)) = none) :
    conceal isTemporary (survive act (publishedLog token operation) mask f) =
        conceal isTemporary f ∨
      conceal isTemporary (survive act (publishedLog token operation) mask f) =
        withJournal (conceal isTemporary f) token operation := by
  simp only [publishedLog, writtenLog, List.cons_append, List.nil_append, survive,
    List.isEmpty_cons, List.isEmpty_nil, Bool.true_or, Bool.false_or, if_true]
  by_cases hcreate : mask.headD false = true
  · rw [if_pos hcreate, act_write_create]
    split
    · right
      rw [act_move_written hnone, conceal_withJournal]
    · left
      exact conceal_written f
  · left
    -- Without the file there is nothing to write to and nothing to rename.
    have hlost : act (.write (.operationTemporary token) (.operation operation)) f = f := by
      simp [act, hnone]
    have hunmoved : act
        (.move (.staged (.operationTemporary token)) (.staged (.operation token))) f = f := by
      simp [act, hnone]
    rw [if_neg hcreate, hlost, hunmoved, ite_self]

theorem createdLog_hidden : HiddenLog (createdLog token) := by
  simp [HiddenLog, createdLog, touches, isTemporary]

theorem writtenLog_hidden : HiddenLog (writtenLog token operation) := by
  simp [HiddenLog, writtenLog, touches, isTemporary]

theorem replay_writtenLog (f : FileMap) :
    replay act (writtenLog token operation) f = written f token operation :=
  act_write_create f

theorem flush_publishedLog (hnone : f (.staged (.operationTemporary token)) = none) :
    flush act (settle .staging (publishedLog token operation)) f =
      ⟨withJournal f token operation, []⟩ := by
  simp [publishedLog, writtenLog, settle, flush, act_write_create, act_move_written hnone]

variable (hT : Tolerated env) (hc : Concealed 𝒞 f s)
  (hc' : 𝒞 (withJournal (conceal isTemporary f) token operation) s)

include hT hc hc'

/-- From a created temporary to a durable journal; on failure only the temporary is left. -/
theorem publishOperation_safe
    (hw : Holds noName w f (createdLog token) s)
    (hnone : f (.staged (.operationTemporary token)) = none) {publish : FsM Unit}
    {P : IoError → Prop}
    (hpublish : ∀ w', Holds noName w' f (writtenLog token operation) s →
      Safe noName env (Concealed 𝒞) publish w'
        (fun _ w'' => Holds noName w'' f (publishedLog token operation) s)
        (fun error w'' => Holds noName w'' f (writtenLog token operation) s ∧ P error))
    (hinjected : P .injected) :
    Safe noName env (Concealed 𝒞)
      (publishOperation (.operationTemporary token) operation publish) w
      (fun _ w' => Holds noName w' (withJournal f token operation) [] s)
      (fun error w' => error.2 = false ∧ P error.1 ∧
        (Holds noName w' f (createdLog token) s ∨
          Holds noName w' f (writtenLog token operation) s)) := by
  have hdra : drawnBefore w.tokens (.operationTemporary token) := by
    refine hw.drawn rfl ?_
    simp [createdLog, replay, act]
  refine (Action.Meets.mapError
    (Q := fun _ w' => Holds noName w' f (publishedLog token operation) s)
    (E := fun error w' => P error ∧ (Holds noName w' f (createdLog token) s ∨
      Holds noName w' f (writtenLog token operation) s)) ?_
    fun error w' h => ⟨rfl, h.1, h.2⟩).bind ?_ fun _ _ h => h
  · refine (writeRecord_safe hT hw (covered_hidden hc createdLog_hidden) rfl hdra _).bind ?_ ?_
    · intro _ w₁ hw₁
      refine (syncFile_safe hT hw₁ (covered_hidden hc ?_)).andThen ?_
      · simp [HiddenLog, createdLog, touches, isTemporary]
      · intro _ w₂ hw₂
        refine (hpublish w₂ ?_).mono (fun _ _ h => h) fun error w' h => ⟨h.2, .inr h.1⟩
        simpa [createdLog, writtenLog, settle, flush] using hw₂
    · rintro error w₁ ⟨hw₁, rfl⟩
      exact ⟨hinjected, .inl hw₁⟩
  · intro _ w₁ hw₁
    refine Action.Meets.mapError ((syncDirectory_safe hT hw₁ ?_ .staging).mono ?_ fun _ _ h => h)
      fun _ _ h => h.elim
    · intro mask
      refine ⟨?_, survive_inv (fun entry hent f hf => hf.act ?_) mask hc.2⟩
      · obtain h | h := @conceal_survive_publishedLog f token operation mask hnone <;> rw [h]
        · exact hc.1
        · exact hc'
      · revert entry
        simp [publishedLog, writtenLog, isTemporary]
    · intro _ w₂ hw₂
      simpa [flush_publishedLog hnone] using hw₂

omit hc' in
/-- After a failure the temporary goes, and with it everything that happened to it. -/
theorem discardTemporary_safe
    (hw : Holds noName w f (createdLog token) s ∨
      Holds noName w f (writtenLog token operation) s)
    (hnone : f (.staged (.operationTemporary token)) = none) :
    Safe noName env (Concealed 𝒞)
      (discardTemporary (.operationTemporary token)) w
      (fun _ w' => Holds noName w' f [] s) (fun _ _ => False) := by
  have hsame : update f (.staged (.operationTemporary token)) none = f :=
    update_eq_self_iff.mpr hnone.symm
  -- Both logs only touch the temporary and wait for nothing but the staging directory.
  obtain ⟨log, hw, hhidden, hpre, hflush⟩ : ∃ log, Holds noName w f log s ∧
      HiddenLog log ∧
      (∃ content, replay act log f (.staged (.operationTemporary token)) =
        some (.record content)) ∧
      flush act (settle .staging
        (log ++ [⟨.remove (.staged (.operationTemporary token)), [.staging]⟩])) f = ⟨f, []⟩ := by
    obtain hw | hw := hw
    · refine ⟨_, hw, createdLog_hidden, ⟨.incomplete, ?_⟩, ?_⟩
      · simp [createdLog, replay, act]
      · simp [createdLog, settle, flush, act, hsame]
    · refine ⟨_, hw, writtenLog_hidden, ⟨.operation operation, ?_⟩, ?_⟩
      · simp [writtenLog, replay, act]
      · simp [writtenLog, settle, flush, act, hsame]
  obtain ⟨content, hpre⟩ := hpre
  refine (bestEffort_safe (Q := fun w' => Holds noName w' f
      (log ++ [⟨.remove (.staged (.operationTemporary token)), [.staging]⟩]) s)
    ((unlink_safe hT hw (covered_hidden hc hhidden) rfl).mono ?_ ?_)).bind ?_ fun _ _ h => h
  · exact fun _ w' h => h
  · rintro error w' ⟨-, ⟨-, hmis⟩ | ⟨-, hdir | hmay⟩⟩
    · simp [hpre] at hmis
    · simp [hpre, isDirectoryEntry] at hdir
    · simp [mayFail] at hmay
  · intro _ w₁ hw₁
    refine bestEffort_safe ((syncDirectory_safe hT hw₁ (covered_hidden hc ?_) .staging).mono ?_ ?_)
    · intro entry hent
      obtain hent | hent := List.mem_append.mp hent
      · exact hhidden entry hent
      · simp [List.mem_singleton.mp hent, touches, isTemporary]
    · intro _ w₂ hw₂
      simpa only [hflush] using hw₂
    · exact fun _ _ h => h.elim

end Publishing

section Journals

variable {operation : DurableFileOperation}

/-- A new journal has a name of its own; a failure leaves nothing in sight. -/
theorem writeFileOperation_safe (hT : Tolerated env)
    (hw : Holds isTemporary w g [] s) (hc : 𝒞 g s)
    (hc' : ∀ token, g (.staged (.operation token)) = none → 𝒞 (withJournal g token operation) s) :
    Safe isTemporary env 𝒞 (writeFileOperation operation) w
    (fun name w' => ∃ token, name = .operation token ∧ g (.staged (.operation token)) = none ∧
      Holds isTemporary w' (withJournal g token operation) [] s)
    (fun failure w' => Holds isTemporary w' g [] s ∧ failure.publishedName = none) := by
  obtain ⟨f, hf, rfl, hplain⟩ := hw.expose
  refine Safe.cover ?_
  unfold writeFileOperation writeFileOperationAttempts
  refine (randomToken_safe hf).mapBind ?_ fun _ _ h => h.elim
  rintro token w₁ ⟨hw₁, htok, htoks, hfr⟩
  have hbase : w₁.files.base.map = f := hw₁.files
  have hnone : f (.staged (.operationTemporary token)) = none :=
    hbase ▸ hfr _ (by simp [drawnBefore])
  have hunu : f (.staged (.operation token)) = none :=
    hbase ▸ hfr _ (by simp [drawnBefore])
  have hdra : drawnBefore w₁.tokens (.operationTemporary token) := by
    simp [drawnBefore, htoks]
  have hjou : 𝒞 (withJournal (conceal isTemporary f) token operation) s :=
    hc' token (by rwa [conceal_apply rfl])
  have hconcealed : Concealed 𝒞 f s := ⟨hc, hplain⟩
  refine (createRecord_safe hT hw₁ (covered_nil.mpr hconcealed) rfl hdra).attempt ?_ ?_
  · rintro - w₂ ⟨hw₂, -⟩
    refine (publishOperation_safe hT hconcealed hjou hw₂ hnone
      (P := fun error => error.kind ≠ .alreadyExists) ?_ ?_).attempt ?_ ?_
    · intro w₃ hw₃
      have hpre : replay act (writtenLog token operation) f
          (.staged (.operationTemporary token)) ≠ none := by
        simp [replay_writtenLog, written]
      have habsent : replay act (writtenLog token operation) f
          (.staged (.operation token)) = none := by
        simpa [replay_writtenLog, written] using hunu
      have htok₃ : token < w₃.tokens := hw₃.drawn rfl hpre
      refine (renameNoreplace_safe hT hw₃ (covered_hidden hconcealed writtenLog_hidden) rfl rfl
        ?_).mono (fun _ _ h => h.1) ?_
      · rintro name ⟨⟩
        exact htok₃
      · rintro error w₄ ⟨hw₄, hexists⟩
        exact ⟨hw₄, fun hkind => hexists hkind habsent⟩
    · simp [IoError.injected]
    · intro _ w₃ hw₃
      refine ⟨token, rfl, by rwa [conceal_apply rfl], ?_⟩
      rw [← conceal_withJournal]
      exact hw₃.cover hplain.withJournal
    · rintro ⟨error, published⟩ w₃ ⟨hpub, hkind, hw₃⟩
      obtain rfl : published = false := hpub
      refine (discardTemporary_safe hT hconcealed hw₃ hnone).mapBind ?_ fun _ _ h => h.elim
      intro _ w₄ hw₄
      rw [if_neg hkind]
      exact ⟨hw₄.cover hplain, rfl⟩
  · rintro error w₂ ⟨hw₂, hexists⟩
    dsimp only
    rw [if_neg fun hkind => hexists hkind hnone]
    exact ⟨hw₂.cover hplain, rfl⟩

/-- Advancing a journal. -/
theorem replaceFileOperation_safe (hT : Tolerated env)
    (hw : Holds isTemporary w g [] s) {token : ℕ} {content : Content}
    (hjou : g (.staged (.operation token)) = some (.record content))
    (hc : 𝒞 g s ∧ 𝒞 (withJournal g token operation) s) :
    Safe isTemporary env 𝒞 (replaceFileOperation (.operation token) operation) w
    (fun _ w' => Holds isTemporary w' (withJournal g token operation) [] s)
    (fun _ w' => Holds isTemporary w' g [] s) := by
  obtain ⟨f, hf, rfl, hplain⟩ := hw.expose
  have hpre : f (.staged (.operation token)) = some (.record content) := by
    rwa [conceal_apply rfl] at hjou
  have hdra : token < w.tokens :=
    show drawnBefore w.tokens (.operation token) from
      hw.drawn rfl (by simp [replay, hjou])
  have hconcealed : Concealed 𝒞 f s := ⟨hc.1, hplain⟩
  refine Safe.cover ?_
  unfold replaceFileOperation
  rw [if_neg (by simp [isFileOperationName])]
  refine Action.Meets.bind (createRecord_safe hT hf (covered_nil.mpr hconcealed) rfl hdra) ?_
    fun _ _ h => h.1.cover hplain
  rintro - w₁ ⟨hw₁, hnone⟩
  refine (publishOperation_safe hT hconcealed hc.2 hw₁ hnone (P := fun _ => True) ?_
    trivial).attempt ?_ ?_
  · intro w₂ hw₂
    have hold : replay act (writtenLog token operation) f (.staged (.operation token)) =
        some (.record content) := by
      simpa [replay_writtenLog, written] using hpre
    refine (renameReplace_safe hT hw₂ (covered_hidden hconcealed writtenLog_hidden) rfl rfl
      ?_).mono (fun _ _ h => h) fun _ _ h => ⟨h, trivial⟩
    rintro name ⟨⟩
    exact hw₂.drawn rfl (by simp [hold])
  · intro _ w₂ hw₂
    rw [← conceal_withJournal]
    exact hw₂.cover hplain.withJournal
  · rintro ⟨error, published⟩ w₂ ⟨hpub, -, hw₂⟩
    obtain rfl : published = false := hpub
    refine (discardTemporary_safe hT hconcealed hw₂ hnone).andThen ?_
    exact fun _ w₃ hw₃ => hw₃.cover hplain

end Journals

end VaultLink
