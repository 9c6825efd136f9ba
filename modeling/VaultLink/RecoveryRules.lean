import VaultLink.FileOperations
import VaultLink.JournalRules

/-!
# Rules for finding what is pending

The loops of recovery run over a snapshot of the staging directory and skip every name that is
none of their business. A protocol leaves at most one journal and at most one manifest, so
each loop amounts to at most one round. Opening the storage root clears the journal
temporaries away.
-/
namespace VaultLink

open Location
open Mutation
open WriteBack (replay survive settle flush replay_inv)

section Loops

variable {ρ σ ε ι : Type}

/-- A loop only runs the rounds that do something. -/
theorem Action.each_filter {body : ι → Action ρ σ ε Unit} {relevant : ι → Bool}
    (h : ∀ i, relevant i = false → body i = pure ()) (items : List ι) :
    Action.each body items = Action.each body (items.filter relevant) := by
  induction items with
  | nil => rfl
  | cons i rest ih =>
    cases hi : relevant i with
    | true => rw [List.filter_cons_of_pos hi, Action.each, Action.each, ih]
    | false =>
      rw [List.filter_cons_of_neg (by simp [hi]), ← ih, Action.each, h i hi]
      rfl

theorem filter_eq_nil_of {p : ι → Bool} {items : List ι} (h : ∀ i ∈ items, p i = false) :
    items.filter p = [] :=
  List.filter_eq_nil_iff.mpr fun i hi => by simp [h i hi]

theorem filter_eq_singleton_of {p : ι → Bool} {items : List ι} {x : ι} (hnod : items.Nodup)
    (h : ∀ i, i ∈ items ∧ p i = true ↔ i = x) : items.filter p = [x] := by
  refine List.perm_singleton.mp ((List.perm_ext_iff_of_nodup (hnod.filter p)
    (List.nodup_singleton x)).mpr fun i => ?_)
  rw [List.mem_filter, List.mem_singleton, h]

end Loops

variable {env : Environment} {𝒞 : FileMap → Store → Prop} {w : World}
  {f g : FileMap} {s : Store}

section Pending

theorem collectFileOperations_filter (names : List StagingName) :
    collectFileOperations names = collectFileOperations (names.filter isFileOperationName) := by
  induction names with
  | nil => rfl
  | cons name names ih =>
    cases hname : isFileOperationName name with
    | true => simp only [List.filter_cons_of_pos hname, collectFileOperations, hname, ih]
    | false =>
      rw [List.filter_cons_of_neg (by simp [hname]), ← ih, collectFileOperations]
      simp [hname]

/-- The journals of the files in sight, when there is at most one. -/
inductive Journals (g : FileMap) : List PendingFileOperation → Prop
  | none (h : ∀ token, g (.staged (.operation token)) = none) : Journals g []
  | one {token : ℕ} {operation : DurableFileOperation}
    (here : g (.staged (.operation token)) = some (.record (.operation operation)))
    (valid : validateFileOperation operation = .ok ())
    (only : ∀ other, other ≠ token → g (.staged (.operation other)) = none) :
    Journals g [⟨.operation token, operation⟩]

theorem pendingFileOperations_safe (hT : Tolerated env)
    (hw : Holds isTemporary w g [] s) (hc : 𝒞 g s)
    {pending : List PendingFileOperation} (hjou : Journals g pending) :
    Safe isTemporary env 𝒞 pendingFileOperations w
    (fun found w' => Holds isTemporary w' g [] s ∧ found = pending)
    (fun _ w' => Holds isTemporary w' g [] s) := by
  refine (snapshotDirectoryNames_safe hT hw (covered_nil.mpr hc)).bind ?_ fun _ _ h => h
  rintro names w₁ ⟨hw₁, hnod, hnames⟩
  rw [collectFileOperations_filter]
  cases hjou with
  | none hnone =>
    rw [filter_eq_nil_of]
    · exact ⟨hw₁, rfl⟩
    · intro name hname
      cases name with
      | operation token => simp [hnames (.operation token) rfl, replay, hnone] at hname
      | _ => rfl
  | @one token operation hhere hvalid honly =>
    rw [filter_eq_singleton_of hnod (x := .operation token)]
    · refine Action.Meets.bind (Q := fun found w' => Holds isTemporary w' g [] s ∧
          found = [⟨.operation token, operation⟩])
        (E := fun _ w' => Holds isTemporary w' g [] s) ?_ ?_
        fun _ _ h => h
      · refine (readFileOperation_safe hT hw₁ hc rfl hhere).bind ?_ fun _ _ h => h
        rintro found w₂ ⟨hw₂, rfl⟩
        rw [hvalid]
        exact ⟨hw₂, rfl⟩
      · rintro found w₂ ⟨hw₂, rfl⟩
        exact ⟨hw₂, rfl⟩
    · intro name
      cases name with
      | operation other =>
        by_cases hoth : other = token
        · subst hoth
          simp [hnames (.operation other) rfl, replay, hhere, isFileOperationName]
        · simp [hnames (.operation other) rfl, replay, honly other hoth, hoth]
      | _ => simp [isFileOperationName]

/-- Neither a manifest nor a pending entry. -/
def NoManifests (g : FileMap) : Prop :=
  ∀ token, g (.staged (.deletionManifest token)) = none ∧
    g (.staged (.deletionPending token)) = none

theorem finalizeRestoredDeletion_skip (pending : List PendingFileOperation) (name : StagingName)
    (h : (deletionPendingFromManifestName name).isSome = false) :
    finalizeRestoredDeletion pending name = pure () := by
  cases name <;> first | rfl | cases h

theorem restorePendingDeletion_skip (pending : List PendingFileOperation) (name : StagingName)
    (h : isDeletionPendingName name = false) : restorePendingDeletion pending name = pure () := by
  simp [restorePendingDeletion, h]

theorem recoverPendingDeletions_nothing (hT : Tolerated env)
    (hw : Holds isTemporary w g [] s) (hc : 𝒞 g s)
    (hnone : NoManifests g) (pending : List PendingFileOperation) :
    Safe isTemporary env 𝒞 (recoverPendingDeletions pending) w
    (fun _ w' => Holds isTemporary w' g [] s)
    (fun _ w' => Holds isTemporary w' g [] s) := by
  refine (snapshotDirectoryNames_safe hT hw (covered_nil.mpr hc)).bind ?_ fun _ _ h => h
  rintro names w₁ ⟨hw₁, -, hnames⟩
  rw [Action.each_filter (finalizeRestoredDeletion_skip pending),
    Action.each_filter (restorePendingDeletion_skip pending), filter_eq_nil_of, filter_eq_nil_of]
  · exact hw₁
  · intro name hname
    cases name with
    | deletionPending token =>
      simp [hnames (.deletionPending token) rfl, replay, hnone token] at hname
    | _ => rfl
  · intro name hname
    cases name with
    | deletionManifest token =>
      simp [hnames (.deletionManifest token) rfl, replay, hnone token] at hname
    | _ => rfl

end Pending

section Database

variable {log : FileLog} {hide : Location → Bool}

theorem readDatabase_safe (hw : Holds hide w g log s) : Safe hide env 𝒞 readDatabase w
    (fun db w' => Holds hide w' g log s ∧ db = s) (fun _ _ => False) :=
  ⟨hw, hw.db⟩

theorem databaseTransaction_safe (hT : Tolerated env) (hw : Holds hide w g [] s)
    (hc : 𝒞 g s) (update : Store → Store) :
    Safe hide env 𝒞 (databaseTransaction update) w
    (fun _ w' => Holds hide w' g [] (update s))
    (fun _ w' => Holds hide w' g [] s) := by
  refine Action.Meets.mapError ?_ fun _ _ h => h
  refine (beginTransaction_safe hT hw (covered_nil.mpr hc)).bind ?_ fun _ _ h => h
  intro _ w₁ hw₁
  refine (readDatabase_safe hw₁).andThen ?_
  rintro db w₂ ⟨hw₂, rfl⟩
  exact commitTransaction_safe hT hw₂ (covered_nil.mpr hc) _

end Database

section Blocking

variable {E : FileOperationError → World → Prop}

/-- A pass of recovery, for states without a pending deletion. -/
theorem recoverBlocking_safe (hT : Tolerated env)
    (hw : Holds isTemporary w g [] s) (hc : 𝒞 g s)
    (hman : NoManifests g) {pending : List PendingFileOperation}
    (hjou : Journals g pending) {Q : List StagingName → World → Prop}
    (hnext : ∀ w', Holds isTemporary w' g [] s →
      Safe isTemporary env 𝒞 (recoverAll pending) w' Q E)
    (hfail : ∀ error w', Holds isTemporary w' g [] s → E error w') :
    Safe isTemporary env 𝒞 recoverPendingFileOperationsBlocking w Q E := by
  refine (pendingFileOperations_safe hT hw hc hjou).mapBind ?_
    fun _ _ h => hfail _ _ h
  rintro found w₁ ⟨hw₁, rfl⟩
  refine (recoverPendingDeletions_nothing hT hw₁ hc hman _).mapBind ?_
    fun _ _ h => hfail _ _ h
  exact fun _ w₂ hw₂ => hnext w₂ hw₂

theorem recoverAll_one {pending : PendingFileOperation} {Q : World → Prop}
    (h : Safe isTemporary env 𝒞 (recoverPending pending) w (fun _ => Q) E) :
    Safe isTemporary env 𝒞 (recoverAll [pending]) w (fun _ => Q) E :=
  h.bind (fun _ _ h => h) fun _ _ h => h

end Blocking

section Tidying

/-- A log of removed temporaries. -/
def RemovalLog (log : FileLog) : Prop :=
  ∀ entry ∈ log, ∃ token,
    entry = ⟨.remove (.staged (.operationTemporary token)), [.staging]⟩

theorem RemovalLog.hidden {log : FileLog} (h : RemovalLog log) : HiddenLog log := by
  intro entry hent
  obtain ⟨token, rfl⟩ := h entry hent
  simp [touches, isTemporary]

theorem RemovalLog.plain {log : FileLog} (h : RemovalLog log) (hplain : PlainTemporaries f) :
    PlainTemporaries (replay act log f) := by
  refine replay_inv (fun entry hent f hf => ?_) hplain
  obtain ⟨token, rfl⟩ := h entry hent
  exact hf.act (by simp)

/-- The temporaries among the names are unlinked, one after the other. -/
theorem removeTemporaries_safe (hT : Tolerated env) (hc : Concealed 𝒞 f s)
    (hplain : PlainTemporaries f) {log : FileLog} (hw : Holds noName w f log s)
    (hlog : RemovalLog log) (names : List StagingName) :
    Safe noName env (Concealed 𝒞) (removeTemporaries names) w
    (fun removed w' => ∃ more, RemovalLog more ∧ Holds noName w' f (log ++ more) s ∧
      (removed = false → more = []))
    (fun _ _ => False) := by
  induction names generalizing w log with
  | nil => exact ⟨[], by simp [RemovalLog], by simpa using hw, fun _ => rfl⟩
  | cons name names ih =>
    by_cases htemporary : ∃ token, name = .operationTemporary token
    · obtain ⟨token, rfl⟩ := htemporary
      rw [removeTemporaries, if_neg (by simp [isFileOperationTemporaryName])]
      refine (unlink_safe hT hw (covered_hidden hc hlog.hidden) rfl).attempt ?_ ?_
      · intro _ w₁ hw₁
        have hlog₁ : RemovalLog (log ++
            [⟨.remove (.staged (.operationTemporary token)), [.staging]⟩]) := by
          intro entry hent
          obtain hent | hent := List.mem_append.mp hent
          · exact hlog entry hent
          · exact ⟨token, List.mem_singleton.mp hent⟩
        refine (ih hw₁ hlog₁).bind ?_ fun _ _ h => h
        rintro removed w₂ ⟨more, hmore, hw₂, -⟩
        refine ⟨⟨.remove (.staged (.operationTemporary token)), [.staging]⟩ :: more, ?_, ?_,
          by simp⟩
        · intro entry hent
          obtain rfl | hent := List.mem_cons.mp hent
          · exact ⟨token, rfl⟩
          · exact hmore entry hent
        · simpa using hw₂
      · rintro error w₁ ⟨hw₁, ⟨hkind, -⟩ | ⟨-, hdir | hmay⟩⟩
        · dsimp only
          rw [if_pos hkind]
          exact ih hw₁ hlog
        · rw [hlog.plain hplain _ rfl] at hdir
          cases hdir
        · simp [mayFail] at hmay
    · have hskip : isFileOperationTemporaryName name = false := by
        cases name with
        | operationTemporary token => exact absurd ⟨token, rfl⟩ htemporary
        | _ => rfl
      rw [removeTemporaries, if_pos (by simp [hskip])]
      exact ih hw hlog

/-- Opening the storage root takes temporaries away, which are not in sight. -/
theorem removeIncompleteFileOperationWrites_safe (hT : Tolerated env)
    (hw : Holds isTemporary w g [] s) (hc : 𝒞 g s) :
    Safe isTemporary env 𝒞 removeIncompleteFileOperationWrites w
    (fun _ w' => Holds isTemporary w' g [] s) (fun _ w' => Holds isTemporary w' g [] s) := by
  obtain ⟨f, hf, rfl, hplain⟩ := hw.expose
  have hconcealed : Concealed 𝒞 f s := ⟨hc, hplain⟩
  refine Safe.cover ?_
  refine (snapshotDirectoryNames_safe hT hf (covered_nil.mpr hconcealed)).bind ?_
    fun _ _ h => h.cover hplain
  rintro names w₁ ⟨hw₁, -, -⟩
  refine (removeTemporaries_safe hT hconcealed hplain hw₁ (by simp [RemovalLog]) names).andThen ?_
  rintro removed w₂ ⟨more, hmore, hw₂, hnothing⟩
  rw [List.nil_append] at hw₂
  cases removed with
  | false =>
    obtain rfl := hnothing rfl
    exact hw₂.cover hplain
  | true =>
    refine (syncDirectory_safe hT hw₂ (covered_hidden hconcealed hmore.hidden) .staging).mono ?_
      fun _ _ h => h.elim
    intro _ w₃ hw₃
    have hflush : flush act (settle .staging more) f = ⟨replay act more f, []⟩ := by
      rw [WriteBack.flush_eq_replay, WriteBack.replay_settle]
      intro entry hent
      obtain ⟨before, hbef, rfl⟩ := List.mem_map.mp hent
      obtain ⟨token, rfl⟩ := hmore before hbef
      rfl
    rw [hflush] at hw₃
    rw [← replay_inv hmore.hidden.conceals rfl]
    exact hw₃.cover (hmore.plain hplain)

/-- Opening the storage root changes nothing in sight when no deletion is pending. -/
theorem openSecureRoot_safe (hT : Tolerated env) (hw : Holds isTemporary w g [] s) (hc : 𝒞 g s)
    (hman : NoManifests g) {pending : List PendingFileOperation} (hjou : Journals g pending) :
    Safe isTemporary env 𝒞 openSecureRoot w
    (fun _ w' => Holds isTemporary w' g [] s) (fun _ w' => Holds isTemporary w' g [] s) := by
  refine (removeIncompleteFileOperationWrites_safe hT hw hc).bind ?_ fun _ _ h => h
  intro _ w₁ hw₁
  refine (pendingFileOperations_safe hT hw₁ hc hjou).bind ?_ fun _ _ h => h
  rintro found w₂ ⟨hw₂, rfl⟩
  exact recoverPendingDeletions_nothing hT hw₂ hc hman _

end Tidying

end VaultLink
