import VaultLink.UploadStaging

/-!
# Uploads pay before they publish

The quota transaction of a public upload charges its bytes, one file and the directories that
were missing when the destination was inspected; directories and the file become visible
afterwards. The share that is charged is the one of the reservation, and that is the share the
upload looked up under its token. What was counted is what can be created, because the storage
authority is held from the inspection on.
-/
namespace VaultLink

open SecureDirectory
open VaultLink.Action (Maintains)

variable {directory : SecureDirectory} {name : Text} {components front : List Text}

section MissingDirectories

/-- How many of the directories along the components are missing. -/
def missing (tree : StorageTree) : List Text → List Text → ℕ
  | _, [] => 0
  | path, name :: rest =>
    (if (tree (path ++ [name])).isNone then 1 else 0) + missing tree (path ++ [name]) rest

variable {tree : StorageTree} {path : List Text}

theorem missing_le_length (tree : StorageTree) (path components : List Text) :
    missing tree path components ≤ components.length := by
  induction components generalizing path with
  | nil => exact le_rfl
  | cons name rest ih =>
    have := ih (path ++ [name])
    rw [missing, List.length_cons]
    split <;> omega

/-- Only entries below the path count. -/
theorem missing_set {above : List Text} (h : above.length ≤ path.length) (node : StorageNode)
    (components : List Text) :
    missing (tree.set above node) path components = missing tree path components := by
  induction components generalizing path with
  | nil => rfl
  | cons name rest ih =>
    have hne : path ++ [name] ≠ above := by
      intro heq
      have := congrArg List.length heq
      rw [List.length_append, List.length_singleton] at this
      omega
    rw [missing, missing, ih (by rw [List.length_append]; omega), StorageTree.set,
      Function.update_of_ne hne]

/-- Making the first missing directory along the components leaves one less to make. -/
theorem missing_make {back : List Text} (inode : ℕ)
    (hfree : tree (path ++ front ++ [name]) = none) :
    missing (tree.set (path ++ front ++ [name]) (.directory inode)) path
      (front ++ name :: back) + 1 = missing tree path (front ++ name :: back) := by
  induction front generalizing path with
  | nil =>
    rw [List.append_nil] at hfree ⊢
    rw [List.nil_append, missing, missing, missing_set le_rfl, StorageTree.set,
      Function.update_self, hfree]
    simp only [Option.isNone_some, Option.isNone_none, if_true]
    simp [Nat.add_comm]
  | cons first front ih =>
    have hpath : path ++ first :: front ++ [name] = path ++ [first] ++ front ++ [name] := by simp
    have hne : path ++ [first] ≠ path ++ [first] ++ front ++ [name] := by simp
    rw [hpath] at hfree ⊢
    rw [List.cons_append, missing, missing, ← ih hfree, StorageTree.set, Function.update_of_ne hne,
      Nat.add_assoc]

/-- Whatever appears, no more is missing than before. -/
theorem missing_set_le (tree : StorageTree) (path above : List Text) (node : StorageNode)
    (components : List Text) :
    missing (tree.set above node) path components ≤ missing tree path components := by
  induction components generalizing path with
  | nil => exact le_rfl
  | cons name rest ih =>
    have hrest := ih (path ++ [name])
    have hname : ((tree.set above node) (path ++ [name])).isNone = true →
        (tree (path ++ [name])).isNone = true := by
      unfold StorageTree.set Function.update
      split <;> simp
    rw [missing, missing]
    split
    · rename_i hnone
      rw [if_pos (hname hnone)]
      omega
    · omega

/-- What `bind_directory` finds lies along the components. -/
theorem bind_path {bound : SecureDirectory} (h : tree.bind directory components = .ok bound) :
    bound.path = directory.path ++ components := by
  induction components generalizing directory with
  | nil =>
    cases h
    rw [List.append_nil]
  | cons name rest ih =>
    rw [StorageTree.bind] at h
    split at h
    · rw [ih h, List.append_assoc]
      rfl
    · cases h
    · cases h

theorem bind_present {bound : SecureDirectory} {rest : List Text}
    (h : tree.bind directory (name :: rest) = .ok bound) :
    (tree (directory.path ++ [name])).isNone = false := by
  rw [StorageTree.bind] at h
  split at h
  · rename_i hnode
    rw [hnode]
    rfl
  · cases h
  · cases h

/-- A component that `validate_relative` keeps is a path of its own. -/
theorem PlainComponent.validateRelative {component : Text} (h : PlainComponent component) :
    validateRelative component = some [component] := by
  have hsingle : ∀ c ∈ [component], PlainComponent c := by
    intro c hc
    rw [List.mem_singleton.mp hc]
    exact h
  have hrender := validateRelative_render hsingle
  rwa [show ['/'].intercalate [component] = component by simp [List.intercalate]] at hrender

end MissingDirectories

variable {target : PublicUploadTarget} {env : UploadEnvironment} {w : UploadWorld}

section Observations

variable {ε : Type} {I : UploadWorld → Prop}

/-- Other requests do not disturb `I`. -/
def UploadEnvironment.Endures (env : UploadEnvironment) (I : UploadWorld → Prop) : Prop :=
  ∀ t, I t → I (t.elapse env)

variable (hI : env.Endures I)

include hI

variable (hw : I w)

include hw

theorem maintains_sameDirectory {other : SecureDirectory} :
    Maintains I (directory.sameDirectory other) env w fun _ _ => True := by
  unfold sameDirectory storageStep
  exact maintains_uploadStep (hI w hw) fun _ => ⟨hI w hw, trivial⟩

/-- Both `entry_exists` and `destination_exists` begin with this step. -/
theorem maintains_lookup {path : List Text} :
    Maintains I (storageStep fun _ w => match w.tree path with
      | some _ => .ok () w
      | none => .err .notFound w) env w fun _ _ => True := by
  unfold storageStep
  refine maintains_uploadStep (hI w hw) fun _ => ?_
  split
  · exact ⟨hI w hw, trivial⟩
  · exact hI w hw

theorem maintains_entryExists : Maintains I (directory.entryExists name) env w fun _ _ => True := by
  unfold entryExists
  refine (maintains_lookup hI hw).attempt.bind fun result t ht _ => ?_
  split
  · exact ⟨ht, trivial⟩
  · exact ⟨ht, trivial⟩
  · exact ⟨ht, trivial⟩
  · exact ht

theorem maintains_destinationExists :
    Maintains I (target.destinationExists directory) env w fun _ _ => True := by
  unfold PublicUploadTarget.destinationExists
  refine (maintains_lookup hI hw).attempt.bind fun result t ht _ => ?_
  split
  · exact ⟨ht, trivial⟩
  · exact ⟨ht, trivial⟩
  · exact ht

theorem maintains_existsIn {current : Option SecureDirectory} :
    Maintains I (target.existsIn current) env w fun _ _ => True := by
  cases current with
  | none => exact ⟨hw, trivial⟩
  | some => exact maintains_destinationExists hI hw

theorem maintains_expectedDestinationMatches {current : Option SecureDirectory} :
    Maintains I (target.expectedDestinationMatches current) env w fun _ _ => True := by
  unfold PublicUploadTarget.expectedDestinationMatches
  split
  · exact maintains_sameDirectory hI hw
  · exact ⟨hw, trivial⟩
  · exact ⟨hw, trivial⟩

theorem maintains_attemptQuietStep :
    Maintains I (Action.attempt quietStep : UploadM ε (Except StorageError Unit)) env w
      fun _ _ => True :=
  (maintains_quietStep (hI w hw)).attempt.mono fun _ _ _ _ => trivial

theorem maintains_persistRequiredFileAudit :
    Maintains I persistRequiredFileAudit env w fun _ _ => True := by
  unfold persistRequiredFileAudit
  refine (maintains_attemptQuietStep hI hw).bind fun result t ht _ => ?_
  cases result with
  | ok => exact ⟨ht, trivial⟩
  | error => exact ⟨ht, trivial⟩

theorem maintains_finishPublication {uncertain : Bool} :
    Maintains I (finishPublication uncertain) env w fun _ _ => True := by
  unfold finishPublication
  refine (maintains_attemptQuietStep hI hw).bind fun result t ht _ => ?_
  cases result with
  | ok => exact ⟨ht, trivial⟩
  | error => exact ⟨ht, trivial⟩

theorem maintains_fragmentIsAt {inode : ℕ} {path : Option (List Text)} :
    Maintains I (fragmentIsAt inode path) env w fun _ _ => True := by
  unfold fragmentIsAt storageStep
  refine maintains_uploadStep (hI w hw) fun _ => ?_
  split
  · split
    · exact ⟨hI w hw, trivial⟩
    · exact ⟨hI w hw, trivial⟩
  · exact ⟨hI w hw, trivial⟩

theorem maintains_createDirectoryWithOutcome
    (hmkdir : ∀ t, I t → Maintains I (directory.mkdir name) env t fun _ _ => True) :
    Maintains I (directory.createDirectoryWithOutcome name) env w fun _ _ => True := by
  unfold createDirectoryWithOutcome
  split
  · exact hw
  refine (maintains_entryExists hI hw).bind fun found t ht _ => ?_
  split
  · exact ht
  refine (hmkdir t ht).attempt.bind fun result u hu _ => ?_
  split
  · refine (maintains_attemptQuietStep hI hu).bind fun result v hv _ => ?_
    split
    · exact ⟨hv, trivial⟩
    · exact ⟨hv, trivial⟩
  · refine (maintains_entryExists hI hu).attempt.bind fun result v hv _ => ?_
    split
    · exact hv
    · exact (maintains_attemptQuietStep hI hv).bind fun _ x hx _ => ⟨hx, trivial⟩
    · exact (maintains_attemptQuietStep hI hv).bind fun _ x hx _ => ⟨hx, trivial⟩

/-- The loop makes directories only at the components, in the directories it descends to. -/
theorem maintains_ensureComponents {P : SecureDirectory → List Text → Prop}
    (hmkdir : ∀ current name rest t, P current (name :: rest) → I t →
      Maintains I (current.mkdir name) env t fun _ _ => True)
    (hchild : ∀ current name rest child t bound, P current (name :: rest) → I t →
      validateRelative name = some bound → t.tree.bind current bound = .ok child → P child rest)
    {rest : List Text} {current : SecureDirectory} {currentPath : List Text}
    {created : List (List Text)} {syncError : Bool} (hP : P current rest) :
    Maintains I (ensureComponents rest current currentPath created syncError) env w
      fun _ _ => True := by
  induction rest generalizing current currentPath created syncError w with
  | nil => exact ⟨hw, trivial⟩
  | cons component rest ih =>
    have hend : ∀ created syncError error t, I t →
        Maintains I (endTree created syncError error) env t fun _ _ => True := by
      intro created syncError error t ht
      unfold endTree
      split
      · exact ht
      · exact ⟨ht, trivial⟩
    unfold ensureComponents
    refine (maintains_createDirectoryWithOutcome hI hw (hmkdir current component rest · hP)).attempt
      |>.bind fun result t ht _ => ?_
    split
    case h_3 => exact hend _ _ _ t ht
    -- The directory is there, whether it was made now or before.
    all_goals
      refine (maintains_bindDirectory (hI t ht)).attempt.bind fun result u hu hres => ?_
      split
      · rename_i child
        obtain ⟨-, bound, hbound, hbind⟩ := hres child rfl
        exact ih hu (hchild current component rest child u bound hP hu hbound hbind)
      · exact hend _ _ _ u hu

theorem maintains_publishFragment {replace : Bool}
    (hrename : ∀ replace path t, I t →
      Maintains I (renameFragment replace path) env t fun _ _ => True) :
    Maintains I (publishFragment replace directory name) env w fun _ _ => True := by
  unfold publishFragment
  split
  · exact hw
  refine (maintains_quietStep (hI w hw)).bind fun _ t ht _ => ?_
  have hinode : Maintains I (storageStep fun _ w =>
      .ok ((w.fragment.map UploadFragment.inode).getD 0) w) env t fun _ _ => True :=
    maintains_uploadStep (hI t ht) fun _ => ⟨hI t ht, trivial⟩
  refine hinode.bind fun inode u hu _ => ?_
  refine (hrename replace _ u hu).attempt.bind fun result v hv _ => ?_
  split
  · exact maintains_finishPublication hI hv
  refine (maintains_fragmentIsAt hI hv).attempt.bind fun result x hx _ => ?_
  split
  case h_1 => exact maintains_finishPublication hI hx
  all_goals
    refine (maintains_fragmentIsAt hI hx).attempt.bind fun result y hy _ => ?_
    split
    · exact hy
    · exact maintains_finishPublication hI hy
    · exact maintains_finishPublication hI hy

theorem maintains_publishAndAudit {context : PublicationReady}
    (hrename : ∀ replace path t, I t →
      Maintains I (renameFragment replace path) env t fun _ _ => True) :
    Maintains I (publishAndAudit context) env w fun _ _ => True := by
  unfold publishAndAudit
  refine (maintains_quietStep (hI w hw)).mapError.bind fun _ t ht _ => ?_
  refine (maintains_publishFragment hI ht hrename).attempt.bind fun result u hu _ => ?_
  split
  · unfold publishError
    split
    · exact ⟨hu, trivial⟩
    · exact ⟨hu, trivial⟩
    · exact hu
  · exact (maintains_persistRequiredFileAudit hI hu).bind fun _ v hv _ => ⟨hv, trivial⟩

theorem maintains_ensureDirectoryTreeWithOutcome {P : SecureDirectory → List Text → Prop}
    (hmkdir : ∀ current name rest t, P current (name :: rest) → I t →
      Maintains I (current.mkdir name) env t fun _ _ => True)
    (hchild : ∀ current name rest child t bound, P current (name :: rest) → I t →
      validateRelative name = some bound → t.tree.bind current bound = .ok child → P child rest)
    {relative : Text} (hP : ∀ components, validateRelative relative = some components →
      P directory components) :
    Maintains I (directory.ensureDirectoryTreeWithOutcome relative) env w fun _ _ => True := by
  unfold ensureDirectoryTreeWithOutcome
  split
  · exact hw
  · rename_i components hvalid
    split
    · exact maintains_ensureComponents hI hw hmkdir hchild (hP components hvalid)
    · exact hw

theorem maintains_ensurePublicUploadDirectory {relative : Text}
    (htree : ∀ t, I t →
      Maintains I (directory.ensureDirectoryTreeWithOutcome relative) env t fun _ _ => True) :
    Maintains I (ensurePublicUploadDirectory directory relative) env w fun _ _ => True := by
  unfold ensurePublicUploadDirectory
  split
  · exact hw
  · exact ⟨hw, trivial⟩
  refine Maintains.mapError ((htree w hw).bind fun outcome t ht _ => ?_)
  split
  · split
    · exact ht
    · exact ⟨ht, trivial⟩
  · refine (maintains_bindDirectory (hI t ht)).attempt.bind fun result u hu _ => ?_
    split
    · exact ⟨hu, trivial⟩
    · split
      · exact hu
      · exact ⟨hu, trivial⟩

theorem maintains_preparePublication {context : CommittedContext}
    (htree : context.currentDestination = none → ∀ t, I t →
      Maintains I (context.currentBase.ensureDirectoryTreeWithOutcome
        context.upload.target.folderPath) env t fun _ _ => True) :
    Maintains I (preparePublication context) env w fun _ _ => True := by
  have hdir : Maintains I (destinationDirectory context) env w fun _ _ => True := by
    unfold destinationDirectory
    split
    · exact ⟨hw, trivial⟩
    · rename_i hnone
      exact maintains_ensurePublicUploadDirectory hI hw (htree hnone)
  unfold preparePublication
  refine hdir.bind fun directory t ht _ => ?_
  have haudit : Maintains I (auditDirectoryOutcome directory) env t fun _ _ => True := by
    unfold auditDirectoryOutcome
    split
    · exact ⟨ht, trivial⟩
    · exact maintains_persistRequiredFileAudit hI ht
  refine haudit.bind fun auditUncertain u hu _ => ?_
  split
  · split
    · refine (maintains_destinationExists hI hu).attempt.bind fun result v hv _ => ?_
      split
      · exact hv
      · exact ⟨hv, trivial⟩
      · exact ⟨hv, trivial⟩
    · exact ⟨hu, trivial⟩
  · exact ⟨hu, trivial⟩

theorem maintains_publishCommitted {context : CommittedContext}
    (htree : context.currentDestination = none → ∀ t, I t →
      Maintains I (context.currentBase.ensureDirectoryTreeWithOutcome
        context.upload.target.folderPath) env t fun _ _ => True)
    (hrename : ∀ replace path t, I t →
      Maintains I (renameFragment replace path) env t fun _ _ => True) :
    Maintains I (publishCommitted context) env w fun _ _ => True := by
  unfold publishCommitted
  refine (maintains_preparePublication hI hw htree).bind fun step t ht _ => ?_
  cases step with
  | complete => exact ⟨ht, trivial⟩
  | proceed => exact maintains_publishAndAudit hI ht hrename

end Observations

variable {settings : UploadSettings} {token reservationToken : String} {shareId bytes : ℕ}
  {upload : PreparedUpload} {base : List Text}

section Inspection

variable {tree : StorageTree}

/-- A staged upload that holds the storage authority over the tree. -/
structure Inspecting (token reservationToken : String) (shareId bytes : ℕ) (tree : StorageTree)
    (t : UploadWorld) : Prop where
  staged : Staged token reservationToken shareId bytes t
  locked : t.locked = true
  tree_eq : t.tree = tree

theorem Inspecting.endures (hfr : env.Fresh reservationToken) :
    env.Endures (Inspecting token reservationToken shareId bytes tree) := by
  intro t h
  refine ⟨h.staged.elapse hfr, h.locked, ?_⟩
  show (if t.locked then t.tree else _) = tree
  rw [if_pos h.locked, h.tree_eq]

/-- The traversal counts every directory that is missing. -/
theorem maintains_bindComponents (hfr : env.Fresh reservationToken)
    (hplain : ∀ component ∈ components, PlainComponent component)
    (hw : Inspecting token reservationToken shareId bytes tree w) :
    Maintains (Inspecting token reservationToken shareId bytes tree)
      (bindComponents directory components) env w fun result _ =>
        result.1 = none → missing tree directory.path components ≤ result.2 := by
  induction components generalizing w directory with
  | nil => exact ⟨hw, fun h => nomatch h⟩
  | cons component rest ih =>
    unfold bindComponents
    refine (maintains_bindDirectory (Inspecting.endures hfr w hw)).attempt.bind
      fun result t ht hres => ?_
    split
    · rename_i child
      obtain ⟨-, components, hparts, hbound⟩ := hres child rfl
      rw [(hplain component List.mem_cons_self).validateRelative] at hparts
      cases hparts
      rw [ht.tree_eq] at hbound
      refine (ih (fun c hc => hplain c (List.mem_cons_of_mem component hc)) ht).mono ?_
      intro result u _ hcount hnone
      have hle := hcount hnone
      rw [bind_path hbound] at hle
      rw [missing, bind_present hbound]
      simpa using hle
    · exact ⟨ht, fun _ => missing_le_length tree directory.path (component :: rest)⟩
    · exact ht

theorem FolderOf.splitOn {folderPath : Text} (h : FolderOf components folderPath)
    (hne : folderPath ≠ []) : folderPath.splitOn '/' = components := by
  obtain ⟨hplain, rfl⟩ := h
  refine List.splitOn_intercalate _ (fun component hmem => (hplain component hmem).no_slash) ?_
  rintro rfl
  exact hne rfl

theorem maintains_bindCurrentDestination (hfr : env.Fresh reservationToken)
    (hfol : FolderOf components target.folderPath) {currentBase : SecureDirectory}
    (hw : Inspecting token reservationToken shareId bytes tree w) :
    Maintains (Inspecting token reservationToken shareId bytes tree)
      (bindCurrentDestination target currentBase) env w fun result _ =>
        result.1 = none → missing tree currentBase.path components ≤ result.2 := by
  unfold bindCurrentDestination
  split
  · exact ⟨hw, fun h => nomatch h⟩
  · rename_i hne
    rw [hfol.splitOn fun h => hne (List.isEmpty_iff.mpr h)]
    exact maintains_bindComponents hfr hfol.1 hw

theorem maintains_inspectStorageTarget (hfr : env.Fresh reservationToken) {sharePath : Text}
    (hfol : FolderOf components target.folderPath)
    (hw : Inspecting token reservationToken shareId bytes tree w) :
    Maintains (Inspecting token reservationToken shareId bytes tree)
      (inspectStorageTarget sharePath target) env w fun storage _ =>
        storage.currentDestination = none →
          missing tree storage.currentBase.path components ≤ storage.directoriesToCreate := by
  have hendu : env.Endures (Inspecting token reservationToken shareId bytes tree) :=
    Inspecting.endures hfr
  unfold inspectStorageTarget
  have hbase : Maintains (Inspecting token reservationToken shareId bytes tree) (do
      let scope ← bindDirectory ⟨[], 0⟩ sharePath
      scope.bindDirectory target.uploadBase) env w fun _ _ => True := by
    refine (maintains_bindDirectory (hendu w hw)).bind fun scope t ht _ => ?_
    exact (maintains_bindDirectory (hendu t ht)).mono fun _ _ _ _ => trivial
  refine hbase.mapError.bind fun currentBase t ht _ => ?_
  refine (maintains_sameDirectory hendu ht).mapError.bind fun same u hu _ => ?_
  split
  · exact hu
  refine (maintains_bindCurrentDestination hfr hfol hu).bind
    fun ⟨current, count⟩ v hv hcount => ?_
  refine (maintains_expectedDestinationMatches hendu hv).mapError.bind fun expected x hx _ => ?_
  split
  · exact hx
  refine (maintains_existsIn hendu hx).mapError.bind fun existed y hy _ => ⟨hy, hcount⟩

theorem maintains_cancel (hfr : env.Fresh reservationToken)
    (hw : Staged token reservationToken shareId bytes w) :
    Maintains (Staged token reservationToken shareId bytes) upload.cancel env w
      fun _ _ => True := by
  have hela := hw.elapse hfr
  have hcan : Maintains (Staged token reservationToken shareId bytes) (database fun _ s =>
      .ok (cancelUploadReservation upload.reservation.token s)) env w fun _ _ => True := by
    refine maintains_database hela fun now store a hres => ⟨?_, trivial⟩
    cases hres
    exact hela.store (FewerReservations.keeps fun _ hrow =>
      (KeyedTable.mem_deleteWhere.mp hrow).1)
  exact hcan.bind fun _ t ht _ => ⟨ht, trivial⟩

/-- `finish_clean` and `cancel` before an upload is turned away. -/
theorem maintains_turnAway {α : Type} (hfr : env.Fresh reservationToken)
    {answer : UploadM AppError α} {Q : α → UploadWorld → Prop}
    (hw : Staged token reservationToken shareId bytes w)
    (hans : ∀ t, Staged token reservationToken shareId bytes t →
      Maintains (Staged token reservationToken shareId bytes) answer env t Q) :
    Maintains (Staged token reservationToken shareId bytes)
      (do finishClean; upload.cancel; answer) env w Q := by
  have hfree : Maintains (Staged token reservationToken shareId bytes)
      (finishClean : UploadM AppError Unit) env w fun _ _ => True :=
    ⟨⟨hw.unpaid, hw.lookedUp, hw.reserved, hw.fragment⟩, trivial⟩
  refine hfree.bind fun _ t ht _ => ?_
  exact (maintains_cancel hfr ht).bind fun _ u hu _ => hans u hu

/-- What the inspection has found out about a context the finalizer goes on with. -/
def Inspected (upload : PreparedUpload) (components : List Text) (t : UploadWorld) :
    FinalizerStep PreflightUpload → Prop
  | .complete _ => True
  | .proceed context => context.upload = upload ∧ t.locked = true ∧
      (context.storage.currentDestination = none →
        missing t.tree context.storage.currentBase.path components ≤
          context.storage.directoriesToCreate)

theorem maintains_preflightUpload (hfr : env.Fresh reservationToken)
    (hfol : FolderOf components upload.target.folderPath)
    (hw : Staged token reservationToken shareId bytes w) :
    Maintains (Staged token reservationToken shareId bytes) (preflightUpload settings token upload)
      env w fun step t => Inspected upload components t step := by
  unfold preflightUpload
  have hacquire : Maintains (Staged token reservationToken shareId bytes) acquireStorageMutation
      env w fun _ t => t.locked = true := by
    have hela := hw.elapse hfr
    unfold acquireStorageMutation
    refine maintains_uploadStep hela fun _ => ⟨?_, rfl⟩
    exact ⟨hela.unpaid, hela.lookedUp, hela.reserved, hela.fragment⟩
  refine hacquire.bind fun _ t ht hlocked => ?_
  -- the tree does not change any more
  have hstaged : ∀ u, Inspecting token reservationToken shareId bytes t.tree u →
      Staged token reservationToken shareId bytes u := fun u hu => hu.staged
  have hlookup : Maintains (Inspecting token reservationToken shareId bytes t.tree)
      (getShare token) env t fun _ _ => True := by
    have hela := Inspecting.endures hfr t ⟨ht, hlocked, rfl⟩
    refine (maintains_getShare hela fun share => ?_).mono fun _ _ _ _ => trivial
    have hloo := List.mem_append_left [.lookedUp token share.id] hela.staged.lookedUp
    exact ⟨⟨hela.staged.unpaid.note token share.id, hloo, hela.staged.reserved,
      hela.staged.fragment⟩, hela.locked, hela.tree_eq⟩
  refine (hlookup.attempt.weaken hstaged).bind fun result u hu ⟨hheld, _⟩ => ?_
  cases result with
  | error => exact maintains_turnAway hfr hu fun v hv => hv
  | ok =>
    dsimp only
    split
    · exact maintains_turnAway hfr hu fun v hv => ⟨hv, trivial⟩
    refine ((maintains_inspectStorageTarget hfr hfol hheld).attempt.weaken hstaged).bind
      fun result v hv ⟨hheld', hres⟩ => ?_
    split
    · exact maintains_turnAway hfr hv fun x hx => ⟨hx, trivial⟩
    · exact maintains_turnAway hfr hv fun x hx => hx
    · split
      · exact maintains_turnAway hfr hv fun x hx => ⟨hx, trivial⟩
      · refine ⟨hv, rfl, hheld'.locked, fun hnone => ?_⟩
        rw [hheld'.tree_eq]
        exact hres _ rfl hnone

end Inspection

section Publication

variable {directories : ℕ}

/-- How many files are staged. -/
def UploadWorld.staged (t : UploadWorld) : ℕ := if t.fragment.isSome then 1 else 0

/-- The upload has paid for its staged file and for every directory still missing along the
components, and holds the storage authority. -/
structure Paying (token : String) (shareId bytes directories : ℕ) (base components : List Text)
    (t : UploadWorld) : Prop where
  paid : Paid token shareId bytes directories (missing t.tree base components) t.staged t.trace
  locked : t.locked = true
  fragment : ∀ f, t.fragment = some f → f.bytes = bytes

theorem Paying.endures : env.Endures (Paying token shareId bytes directories base components) := by
  intro t h
  have htree : (t.elapse env).tree = t.tree := if_pos h.locked
  refine ⟨?_, h.locked, h.fragment⟩
  rw [htree]
  exact h.paid

/-- The trace is honest: all that the upload made visible was charged before. -/
def Charged (token : String) (t : UploadWorld) : Prop := Honest token t.trace

theorem Staged.charged {t : UploadWorld} (h : Staged token reservationToken shareId bytes t) :
    Charged token t := .inl h.unpaid

theorem Paying.charged {t : UploadWorld}
    (h : Paying token shareId bytes directories base components t) : Charged token t :=
  .inr ⟨shareId, bytes, directories, h.paid.mono (Nat.zero_le _) (Nat.zero_le _)⟩

/-- A directory on the way to the destination is one that was paid for. -/
theorem maintains_mkdir {back : List Text} (hpath : directory.path = base ++ front)
    (hparts : components = front ++ name :: back)
    (hw : Paying token shareId bytes directories base components w) :
    Maintains (Paying token shareId bytes directories base components) (directory.mkdir name) env w
      fun _ _ => True := by
  have hela : Paying token shareId bytes directories base components (w.elapse env) :=
    Paying.endures w hw
  unfold mkdir storageStep
  refine maintains_uploadStep hela fun moment => ?_
  dsimp only
  split
  · exact hela
  · rename_i hfree
    rw [hpath] at hfree ⊢
    refine ⟨⟨Paid.created ?_ _, hela.locked, hela.fragment⟩, trivial⟩
    have hpaid := hela.paid
    rw [hparts] at hpaid ⊢
    rwa [← missing_make moment.inode hfree] at hpaid

/-- The tree below the base is made along the components, which are paid for. -/
theorem Paying.maintains_ensureDirectoryTree {relative : Text}
    (hfol : FolderOf components relative)
    (hw : Paying token shareId bytes directories directory.path components w) :
    Maintains (Paying token shareId bytes directories directory.path components)
      (directory.ensureDirectoryTreeWithOutcome relative) env w fun _ _ => True := by
  have hvalid : validateRelative relative = some components := by
    rw [hfol.2]
    exact validateRelative_render hfol.1
  -- the loop is at a front of the components
  refine maintains_ensureDirectoryTreeWithOutcome Paying.endures hw
    (P := fun current rest => ∃ front, current.path = directory.path ++ front ∧
      components = front ++ rest) ?_ ?_ ?_
  · rintro current name rest t ⟨front, hpath, hparts⟩ ht
    exact maintains_mkdir hpath hparts ht
  · rintro current name rest child t bound ⟨front, hpath, hparts⟩ - hbound hbind
    have hmem : name ∈ components := hparts ▸ List.mem_append_right front List.mem_cons_self
    rw [(hfol.1 name hmem).validateRelative] at hbound
    cases hbound
    refine ⟨front ++ [name], ?_, ?_⟩
    · rw [bind_path hbind, hpath, List.append_assoc]
    · rw [hparts, List.append_assoc]
      rfl
  · intro found hfound
    cases hvalid.symm.trans hfound
    exact ⟨[], by rw [List.append_nil], rfl⟩

/-- The published file has the bytes that were paid for. -/
theorem maintains_renameFragment {replace : Bool} {path : List Text}
    (hw : Paying token shareId bytes directories base components w) :
    Maintains (Paying token shareId bytes directories base components)
      (renameFragment replace path) env w fun _ _ => True := by
  have hela : Paying token shareId bytes directories base components (w.elapse env) :=
    Paying.endures w hw
  have hpub : ∀ fragment, (w.elapse env).fragment = some fragment →
      Paying token shareId bytes directories base components
        ({ w.elapse env with
          tree := (w.elapse env).tree.set path (.file fragment.inode fragment.bytes)
          fragment := none }.note (.published path fragment.bytes)) := by
    intro fragment hfra
    refine ⟨?_, hela.locked, fun f hf => nomatch hf⟩
    have hone : (w.elapse env).staged = 0 + 1 := by simp [UploadWorld.staged, hfra]
    have hpaid := hela.paid.mono
      (missing_set_le _ base path (.file fragment.inode fragment.bytes) components) hone.ge
    have hbytes := hela.fragment fragment hfra
    have htrace := hpaid.published path
    rw [← hbytes] at htrace ⊢
    exact htrace
  unfold renameFragment storageStep
  refine maintains_uploadStep hela fun _ => ?_
  split
  · exact hela
  · exact hela
  · rename_i fragment _ _ hfra _
    split
    · exact ⟨hpub fragment hfra, trivial⟩
    · exact hela
  · rename_i fragment hfra _
    exact ⟨hpub fragment hfra, trivial⟩

end Publication

section Finalizing

/-- The quota transaction pays for what the inspection counted. -/
theorem maintains_commitReservation {directories : ℕ} {operationHash : String}
    (hfr : env.Fresh upload.reservation.token)
    (hw : Staged token upload.reservation.token shareId upload.total w) (hlocked : w.locked = true)
    (hmis : missing w.tree base components ≤ directories) :
    Maintains (Charged token) (commitReservation upload directories operationHash) env w
      fun outcome t => outcome = .committed →
        Paying token shareId upload.total directories base components t := by
  have hela := hw.elapse hfr
  have htree : (w.elapse env).tree = w.tree := if_pos hlocked
  unfold commitReservation
  refine maintains_uploadStep hela.charged fun moment => ?_
  split
  · rename_i store hcommit
    have hpaid := hela.unpaid.charged hela.lookedUp
      (commitUploadReservation_charges hela.reserved hcommit)
    refine ⟨.inr ⟨shareId, _, _, hpaid.mono (Nat.zero_le _) (Nat.zero_le _)⟩,
      fun _ => ⟨?_, hlocked, ?_⟩⟩
    · refine hpaid.mono ?_ ?_
      · show missing (w.elapse env).tree base components ≤ directories
        rw [htree]
        exact hmis
      · unfold UploadWorld.staged
        split <;> omega
    · exact hela.fragment
  · rename_i store outcome hne hcommit
    exact ⟨hela.charged, fun heq => absurd heq hne⟩
  · exact hela.charged

/-- What is paid for when the finalizer goes on to publish. -/
def PaidFor (token : String) (t : UploadWorld) : FinalizerStep CommittedContext → Prop
  | .complete _ => True
  | .proceed context => ∃ shareId bytes directories components,
      Paying token shareId bytes directories context.currentBase.path components t ∧
        (context.currentDestination = none →
          FolderOf components context.upload.target.folderPath)

theorem maintains_commitUpload {context : PreflightUpload} {operationHash : String}
    (hfr : env.Fresh upload.reservation.token)
    (hfol : FolderOf components upload.target.folderPath)
    (hw : Staged token upload.reservation.token shareId upload.total w)
    (hcontext : Inspected upload components w (.proceed context)) :
    Maintains (Charged token) (commitUpload operationHash context) env w
      fun step t => PaidFor token t step := by
  obtain ⟨rfl, hlocked, hcount⟩ := hcontext
  -- where the destination is there, nothing is left to make
  obtain ⟨along, hmis, halong⟩ : ∃ along,
      missing w.tree context.storage.currentBase.path along ≤
        context.storage.directoriesToCreate ∧
      (context.storage.currentDestination = none →
        FolderOf along context.upload.target.folderPath) := by
    by_cases hnone : context.storage.currentDestination = none
    · exact ⟨components, hcount hnone, fun _ => hfol⟩
    · exact ⟨[], Nat.zero_le _, fun h => absurd h hnone⟩
  unfold commitUpload
  refine (maintains_commitReservation hfr hw hlocked hmis).bind
    fun outcome t ht hpaying => ?_
  cases outcome with
  | committed => exact ⟨ht, shareId, _, _, along, hpaying rfl, halong⟩
  | notFound | shareUnavailable | directoryQuotaReached => exact ⟨ht, trivial⟩

variable {request : UploadRequest}

theorem maintains_runFinalizer (hfr : env.Fresh upload.reservation.token)
    (hfol : FolderOf components upload.target.folderPath)
    (hw : Staged request.token upload.reservation.token shareId upload.total w) :
    Maintains (Charged request.token) (runFinalizer settings request upload) env w
      fun _ _ => True := by
  unfold runFinalizer
  refine ((maintains_preflightUpload hfr hfol hw).weaken fun t ht => ht.charged).bind
    fun step t ht ⟨hstaged, hinspected⟩ => ?_
  cases step with
  | complete => exact ⟨ht, trivial⟩
  | proceed =>
    refine (maintains_commitUpload hfr hfol hstaged hinspected).bind
      fun step u hu hpaid => ?_
    cases step with
    | complete => exact ⟨hu, trivial⟩
    | proceed =>
      obtain ⟨shareId, bytes, directories, along, hpaying, halong⟩ := hpaid
      refine (Maintains.weaken (maintains_publishCommitted Paying.endures hpaying ?_ ?_)
        fun v hv => hv.charged).mono fun _ _ _ _ => trivial
      · exact fun hnone v hv => hv.maintains_ensureDirectoryTree (halong hnone)
      · exact fun replace path v hv => maintains_renameFragment hv

/-- A transaction on the row of the operation leaves the reservations alone. -/
theorem maintains_operation {α : Type} {bytes : ℕ} {transaction : Instant → Store → Store × α}
    (hfr : env.Fresh reservationToken)
    (hkeeps : ∀ now s, (transaction now s).1.reservations = s.reservations)
    (hw : Staged token reservationToken shareId bytes w) :
    Maintains (Staged token reservationToken shareId bytes)
      (database fun now s => .ok (transaction now s)) env w fun _ _ => True := by
  have hela := hw.elapse hfr
  refine maintains_database hela fun now store a hres => ⟨hela.store ?_, trivial⟩
  have hstore : (transaction now (w.elapse env).store).1 = store :=
    congrArg Prod.fst (Except.ok.inj hres)
  exact (fewerReservations_of_eq (hstore ▸ hkeeps now _)).keeps

/-- No transaction but the charge is on the trace. -/
theorem maintains_recorded {α : Type} {transaction : Instant → Store → Except DbError (Store × α)}
    (hw : Charged token w) :
    Maintains (Charged token) (database transaction) env w fun _ _ => True :=
  maintains_database hw fun _ _ _ _ => ⟨hw, trivial⟩

theorem maintains_runPublicUploadFinalizer (hfr : env.Fresh upload.reservation.token)
    (hfol : FolderOf components upload.target.folderPath)
    (hw : Staged request.token upload.reservation.token shareId upload.total w) :
    Maintains (Charged request.token) (runPublicUploadFinalizer settings request upload) env w
      fun _ _ => True := by
  unfold runPublicUploadFinalizer
  have hmark : Maintains (Staged request.token upload.reservation.token shareId upload.total)
      (database fun _ s => .ok (markUploadCommitting request.operationHash s)) env w
      fun _ _ => True := maintains_operation hfr (fun _ _ => rfl) hw
  refine (hmark.weaken fun t ht => ht.charged).bind fun marked t ht ⟨hstaged, _⟩ => ?_
  split
  · exact ht
  refine (maintains_runFinalizer hfr hfol hstaged).attempt.bind fun result u hu _ => ?_
  refine (maintains_recorded hu).bind fun persisted v hv _ => ?_
  split
  · exact hv
  have hfree : Maintains (Charged request.token) (finishClean : UploadM AppError Unit) env v
      fun _ _ => True := ⟨hv, trivial⟩
  exact hfree.bind fun _ x hx _ => (Maintains.ofExcept hx).mono fun _ _ _ _ => trivial

/-- Wherever the upload ends, its trace is honest. -/
theorem maintains_executeClaimedPublicUpload (hfr : env.Fresh request.reservationToken)
    (hw : Uncharged w) :
    Maintains (Charged request.token) (executeClaimedPublicUpload settings request) env w
      fun _ _ => True := by
  unfold executeClaimedPublicUpload
  refine ((maintains_stageUpload hfr hw).attempt.weaken fun t ht => .inl ht).bind
    fun result t ht ⟨huncharged, hres⟩ => ?_
  cases result with
  | error error =>
    cases error with
    | rejection => exact (maintains_recorded ht).bind fun _ u hu _ => ⟨hu, trivial⟩
    | app => exact ht
  | ok upload =>
    obtain ⟨shareId, hloo, hhanded⟩ := hres upload rfl
    obtain ⟨components, hfol⟩ := hhanded.folder
    rw [← hhanded.token_eq] at hfr
    have hstaged : Staged request.token upload.reservation.token shareId upload.total t :=
      ⟨huncharged, hloo, hhanded.token_eq ▸ hhanded.reserved, hhanded.fragment⟩
    have hbind : Maintains (Staged request.token upload.reservation.token shareId upload.total)
        (database fun _ s => .ok (bindUploadFingerprint request.operationHash request.fingerprint
          request.fragmentName s)) env t fun _ _ => True :=
      maintains_operation hfr (fun _ _ => rfl) hstaged
    refine (hbind.weaken fun u hu => hu.charged).bind fun bound u hu ⟨hstaged, _⟩ => ?_
    split
    · exact hu
    · exact maintains_runPublicUploadFinalizer hfr hfol hstaged

/-- A directory or file the upload has made visible. -/
def UploadTrace.Visible (event : UploadTrace) : Prop :=
  event.isCreated = true ∨ ∃ path bytes, event = .published path bytes

theorem not_visible_lookedUp {token : String} {shareId : ℕ} :
    ¬(UploadTrace.lookedUp token shareId).Visible := by
  rintro (hcreated | ⟨_, _, hpub⟩)
  · cases hcreated
  · cases hpub

theorem not_visible_charged {before after : Store} :
    ¬(UploadTrace.charged before after).Visible := by
  rintro (hcreated | ⟨_, _, hpub⟩)
  · cases hcreated
  · cases hpub

/-- What an upload that has paid makes visible comes after the payment. -/
theorem charged_mem_earlier {lookups earlier later rest : List UploadTrace} {before after : Store}
    {event : UploadTrace} (hunp : Unpaid lookups) (hvis : event.Visible)
    (h : lookups ++ .charged before after :: rest = earlier ++ event :: later) :
    ∃ between, earlier = lookups ++ .charged before after :: between := by
  have hnot : event ∉ lookups ++ [.charged before after] := by
    intro hmem
    obtain hmem | hmem := List.mem_append.mp hmem
    · obtain ⟨token, shareId, rfl⟩ := hunp event hmem
      exact not_visible_lookedUp hvis
    · rw [List.mem_singleton.mp hmem] at hvis
      exact not_visible_charged hvis
  rw [List.append_cons] at h
  obtain ⟨between, hear, -⟩ | ⟨between, hlookups, hrest⟩ := List.append_eq_append_iff.mp h
  · exact ⟨between, by rw [hear, ← List.append_cons]⟩
  · cases between with
    | nil => exact ⟨[], by simpa using hlookups.symm⟩
    | cons =>
      obtain ⟨rfl, -⟩ := List.cons.inj hrest
      exact absurd (hlookups ▸ List.mem_append_right earlier List.mem_cons_self) hnot

/-- However an upload ends and whatever happens around it: before anything it makes visible, the
share it looked up under its token was charged, for exactly the bytes of what it publishes, for
one file, and for at least the directories it creates; and it publishes no second file. -/
theorem visible_uploads_are_charged (settings : UploadSettings) (request : UploadRequest)
    (env : UploadEnvironment) (hfresh : env.Fresh request.reservationToken) (w : UploadWorld)
    (hstart : w.trace = []) (earlier later : List UploadTrace) (event : UploadTrace)
    (htrace : (executeClaimedPublicUpload settings request env w).state.trace =
      earlier ++ event :: later) (hvisible : event.Visible) :
    ∃ before after shareId bytes directories,
      .charged before after ∈ earlier ∧ .lookedUp request.token shareId ∈ earlier ∧
      ChargedBy before after shareId bytes directories ∧
      (∀ path published, .published path published ∈ earlier ++ event :: later →
        published = bytes) ∧
      (earlier ++ event :: later).countP UploadTrace.isCreated ≤ directories ∧
      (earlier ++ event :: later).countP UploadTrace.isPublished ≤ 1 := by
  have hidle : Uncharged w := by
    intro event hev
    rw [hstart] at hev
    cases hev
  have hrun : Maintains (Charged request.token) (executeClaimedPublicUpload settings request) env w
      fun _ _ => True := maintains_executeClaimedPublicUpload hfresh hidle
  have hhonest : Honest request.token _ := hrun.state
  rw [htrace] at hhonest
  obtain hunp | ⟨shareId, bytes, directories, lookups, before, after, rest, hsplit, hunp,
    hloo, hchar, hbytes, hatMost, hone⟩ := hhonest
  · obtain ⟨token, shareId, rfl⟩ := hunp event (List.mem_append_right earlier List.mem_cons_self)
    exact absurd hvisible not_visible_lookedUp
  · obtain ⟨between, hear⟩ := charged_mem_earlier hunp hvisible hsplit.symm
    have hnone : ∀ path published, .published path published ∉ lookups := by
      intro path published hmem
      obtain ⟨_, _, heq⟩ := hunp _ hmem
      cases heq
    have hcount : ∀ p : UploadTrace → Bool, (∀ token shareId, p (.lookedUp token shareId) = false) →
        p (.charged before after) = false →
        (earlier ++ event :: later).countP p = rest.countP p := by
      intro p hlookedUp hcharged
      have hzero : lookups.countP p = 0 := by
        refine List.countP_eq_zero.mpr fun event hmem => ?_
        obtain ⟨token, shareId, rfl⟩ := hunp event hmem
        simp [hlookedUp]
      rw [hsplit, List.countP_append, hzero, List.countP_cons]
      simp [hcharged]
    refine ⟨before, after, shareId, bytes, directories, ?_, ?_, hchar, ?_, ?_, ?_⟩
    · rw [hear]
      exact List.mem_append_right lookups List.mem_cons_self
    · rw [hear]
      exact List.mem_append_left _ hloo
    · intro path published hmem
      rw [hsplit] at hmem
      obtain hmem | hmem := List.mem_append.mp hmem
      · exact absurd hmem (hnone path published)
      · exact hbytes path published (List.mem_of_ne_of_mem (by simp) hmem)
    · exact (hcount _ (fun _ _ => rfl) rfl).trans_le hatMost
    · exact (hcount _ (fun _ _ => rfl) rfl).trans_le hone

/-- A share for uploads into `d`, and a claimed operation. -/
def claimedUpload : Store :=
  let shared := committed .empty (createShare 0 ⟨"share", none, ['d'], true, .uploadOnly, none,
    none, none, some 10, some 2, none, .reject, 1⟩ none .empty)
  let created := committed shared (createUploadOperation 0 (.share 1) "operation" shared)
  (claimUploadOperation 0 (.share 1) "operation" created).1

def newFolderStart : UploadWorld :=
  ⟨claimedUpload, Function.update (fun _ => none) [['d']] (some (.directory 1)), none, false, 0, [],
    []⟩

def undisturbedUpload : UploadEnvironment :=
  ⟨fun _ => .proceeds, fun time => ⟨0, time + 2, false, true⟩, fun _ => [], fun _ => id,
    fun _ => id⟩

/-- Four bytes for a file in a folder that is not there yet. -/
def newFolderRequest : UploadRequest :=
  ⟨"share", [], some ['n'], ['f'], false, [3, 1], "operation", "slot", "fingerprint", "fragment"⟩

def newFolderTrace : List UploadTrace :=
  (executeClaimedPublicUpload ⟨100, true, fun _ => false⟩ newFolderRequest undisturbedUpload
    newFolderStart).state.trace

def UploadTrace.publishes (path : List Text) (bytes : ℕ) : UploadTrace → Bool
  | .published path' bytes' => path' = path && bytes' = bytes
  | _ => false

theorem visible_uploads_are_charged_newFolder :
    ∃ earlier later, newFolderTrace = earlier ++ .published [['d'], ['n'], ['f']] 4 :: later ∧
      ∃ before after shareId bytes directories,
        .charged before after ∈ earlier ∧ .lookedUp "share" shareId ∈ earlier ∧
        ChargedBy before after shareId bytes directories ∧
        (∀ path published, .published path published ∈
          earlier ++ .published [['d'], ['n'], ['f']] 4 :: later → published = bytes) ∧
        (earlier ++ .published [['d'], ['n'], ['f']] 4 :: later).countP UploadTrace.isCreated ≤
          directories ∧
        (earlier ++ .published [['d'], ['n'], ['f']] 4 :: later).countP UploadTrace.isPublished ≤
          1 := by
  have hany : newFolderTrace.any (UploadTrace.publishes [['d'], ['n'], ['f']] 4) = true := by
    decide +kernel
  obtain ⟨event, hmem, hev⟩ := List.any_eq_true.mp hany
  obtain ⟨path, bytes, rfl⟩ : ∃ path bytes, event = .published path bytes := by
    cases event with
    | published path bytes => exact ⟨path, bytes, rfl⟩
    | _ => cases hev
  simp only [UploadTrace.publishes, Bool.and_eq_true, decide_eq_true_eq] at hev
  obtain ⟨rfl, rfl⟩ := hev
  obtain ⟨earlier, later, htrace⟩ := List.append_of_mem hmem
  exact ⟨earlier, later, htrace, visible_uploads_are_charged ⟨100, true, fun _ => false⟩
    newFolderRequest undisturbedUpload (fun _ _ hx => absurd hx List.not_mem_nil) newFolderStart
    rfl earlier later _ htrace (.inr ⟨_, _, rfl⟩)⟩

end Finalizing

end VaultLink
