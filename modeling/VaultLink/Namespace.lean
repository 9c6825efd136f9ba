import Mathlib.Data.List.AList
import VaultLink.PathSecurity
import VaultLink.WriteBack

/-!
# The storage namespace

Directory entries of the visible tree, of the private staging directory and of the directory
of upload fragments, keyed by the directory they are in and their name. A directory is known
by its identity, so moving it moves everything below it. Journals and manifests are records
that only the server writes; everything else is an object with a device and inode number
that a rename preserves.

A file map is what a namespace answers to lookups. Path resolution and the effect of every
directory operation depend on nothing else, which is what proofs are about.
-/
namespace VaultLink

open Function

section Entries

/-- `(dev, ino)`; the kernel never reports zero. -/
structure FileIdentity where
  device : ℕ
  inode : ℕ
  device_ne : device ≠ 0
  inode_ne : inode ≠ 0
deriving DecidableEq

/-- What `metadata` says about an entry. -/
inductive FileType
  | file
  | directory
  | symlink (target : Text)
  | special
deriving DecidableEq

inductive EntryKind
  | file
  | directory
deriving DecidableEq

def EntryKind.type : EntryKind → FileType
  | .file => .file
  | .directory => .directory

/-- The names in the staging directory, by the token drawn for them. -/
inductive StagingName
  | operation (token : ℕ)
  | operationTemporary (token : ℕ)
  | deletionPending (token : ℕ)
  | deletionManifest (token : ℕ)
  | deletionTombstone (token : ℕ)
  | other (name : Text)
deriving DecidableEq

inductive DurableRenamePhase
  | intent
  | moved
  | rollback
deriving DecidableEq

inductive DurableDeletePhase
  | intent
  | moved
  | rollback
deriving DecidableEq

structure RenameOperation where
  originalPath : Text
  newPath : Text
  kind : EntryKind
  device : ℕ
  inode : ℕ
  phase : DurableRenamePhase

structure DeleteOperation where
  originalPath : Text
  kind : EntryKind
  device : ℕ
  inode : ℕ
  pendingName : StagingName
  tombstoneName : StagingName
  allowRecursive : Bool
  phase : DurableDeletePhase

inductive DurableFileOperation
  | rename (operation : RenameOperation)
  | delete (operation : DeleteOperation)

/-- What a record file holds; a torn or unfinished write cannot be parsed. -/
inductive Content
  | incomplete
  | operation (operation : DurableFileOperation)
  | manifest (originalPath : Text)

inductive Entry
  | object (identity : FileIdentity) (type : FileType)
  | record (content : Content)

inductive Directory
  | root
  | node (identity : FileIdentity)
deriving DecidableEq

inductive Location
  | visible (directory : Directory) (name : Text)
  | staged (name : StagingName)
  -- In the directory of the upload fragments.
  | fragment (name : Text)
deriving DecidableEq

/-- What `fsync` is called on. -/
inductive SyncTarget
  | directory (directory : Directory)
  | staging
  | uploads
  | contents (name : StagingName)
deriving DecidableEq

def Location.target : Location → SyncTarget
  | .visible directory _ => .directory directory
  | .staged _ => .staging
  | .fragment _ => .uploads

end Entries

section Names

/-- The text of a staging name. -/
def StagingName.text : StagingName → Text
  | .operation token => s!".vaultlink-operation-{token}.json".toList
  | .operationTemporary token => s!".vaultlink-operation-{token}.json.pending".toList
  | .deletionPending token => s!".vaultlink-delete-pending-{token}.pending".toList
  | .deletionManifest token => s!".vaultlink-delete-pending-{token}.pending.manifest".toList
  | .deletionTombstone token => s!".vaultlink-delete-{token}.tombstone".toList
  | .other name => name

def deletionManifestName : StagingName → StagingName
  | .deletionPending token => .deletionManifest token
  | name => .other (name.text ++ ".manifest".toList)

def deletionPendingFromManifestName : StagingName → Option StagingName
  | .deletionManifest token => some (.deletionPending token)
  | _ => none

/-- The temporary name of a journal: `<operation_name>.pending`. -/
def temporaryName : StagingName → StagingName
  | .operation token => .operationTemporary token
  | name => .other (name.text ++ ".pending".toList)

def isFileOperationName : StagingName → Bool
  | .operation _ => true
  | _ => false

def isFileOperationTemporaryName : StagingName → Bool
  | .operationTemporary _ => true
  | _ => false

def isDeletionPendingName : StagingName → Bool
  | .deletionPending _ => true
  | _ => false

def isDeletionTombstoneName : StagingName → Bool
  | .deletionTombstone _ => true
  | _ => false

/-- The name was drawn before the token counter reached `n`. -/
def StagingName.drawnBefore (n : ℕ) : StagingName → Prop
  | .operation token | .operationTemporary token | .deletionPending token
  | .deletionManifest token | .deletionTombstone token => token < n
  | .other _ => True

end Names

section Mutations

abbrev Namespace := AList fun _ : Location => Entry

/-- What a namespace answers to lookups. -/
abbrev FileMap := Location → Option Entry

/-- A directory operation, or a write to a record file. -/
inductive Mutation
  | create (name : StagingName)
  | write (name : StagingName) (content : Content)
  | move (source destination : Location)
  | remove (location : Location)

def Mutation.apply : Mutation → Namespace → Namespace
  | .create name, ns => ns.insert (.staged name) (.record .incomplete)
  | .write name content, ns =>
    if (ns.lookup (.staged name)).isSome then ns.insert (.staged name) (.record content) else ns
  | .move source destination, ns =>
    match ns.lookup source with
    | none => ns
    | some entry => (ns.erase source).insert destination entry
  | .remove location, ns => ns.erase location

/-- The same on file maps. -/
def Mutation.act : Mutation → FileMap → FileMap
  | .create name, f => update f (.staged name) (some (.record .incomplete))
  | .write name content, f =>
    if (f (.staged name)).isSome then update f (.staged name) (some (.record content))
    else f
  | .move source destination, f =>
    match f source with
    | none => f
    | some entry => update (update f source none) destination (some entry)
  | .remove location, f => update f location none

/-- The directories, or the file, whose synchronization makes the mutation durable. -/
def Mutation.targets : Mutation → List SyncTarget
  | .create _ => [.staging]
  | .write name _ => [.contents name]
  | .move source destination => [source.target, destination.target].dedup
  | .remove location => [location.target]

def Namespace.map (ns : Namespace) : FileMap := fun location => ns.lookup location

theorem lookup_insert_eq (ns : Namespace) (location : Location) (entry : Entry) :
    Namespace.map (ns.insert location entry) =
      update ns.map location (some entry) := by
  funext other
  by_cases h : other = location
  · subst h
    simp [Namespace.map]
  · simp [Namespace.map, AList.lookup_insert_ne h, h]

theorem lookup_erase_eq (ns : Namespace) (location : Location) :
    Namespace.map (ns.erase location) = update ns.map location none := by
  funext other
  by_cases h : other = location
  · subst h
    simp [Namespace.map]
  · simp [Namespace.map, AList.lookup_erase_ne h, h]

/-- A mutation does to the lookups what it does to the namespace. -/
theorem map_apply (mutation : Mutation) (ns : Namespace) :
    Namespace.map (mutation.apply ns) = mutation.act ns.map := by
  cases mutation with
  | create => exact lookup_insert_eq ns _ _
  | write name content =>
    simp only [Mutation.apply, Mutation.act]
    show Namespace.map (if (ns.map (.staged name)).isSome then _ else _) = _
    split
    · exact lookup_insert_eq ns _ _
    · rfl
  | move source destination =>
    simp only [Mutation.apply, Mutation.act]
    show Namespace.map (match ns.map source with | none => _ | some entry => _) = _
    split
    · rfl
    · rw [lookup_insert_eq, lookup_erase_eq]
  | remove location => exact lookup_erase_eq ns location

end Mutations

section Resolution

/-- The components of a path beneath the root, walked from the innermost of the directories that
are open. What comes after a link is left to `follow`; the last component is never one. -/
def walk (f : FileMap) (follow : List Directory → List Text → Option Directory) :
    List Directory → List Text → Option Directory
  | opened, [] => some (opened.headD .root)
  | opened, component :: components =>
    if component.isEmpty || component = ['.'] then walk f follow opened components
    else if component = ['.', '.'] then
      match opened with
      | [] => none
      | _ :: opened => walk f follow opened components
    else
      match f (.visible (opened.headD .root) component) with
      | some (.object identity .directory) => walk f follow (.node identity :: opened) components
      | some (.object _ (.symlink target)) =>
        if components.isEmpty || target.head? = some '/' then none
        else follow opened (target.splitOn '/' ++ components)
      | _ => none

/-- A walk that may follow so many links. -/
def walkLinks (f : FileMap) : ℕ → List Directory → List Text → Option Directory
  | 0 => walk f fun _ _ => none
  | links + 1 => walk f (walkLinks f links)

/-- `openat2_scoped` of a directory: beneath the root, and through at most 40 links, the limit of
the kernel, or through none. -/
def resolve (forbidSymlinks : Bool) (f : FileMap) (path : List Text) : Option Directory :=
  walkLinks f (if forbidSymlinks then 0 else 40) [] path

section Congruence

variable {f g : FileMap} (h : ∀ directory name, g (.visible directory name) =
  f (.visible directory name))

include h

theorem walk_congr {follow follow' : List Directory → List Text → Option Directory}
    (hfollow : ∀ opened path, follow' opened path = follow opened path)
    (opened : List Directory) (path : List Text) :
    walk g follow' opened path = walk f follow opened path := by
  induction path generalizing opened with
  | nil => rfl
  | cons component components ih =>
    simp only [walk, h, ih, hfollow]

theorem walkLinks_congr (links : ℕ) (opened : List Directory) (path : List Text) :
    walkLinks g links opened path = walkLinks f links opened path := by
  induction links generalizing opened path with
  | zero => exact walk_congr h (fun _ _ => rfl) opened path
  | succ links ih => exact walk_congr h ih opened path

/-- Resolution looks at nothing but the visible tree. -/
theorem resolve_congr (forbidSymlinks : Bool) (path : List Text) :
    resolve forbidSymlinks g path = resolve forbidSymlinks f path :=
  walkLinks_congr h _ [] path

end Congruence

end Resolution

end VaultLink
