import VaultLink.PolicyEpoch
import VaultLink.PublicUpload

/-!
# What a staged upload has reserved

From the lookup of its share to the fully written fragment an upload makes nothing visible. At
the end its reservation is one of the share it looked up, and the fragment has as many bytes as
the upload counts. The trace of an upload is honest when what it made visible was charged
before.
-/
namespace VaultLink

open Store
open StagedUpload
open VaultLink.Action (Maintains)

section Charges

variable {token : String} {shareId : ℕ} {s s' : Store} {env : UploadEnvironment} {w : UploadWorld}

/-- Every reservation under the token is one of the share. -/
def ReservedFor (token : String) (shareId : ℕ) (s : Store) : Prop :=
  ∀ id epoch, s.reservedAs token id epoch → id = shareId

theorem ReservedFor.keeps (h : ReservedFor token shareId s) (hkeeps : KeepsReservations s s') :
    ReservedFor token shareId s' :=
  fun id epoch hreserved => h id epoch (hkeeps token id epoch hreserved)

/-- No other request reserves under the token. -/
def UploadEnvironment.Fresh (env : UploadEnvironment) (token : String) : Prop :=
  ∀ time, ∀ x ∈ env.transactions time, ∀ id epoch, x.call ≠ .beginReservation token id epoch

theorem ReservedFor.state (h : ReservedFor token shareId s) {history : List Execution}
    (hfr : ∀ x ∈ history, ∀ id epoch, x.call ≠ .beginReservation token id epoch) :
    ReservedFor token shareId (History.state Execution.after s history) := by
  induction history generalizing s with
  | nil => exact h
  | cons x history ih =>
    refine ih (fun id epoch hreserved => h id epoch (execute_reservation ?_ hreserved))
      fun x' hx' => hfr x' (List.mem_cons_of_mem x hx')
    rintro ⟨shareId', epoch', _, hcall, _⟩
    exact hfr x List.mem_cons_self shareId' epoch' hcall

theorem ReservedFor.elapse (h : ReservedFor token shareId w.store) (hfr : env.Fresh token) :
    ReservedFor token shareId (w.elapse env).store :=
  (h.state (hfr w.clock)).keeps (fewerReservations_of_eq rfl).keeps

/-- What a quota transaction adds to the usage of a share. -/
structure ChargedBy (before after : Store) (shareId bytes directories : ℕ) : Prop where
  bytes : after.uploadedBytes shareId = before.uploadedBytes shareId + bytes
  files : after.uploadedFiles shareId = before.uploadedFiles shareId + 1
  directories : after.createdDirectories shareId = before.createdDirectories shareId + directories

theorem chargedBy_addUploadUsage (shareId bytes directories : ℕ) (s : Store) :
    ChargedBy s (addUploadUsage shareId bytes directories s) shareId bytes directories where
  bytes := (stored_addUploadUsage .bytes shareId bytes directories s shareId).trans
    (congrArg (_ + ·) (if_pos rfl))
  files := (stored_addUploadUsage .files shareId bytes directories s shareId).trans
    (congrArg (_ + ·) (if_pos rfl))
  directories := by
    unfold createdDirectories
    rw [usage_addUploadUsage]
    cases s.usage.find? shareId <;> simp

/-- Usage is read from one table. -/
theorem ChargedBy.congr {before before' after after' : Store} {bytes directories : ℕ}
    (h : ChargedBy before after shareId bytes directories) (hbef : before'.usage = before.usage)
    (haft : after'.usage = after.usage) : ChargedBy before' after' shareId bytes directories := by
  obtain ⟨h₁, h₂, h₃⟩ := h
  unfold uploadedBytes at h₁
  unfold uploadedFiles at h₂
  unfold createdDirectories at h₃
  constructor
  · rw [uploadedBytes, uploadedBytes, hbef, haft, h₁]
  · rw [uploadedFiles, uploadedFiles, hbef, haft, h₂]
  · rw [createdDirectories, createdDirectories, hbef, haft, h₃]

/-- A committed transaction charges the share of the reservation. -/
theorem commitUploadReservation_charges {now : Instant} {bytes directories : ℕ} {audited : Bool}
    {operation : Option String} (hreserved : ReservedFor token shareId s)
    (h : commitUploadReservation now token bytes directories audited operation s =
      .ok (s', .committed)) : ChargedBy s s' shareId bytes directories := by
  cases commitsReservation h with
  | dropped hnot => exact absurd rfl hnot
  | @committed row _ charged _ hfind _ _ _ hcharge =>
    obtain ⟨hrow, htok⟩ := KeyedTable.find?_some hfind
    have hsh : row.shareId = shareId :=
      hreserved _ _ ⟨row, deleteExpired_subset hrow, htok, rfl, rfl⟩
    have husa : charged.usage = s.usage := by
      rw [chargeUploadOperation_eq hcharge]
      rfl
    rw [hsh]
    exact (chargedBy_addUploadUsage shareId bytes directories charged).congr husa.symm rfl

end Charges

section Traces

/-- Nothing has happened but lookups. -/
def Unpaid (trace : List UploadTrace) : Prop :=
  ∀ event ∈ trace, ∃ token shareId, event = .lookedUp token shareId

def UploadTrace.isCreated : UploadTrace → Bool
  | .created _ => true
  | _ => false

def UploadTrace.isPublished : UploadTrace → Bool
  | .published .. => true
  | _ => false

/-- The share looked up under the token was charged before anything else happened, for every
published byte and for the created directories and `slack` more; of the one file it was charged
for, `files` are still to be published. -/
def Paid (token : String) (shareId bytes directories slack files : ℕ)
    (trace : List UploadTrace) : Prop :=
  ∃ lookups before after rest, trace = lookups ++ .charged before after :: rest ∧
    Unpaid lookups ∧ .lookedUp token shareId ∈ lookups ∧
    ChargedBy before after shareId bytes directories ∧
    (∀ path published, .published path published ∈ rest → published = bytes) ∧
    rest.countP UploadTrace.isCreated + slack ≤ directories ∧
    rest.countP UploadTrace.isPublished + files ≤ 1

/-- The trace of an upload that has paid, or has nothing to pay for. -/
def Honest (token : String) (trace : List UploadTrace) : Prop :=
  Unpaid trace ∨ ∃ shareId bytes directories, Paid token shareId bytes directories 0 0 trace

variable {token : String} {shareId bytes directories slack slack' files files' : ℕ}
  {trace : List UploadTrace}

theorem Unpaid.note (h : Unpaid trace) (token : String) (shareId : ℕ) :
    Unpaid (trace ++ [.lookedUp token shareId]) := by
  intro event hev
  obtain hev | hev := List.mem_append.mp hev
  · exact h event hev
  · exact ⟨token, shareId, List.mem_singleton.mp hev⟩

theorem Paid.mono (h : Paid token shareId bytes directories slack files trace)
    (hslack : slack' ≤ slack) (hfiles : files' ≤ files) :
    Paid token shareId bytes directories slack' files' trace := by
  obtain ⟨lookups, before, after, rest, htrace, hunp, hloo, hcharged, hbytes, hcount, hone⟩ := h
  exact ⟨lookups, before, after, rest, htrace, hunp, hloo, hcharged, hbytes, by omega, by omega⟩

/-- A directory uses up one unit of the slack. -/
theorem Paid.created (h : Paid token shareId bytes directories (slack + 1) files trace)
    (path : List Text) :
    Paid token shareId bytes directories slack files (trace ++ [.created path]) := by
  obtain ⟨lookups, before, after, rest, rfl, hunp, hloo, hcharged, hbytes, hcount, hone⟩ := h
  refine ⟨lookups, before, after, rest ++ [.created path], by simp, hunp, hloo, hcharged,
    fun path' published hmem => ?_, ?_, ?_⟩
  · exact hbytes path' published ((List.mem_append.mp hmem).resolve_right (by simp))
  · rw [List.countP_append, List.countP_singleton]
    simp only [UploadTrace.isCreated, if_true]
    omega
  · rw [List.countP_append, List.countP_singleton]
    simpa [UploadTrace.isPublished] using hone

/-- The file uses up what it was charged for. -/
theorem Paid.published (h : Paid token shareId bytes directories slack (files + 1) trace)
    (path : List Text) :
    Paid token shareId bytes directories slack files (trace ++ [.published path bytes]) := by
  obtain ⟨lookups, before, after, rest, rfl, hunp, hloo, hcharged, hbytes, hcount, hone⟩ := h
  refine ⟨lookups, before, after, rest ++ [.published path bytes], by simp, hunp, hloo,
    hcharged, fun path' published hmem => ?_, ?_, ?_⟩
  · obtain hmem | hmem := List.mem_append.mp hmem
    · exact hbytes path' published hmem
    · cases List.mem_singleton.mp hmem
      rfl
  · rw [List.countP_append, List.countP_singleton]
    simpa [UploadTrace.isCreated] using hcount
  · rw [List.countP_append, List.countP_singleton]
    simp only [UploadTrace.isPublished, if_true]
    omega

/-- The charge itself opens the account. -/
theorem Unpaid.charged (h : Unpaid trace) (hloo : .lookedUp token shareId ∈ trace)
    {before after : Store} (hcharged : ChargedBy before after shareId bytes directories) :
    Paid token shareId bytes directories directories 1 (trace ++ [.charged before after]) :=
  ⟨trace, before, after, [], rfl, h, hloo, hcharged, by simp, by simp, by simp⟩

end Traces

variable {upload : StagedUpload} {maximum : ℕ}

section Staging

variable {env : UploadEnvironment} {w : UploadWorld} {ε α : Type} {I : UploadWorld → Prop}
  {Q : α → UploadWorld → Prop}

/-- A step keeps what the other requests and its effect keep. -/
theorem maintains_uploadStep {inject : StorageError → ε}
    {effect : Moment → UploadWorld → Outcome UploadWorld ε α} (hbef : I (w.elapse env))
    (heff : ∀ moment, (effect moment (w.elapse env)).Ends (fun a t => I t ∧ Q a t)
      (fun _ => I) I) :
    Maintains I (uploadStep inject effect) env w Q := by
  have haft := heff (env.moment w.clock)
  unfold Maintains Action.Meets uploadStep
  cases env.fault w.clock with
  | proceeds => exact haft
  | fails => exact hbef
  | loses error =>
    dsimp only
    generalize effect (env.moment w.clock) (w.elapse env) = outcome at haft ⊢
    cases outcome with
    | ok => exact haft.1
    | err => exact haft
    | crash => exact haft
  | stops => exact hbef

theorem maintains_quietStep (hI : I (w.elapse env)) :
    Maintains I quietStep env w fun _ t => t = w.elapse env := by
  unfold quietStep storageStep
  exact maintains_uploadStep hI fun _ => ⟨hI, rfl⟩

/-- A transaction keeps what every store it can commit keeps. -/
theorem maintains_database {transaction : Instant → Store → Except DbError (Store × α)}
    (hbef : I (w.elapse env))
    (hcommit : ∀ now store a, transaction now (w.elapse env).store = .ok (store, a) →
      I { w.elapse env with store } ∧ Q a { w.elapse env with store }) :
    Maintains I (database transaction) env w Q := by
  refine maintains_uploadStep hbef fun moment => ?_
  split
  · rename_i store a hres
    exact hcommit moment.now store a hres
  · exact hbef

theorem maintains_extendReservation {token : String} {minimum preferred : ℕ}
    {Q : UploadReservationExtendOutcome × ℕ → UploadWorld → Prop}
    (hbef : I ((w.calling ⟨token, minimum, preferred, (w.elapse env).store⟩).elapse env))
    (hcommit : ∀ now store a, extendUploadReservationUpTo now token minimum preferred
      (w.elapse env).store = .ok (store, a) →
      let t := { (w.calling ⟨token, minimum, preferred, (w.elapse env).store⟩).elapse env with
        store }
      I t ∧ Q a t) : Maintains I (extendReservation token minimum preferred) env w Q :=
  maintains_database (w := w.calling _) hbef hcommit

theorem maintains_bindDirectory {directory : SecureDirectory} {relative : Text}
    (hI : I (w.elapse env)) :
    Maintains I (directory.bindDirectory relative) env w fun bound t => t = w.elapse env ∧
      ∃ components, validateRelative relative = some components ∧
        t.tree.bind directory components = .ok bound := by
  unfold SecureDirectory.bindDirectory storageStep
  refine maintains_uploadStep hI fun _ => ?_
  split
  · exact hI
  · rename_i components hparts
    split
    · rename_i bound hbound
      exact ⟨hI, rfl, components, hparts, hbound⟩
    · exact hI

/-- The upload is staged: it has looked up its share, holds a reservation of it and has written
as many bytes as it counts. -/
structure Staged (token reservationToken : String) (shareId bytes : ℕ) (t : UploadWorld) :
    Prop where
  unpaid : Unpaid t.trace
  lookedUp : .lookedUp token shareId ∈ t.trace
  reserved : ReservedFor reservationToken shareId t.store
  fragment : ∀ f, t.fragment = some f → f.bytes = bytes

variable {token reservationToken : String} {shareId bytes : ℕ}

theorem Staged.elapse (h : Staged token reservationToken shareId bytes w)
    (hfr : env.Fresh reservationToken) :
    Staged token reservationToken shareId bytes (w.elapse env) :=
  ⟨h.unpaid, h.lookedUp, h.reserved.elapse hfr, h.fragment⟩

theorem Staged.store {store : Store} (h : Staged token reservationToken shareId bytes w)
    (hkeeps : KeepsReservations w.store store) :
    Staged token reservationToken shareId bytes { w with store } :=
  ⟨h.unpaid, h.lookedUp, h.reserved.keeps hkeeps, h.fragment⟩

theorem maintains_getShare (hI : I (w.elapse env))
    (hnote : ∀ share : Share, I ((w.elapse env).note (.lookedUp token share.id))) :
    Maintains I (getShare token) env w fun share t =>
      t = (w.elapse env).note (.lookedUp token share.id) := by
  unfold getShare
  refine maintains_uploadStep hI fun moment => ?_
  split
  · exact hI
  · rename_i share _
    split
    · exact ⟨hnote share, rfl⟩
    · exact hI

/-- The trace is still this one. -/
def TraceIs (trace : List UploadTrace) (t : UploadWorld) : Prop := t.trace = trace

variable {trace : List UploadTrace}

theorem TraceIs.elapse (h : TraceIs trace w) : TraceIs trace (w.elapse env) := h

theorem maintains_bindTarget {share : Share} {scope : SecureDirectory}
    {uploadBase folderPath uploadSubdir fileName : Text} (hw : TraceIs trace w) :
    Maintains (TraceIs trace)
      (bindTarget share scope uploadBase folderPath uploadSubdir fileName) env w
      fun target _ => target.shareId = share.id ∧ target.folderPath = folderPath := by
  unfold bindTarget
  refine (maintains_bindDirectory hw.elapse).attempt.bind fun result t ht _ => ?_
  cases result with
  | error => exact ht
  | ok =>
    dsimp only
    split
    · exact ⟨ht, rfl, rfl⟩
    · refine (maintains_bindDirectory ht.elapse).attempt.bind fun result u hu _ => ?_
      split
      · exact ⟨hu, rfl, rfl⟩
      · exact ⟨hu, rfl, rfl⟩
      · exact hu

/-- The bytes on disk are the ones counted, and the reservation is one of the share. -/
structure Counted (reservationToken : String) (shareId : ℕ) (upload : StagedUpload)
    (t : UploadWorld) : Prop where
  token_eq : upload.reservation.token = reservationToken
  shareId_eq : upload.target.shareId = shareId
  reserved : ReservedFor reservationToken shareId t.store
  fragment : ∀ f, t.fragment = some f → f.bytes = upload.total

theorem Counted.elapse (h : Counted reservationToken shareId upload w)
    (hfr : env.Fresh reservationToken) :
    Counted reservationToken shareId upload (w.elapse env) :=
  ⟨h.token_eq, h.shareId_eq, h.reserved.elapse hfr, h.fragment⟩

theorem reservedFor_begin {now : Instant} {epoch : ℕ} {s s' : Store}
    (h : beginUploadReservation now reservationToken shareId epoch s = .ok (s', .reserved)) :
    ReservedFor reservationToken shareId s' := by
  obtain ⟨-, row, hins, htok, hsh, -⟩ := beginUploadReservation_reserved h
  rintro id epoch' ⟨row', hrow', htok', hid, -⟩
  rw [KeyedTable.eq_of_key_eq _ hrow' ((KeyedTable.mem_insert? hins).mpr (.inl rfl))
    (htok'.trans htok.symm)] at hid
  exact hid.symm.trans hsh

variable (hfr : env.Fresh reservationToken)

include hfr

theorem maintains_begin {target : PublicUploadTarget} (hw : TraceIs trace w)
    (htarget : target.shareId = shareId) :
    Maintains (TraceIs trace) (begin reservationToken target) env w
      fun upload t => upload.target = target ∧ Counted reservationToken shareId upload t := by
  unfold begin
  have hrsve : Maintains (TraceIs trace) (database fun now s => beginUploadReservation now
      reservationToken target.shareId target.uploadPolicyEpoch s) env w fun outcome t =>
        outcome = .reserved → ReservedFor reservationToken shareId t.store := by
    refine maintains_database hw.elapse fun now store outcome hres => ⟨hw, ?_⟩
    rintro rfl
    rw [htarget] at hres
    exact reservedFor_begin hres
  refine hrsve.mapError.bind fun outcome t ht hreserved => ?_
  cases outcome with
  | byteQuotaReached => exact ht
  | fileQuotaReached => exact ht
  | shareUnavailable => exact ht
  | reserved =>
    have hcreate : Maintains (TraceIs trace) (storageStep fun moment w =>
        .ok () { w with fragment := some ⟨moment.inode, 0⟩ }) env t fun _ u =>
          (∀ f, u.fragment = some f → f.bytes = 0) ∧
            ReservedFor reservationToken shareId u.store := by
      unfold storageStep
      refine maintains_uploadStep ht.elapse fun moment => ⟨ht, ?_, ?_⟩
      · rintro f ⟨⟩
        rfl
      · exact (hreserved rfl).elapse hfr
    refine hcreate.attempt.bind fun result u hu hres => ?_
    cases result with
    | error => exact hu
    | ok =>
      obtain ⟨hfra, hreserved⟩ := hres () rfl
      exact ⟨hu, rfl, rfl, htarget, hreserved, hfra⟩

theorem maintains_extend {newTotal : ℕ} (hw : TraceIs trace w)
    (hcounted : Counted reservationToken shareId upload w) :
    Maintains (TraceIs trace) (upload.extend newTotal maximum) env w fun upload' t =>
      upload'.target = upload.target ∧ upload'.total = upload.total ∧
        Counted reservationToken shareId upload' t := by
  unfold extend
  dsimp only
  have hextend : Maintains (TraceIs trace) (extendReservation upload.reservation.token
      (max newTotal upload.reservation.reservedBytes)
      (preferredReservationTarget upload.total newTotal upload.reservation.reservedBytes maximum))
      env w fun _ t => Counted reservationToken shareId upload t := by
    refine maintains_extendReservation hw fun now store result hres => ⟨hw, ?_⟩
    have hela := hcounted.elapse hfr
    exact ⟨hela.token_eq, hela.shareId_eq,
      hela.reserved.keeps (extendUploadReservationUpTo_keeps hres), hela.fragment⟩
  refine hextend.mapError.bind fun ⟨outcome, accepted⟩ t ht hcounted => ?_
  cases outcome with
  | extended => exact ⟨ht, rfl, rfl, { hcounted with }⟩
  | byteQuotaReached => exact ht
  | notFound => exact ht
  | shareUnavailable => exact ht

theorem maintains_writeChunk {chunk : ℕ} (hw : TraceIs trace w)
    (hcounted : Counted reservationToken shareId upload w) :
    Maintains (TraceIs trace) (upload.writeChunk maximum chunk) env w fun upload' t =>
      upload'.target = upload.target ∧ Counted reservationToken shareId upload' t := by
  unfold writeChunk
  split
  · exact hw
  · rename_i newTotal hnew
    have htot : newTotal = upload.total + chunk := by
      unfold addUploadBytes at hnew
      split at hnew
      · exact (Option.some.inj hnew).symm
      · cases hnew
    have hdue : Maintains (TraceIs trace) heartbeatDue env w fun _ t => t = w := ⟨hw, rfl⟩
    refine hdue.bind ?_
    rintro due w' hw rfl
    have hgrow : Maintains (TraceIs trace) (upload.extendWhen due newTotal maximum) env w'
        fun upload' t => upload'.target = upload.target ∧ upload'.total = upload.total ∧
          Counted reservationToken shareId upload' t := by
      unfold extendWhen
      split
      · exact maintains_extend hfr hw hcounted
      · exact ⟨hw, rfl, rfl, hcounted⟩
    refine hgrow.bind fun upload' t ht ⟨htarget, htot', hcounted'⟩ => ?_
    have hquiet : Maintains (TraceIs trace) quietStep env t fun _ u =>
        Counted reservationToken shareId upload' u :=
      (maintains_quietStep ht.elapse).mono fun _ u _ hu => hu ▸ hcounted'.elapse hfr
    have happend : Maintains (TraceIs trace) (do quietStep; appendFragment chunk) env t fun _ u =>
        Counted reservationToken shareId { upload' with total := newTotal } u := by
      refine hquiet.bind fun _ u hu hcounted'' => ?_
      unfold appendFragment storageStep
      refine maintains_uploadStep hu.elapse fun moment => ⟨hu, ?_⟩
      have hela := hcounted''.elapse hfr
      refine { hela with fragment := ?_ }
      intro f hf
      obtain ⟨f', hf', rfl⟩ := Option.map_eq_some_iff.mp hf
      show f'.bytes + chunk = newTotal
      rw [hela.fragment f' hf', htot', htot]
    exact happend.mapError.bind fun _ u hu hcounted'' => ⟨hu, htarget, hcounted''⟩

theorem maintains_writeChunks {chunks : List ℕ} (hw : TraceIs trace w)
    (hcounted : Counted reservationToken shareId upload w) :
    Maintains (TraceIs trace) (upload.writeChunks maximum chunks) env w fun upload' t =>
      upload'.target = upload.target ∧ Counted reservationToken shareId upload' t := by
  induction chunks generalizing w upload with
  | nil => exact ⟨hw, rfl, hcounted⟩
  | cons chunk rest ih =>
    have hnext : Maintains (TraceIs trace) quietStep env w fun _ t =>
        Counted reservationToken shareId upload t :=
      (maintains_quietStep hw.elapse).mono fun _ t _ ht => ht ▸ hcounted.elapse hfr
    refine hnext.mapError.bind fun _ t ht hcounted => ?_
    refine (maintains_writeChunk hfr ht hcounted).bind fun upload' u hu ⟨htarget, hcounted⟩ => ?_
    exact (ih hu hcounted).mono fun _ _ _ h => ⟨h.1.trans htarget, h.2⟩

omit hfr

/-- Nothing is paid for yet. -/
def Uncharged (t : UploadWorld) : Prop := Unpaid t.trace

/-- The folder path is a list of plain components. -/
def FolderOf (components : List Text) (folderPath : Text) : Prop :=
  (∀ component ∈ components, PlainComponent component) ∧
    folderPath = ['/'].intercalate components

theorem folderOf_setFolderPath {value folderPath : Text}
    (h : setFolderPath value = some folderPath) : ∃ components, FolderOf components folderPath := by
  unfold setFolderPath at h
  split at h
  · cases h
  · rename_i components hparts
    split at h
    · cases h
    · exact ⟨components, PlainComponent.of_validateRelative hparts, (Option.some.inj h).symm⟩

/-- What the finalizer is given: the reservation of the looked-up share and a staged file of the
counted length. -/
structure Handed (request : UploadRequest) (shareId : ℕ) (upload : PreparedUpload)
    (t : UploadWorld) : Prop where
  token_eq : upload.reservation.token = request.reservationToken
  shareId_eq : upload.target.shareId = shareId
  folder : ∃ components, FolderOf components upload.target.folderPath
  reserved : ReservedFor request.reservationToken shareId t.store
  fragment : ∀ f, t.fragment = some f → f.bytes = upload.total

theorem maintains_stageFile {request : UploadRequest} {target : PublicUploadTarget}
    (hfr : env.Fresh request.reservationToken) (hw : TraceIs trace w)
    (htarget : target.shareId = shareId)
    (hfol : ∃ components, FolderOf components target.folderPath) :
    Maintains (TraceIs trace) (stageFile request maximum target) env w
      fun upload t => Handed request shareId upload t := by
  unfold stageFile
  refine (maintains_begin hfr hw htarget).bind fun upload t ht ⟨htarget', hcounted⟩ => ?_
  refine (maintains_writeChunks hfr ht hcounted).bind
    fun upload' u hu ⟨htarget'', hcounted'⟩ => ?_
  have hsync : Maintains (TraceIs trace) (do quietStep; quietStep) env u fun _ v =>
      Counted request.reservationToken shareId upload' v := by
    refine (maintains_quietStep hu.elapse).bind ?_
    rintro _ _ hv rfl
    refine (maintains_quietStep hv.elapse).mono ?_
    rintro _ _ - rfl
    exact (hcounted'.elapse hfr).elapse hfr
  refine hsync.mapError.bind fun _ v hv hcounted => ⟨hv, hcounted.token_eq, hcounted.shareId_eq, ?_,
    hcounted.reserved, hcounted.fragment⟩
  dsimp only
  rw [htarget'', htarget']
  exact hfol

theorem maintains_formPhase {settings : UploadSettings} {request : UploadRequest} {share : Share}
    {scope : SecureDirectory} (hfr : env.Fresh request.reservationToken)
    (hw : TraceIs trace w) :
    Maintains (TraceIs trace) (formPhase settings request share scope) env w
      fun upload t => Handed request share.id upload t := by
  unfold formPhase
  split
  · exact hw
  · exact hw
  · rename_i uploadBase folderPath _ hfol
    dsimp only
    split_ifs
    · exact hw
    · exact hw
    · exact hw
    · exact hw
    · refine (maintains_bindTarget hw).bind fun target t ht ⟨hsh, hpath⟩ => ?_
      exact maintains_stageFile hfr ht hsh (hpath ▸ folderOf_setFolderPath hfol)

/-- The staged upload has looked up the share it reserves for, and nothing else has happened. -/
theorem maintains_stageUpload {settings : UploadSettings} {request : UploadRequest}
    (hfr : env.Fresh request.reservationToken) (hw : Uncharged w) :
    Maintains Uncharged (stageUpload settings request) env w fun upload t =>
      ∃ shareId, .lookedUp request.token shareId ∈ t.trace ∧ Handed request shareId upload t := by
  unfold stageUpload
  have hlookup : Maintains Uncharged (getShare request.token) env w fun share t =>
      .lookedUp request.token share.id ∈ t.trace := by
    refine (maintains_getShare hw fun share => hw.note request.token share.id).mono ?_
    rintro share _ - rfl
    exact List.mem_append.mpr (.inr (List.mem_singleton_self _))
  refine hlookup.mapError.bind fun share t ht hloo => ?_
  split
  · exact ht
  -- from here on the trace does not change
  have hbind : Maintains (TraceIs t.trace)
      (SecureDirectory.bindDirectory ⟨[], 0⟩ share.relativePath) env t fun _ _ => True :=
    (maintains_bindDirectory (I := TraceIs t.trace) rfl).mono fun _ _ _ _ => trivial
  have hidle : ∀ u, TraceIs t.trace u → Uncharged u := fun u hu => show Unpaid u.trace from hu ▸ ht
  refine (hbind.attempt.weaken hidle).bind fun result u hu ⟨htrace, _⟩ => ?_
  cases result with
  | error => exact hu
  | ok =>
    refine ((maintains_formPhase hfr htrace).weaken hidle).mono fun upload v _ hv => ?_
    exact ⟨share.id, hv.1 ▸ hloo, hv.2⟩

end Staging

end VaultLink
