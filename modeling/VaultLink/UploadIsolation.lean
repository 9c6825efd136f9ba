import VaultLink.Histories
import VaultLink.UploadOperations

/-!
# Upload operations and the shares they were issued for

An operation issued for a share is tied to it by nothing but the share's id, and no foreign key
removes it with the share. SQLite hands the id of a deleted last row to the next row, so the
history below numbers the creations of shares: an id that is in use stands for the creation that
gave it out last, and an operation for the creation its id stood for when it was issued.
-/
namespace VaultLink

open KeyedTable

structure ScopeServer where
  store : Store
  idsDrawn : ℕ
  sharesCreated : ℕ
  /-- The creation a share id was given out by. -/
  createdAs : ℕ → ℕ
  /-- The creation an operation was issued for. -/
  issuedFor : String → Option ℕ

inductive ScopeEvent
  | createShare (new : NewShare) (detail : Option String) (now : Instant)
  | deleteShare (id : ℕ)
  | createOperation (scope : UploadScope) (now : Instant)
  | claim (scope : UploadScope) (idHash : String) (now later : Instant)
  | bind (idHash fingerprint fragmentName : String)
  | release (idHash : String)
  | mark (idHash : String)
  | finish (idHash : String) (state : FinishState) (result : Option String) (now : Instant)
  | recover (active : Finset String) (now : Instant)

namespace ScopeServer

variable (rng : ℕ → String)

def initial : ScopeServer := ⟨.empty, 0, 0, fun _ => 0, fun _ => none⟩

/-- The share that has the id, by its creation. -/
def shareAt (σ : ScopeServer) (id : ℕ) : Option ℕ :=
  (σ.store.shares.find? id).map fun _ => σ.createdAs id

def scopeShare (σ : ScopeServer) : UploadScope → Option ℕ
  | .share id => σ.shareAt id
  | .admin _ => none

def perform (σ : ScopeServer) : ScopeEvent → ScopeServer
  | .createShare new detail now =>
    match VaultLink.createShare now new detail σ.store with
    | .ok (s', id) =>
      { σ with
        store := s'
        sharesCreated := σ.sharesCreated + 1
        createdAs := Function.update σ.createdAs id σ.sharesCreated }
    | .error _ => σ
  | .deleteShare id => { σ with store := (VaultLink.deleteShare id σ.store).1 }
  | .createOperation scope now =>
    match createUploadOperation now scope (rng σ.idsDrawn) σ.store with
    | .ok (s', some _) =>
      { σ with
        store := s'
        idsDrawn := σ.idsDrawn + 1
        issuedFor := Function.update σ.issuedFor (rng σ.idsDrawn) (σ.scopeShare scope) }
    | .ok (s', none) => { σ with store := s' }
    | .error _ => { σ with idsDrawn := σ.idsDrawn + 1 }
  | .claim scope idHash now later =>
    { σ with store := (uploadOperationClaim now later scope idHash σ.store).1 }
  | .bind idHash fingerprint fragmentName =>
    { σ with store := (bindUploadFingerprint idHash fingerprint fragmentName σ.store).1 }
  | .release idHash => { σ with store := releaseUploadOperation idHash σ.store }
  | .mark idHash => { σ with store := (markUploadCommitting idHash σ.store).1 }
  | .finish idHash state result now =>
    { σ with store := (finishUploadOperation now idHash state result σ.store).1 }
  | .recover active now => { σ with store := recoverUploadOperations now active σ.store }

def run (σ : ScopeServer) (events : List ScopeEvent) : ScopeServer :=
  events.foldl (perform rng) σ

/-- The operation is shown or given to a request for this share id. -/
def Reveals (σ : ScopeServer) (id : ℕ) (idHash : String) : Prop :=
  (∃ now view, uploadOperation now (.share id) idHash σ.store = some view) ∨
    ∃ now later, (uploadOperationClaim now later (.share id) idHash σ.store).2 ≠ .unavailable

/-- No share is created under the id while the operation is left over from an earlier one. -/
def Unused (id : ℕ) (idHash : String) (σ : ScopeServer) : ScopeEvent → Prop
  | .createShare .. => nextRowid (σ.store.shares.rows.map Share.id) = id →
      ∀ row ∈ σ.store.uploadOperations.find? idHash, row.scope ≠ .share id
  | _ => True

instance (id : ℕ) (idHash : String) (σ : ScopeServer) :
    (event : ScopeEvent) → Decidable (σ.Unused id idHash event)
  | .createShare .. => inferInstanceAs (Decidable (_ → _))
  | .deleteShare .. | .createOperation .. | .claim .. | .bind .. | .release .. | .mark ..
  | .finish .. | .recover .. => .isTrue trivial

end ScopeServer

section Reuse

/-- A share that accepts uploads, by its token. -/
def uploadShare (tokenHash : String) : NewShare :=
  { tokenHash, linkAlias := none, path := "inbox".toList, isDirectory := true
    permission := .uploadOnly, expires := none, maxDownloads := none, maxUploadSize := none
    uploadTotal := some 1000, uploadFiles := some 10, passwordHash := none
    uploadConflictStrategy := .reject, createdBy := 1 }

def constantIds (_ : ℕ) : String := "operation"

/-- An operation outlives its share, and another share gets the id. -/
def reusedShareId : List ScopeEvent :=
  [.createShare (uploadShare "first") none 0, .createOperation (.share 1) 1, .deleteShare 1,
    .createShare (uploadShare "second") none 2]

/-- The second share reads and claims the operation of the first. -/
theorem reusedShareId_reveals :
    let σ := ScopeServer.initial.run constantIds reusedShareId
    σ.shareAt 1 = some 1 ∧ σ.issuedFor "operation" = some 0 ∧
    (uploadOperation 3 (.share 1) "operation" σ.store).isSome = true ∧
    (uploadOperationClaim 3 3 (.share 1) "operation" σ.store).2 = .started := by
  decide

end Reuse

variable {now : Instant} {idHash : String}

namespace ScopeServer

variable {scope : UploadScope}

section Isolation

variable {rng : ℕ → String} {σ : ScopeServer} {id : ℕ}

/-- While the operation is there for this share id, whatever has the id is the share it was issued
for. -/
def Isolated (id : ℕ) (idHash : String) (σ : ScopeServer) : Prop :=
  ∀ row ∈ σ.store.uploadOperations, row.idHash = idHash → row.scope = .share id →
    ∀ created, σ.shareAt id = some created → σ.issuedFor idHash = some created

/-- The rows come from rows with the same id and scope. -/
def KeepsScopes (s s' : Store) : Prop :=
  s'.shares = s.shares ∧ ∀ row ∈ s'.uploadOperations, ∃ before ∈ s.uploadOperations,
    before.idHash = row.idHash ∧ before.scope = row.scope

theorem Isolated.rows (h : σ.Isolated id idHash) {s' : Store} (hkeeps : KeepsScopes σ.store s') :
    Isolated id idHash { σ with store := s' } := by
  intro row hrow hhash hsco created hsh
  obtain ⟨before, hbef, hid, hsame⟩ := hkeeps.2 row hrow
  have hsh : σ.shareAt id = some created := by
    simpa only [shareAt, hkeeps.1] using hsh
  exact h before hbef (hid.trans hhash) (hsame.trans hsco) created hsh

theorem keepsScopes_update (s : Store) (idHash : String) (p : UploadOperation → Bool)
    (f : UploadOperation → UploadOperation) (hf : ∀ row, (f row).idHash = row.idHash)
    (hsco : ∀ row, (f row).scope = row.scope) :
    KeepsScopes s (updateUploadOperation s idHash p f hf).1 := by
  refine ⟨rfl, fun row hrow => ?_⟩
  obtain ⟨before, hbef, rfl⟩ := (mem_updateWhere hf).mp hrow
  refine ⟨before, hbef, ?_⟩
  split
  · exact ⟨(hf before).symm, (hsco before).symm⟩
  · exact ⟨rfl, rfl⟩

theorem keepsScopes_recover (s : Store) (now : Instant) (active : Finset String) :
    KeepsScopes s (recoverUploadOperations now active s) := by
  refine ⟨rfl, fun row hrow => ?_⟩
  obtain ⟨before, hbef, rfl⟩ :=
    (mem_updateWhere (UploadOperation.recovered_idHash now)).mp hrow
  refine ⟨before, hbef, ?_⟩
  split
  · refine ⟨(before.recovered_idHash now).symm, ?_⟩
    unfold UploadOperation.recovered
    split <;> rfl
  · exact ⟨rfl, rfl⟩

/-- A new operation has an id of its own, and the other rows stay as they are. -/
theorem createUploadOperation_rows {s s' : Store} {expires : Instant}
    (h : createUploadOperation now scope idHash s = .ok (s', some expires)) :
    s'.shares = s.shares ∧ ∀ row ∈ s'.uploadOperations,
      row.idHash = idHash ∧ row.scope = scope ∨ row.idHash ≠ idHash ∧ row ∈ s.uploadOperations := by
  simp only [createUploadOperation] at h
  split at h
  · cases h
  split at h
  · cases h
  split at h
  · cases h
  · rename_i operations hins
    cases h
    refine ⟨rfl, fun row hrow => ?_⟩
    obtain rfl | hrow := (mem_insert? hins).mp hrow
    · exact .inl ⟨rfl, rfl⟩
    · exact .inr ⟨(insert?_some hins).2 row hrow, (mem_deleteWhere.mp hrow).1⟩

theorem createUploadOperation_refused {s s' : Store}
    (h : createUploadOperation now scope idHash s = .ok (s', none)) : s' = s := by
  simp only [createUploadOperation] at h
  split at h
  · cases h
  split at h
  · cases h
    rfl
  split at h <;> cases h

/-- A new share gets the next id and nothing else changes. -/
theorem createShare_ok {new : NewShare} {detail : Option String} {s s' : Store} {id : ℕ}
    (h : createShare now new detail s = .ok (s', id)) :
    id = nextRowid (s.shares.rows.map Share.id) ∧ s'.uploadOperations = s.uploadOperations ∧
      ∀ other, other ≠ id → s'.shares.find? other = s.shares.find? other := by
  obtain ⟨row, shares, audit, hins, rfl, hid, hnext, -⟩ := createShare_inserts h
  refine ⟨hnext, rfl, fun other hoth => ?_⟩
  rw [find?_insert? hins, if_neg (by rw [hid]; exact Ne.symm hoth)]

theorem Isolated.createShare (h : σ.Isolated id idHash) {new : NewShare} {detail : Option String}
    (hunu : σ.Unused id idHash (.createShare new detail now)) :
    (σ.perform rng (.createShare new detail now)).Isolated id idHash := by
  simp only [perform]
  split
  · rename_i s' newId hcreate
    obtain ⟨rfl, hoperations, hshares⟩ := createShare_ok hcreate
    intro row hrow hhash hsco created hsh
    rw [hoperations] at hrow
    have hne : id ≠ nextRowid (σ.store.shares.rows.map Share.id) := fun hid =>
      hunu hid.symm row (find?_eq_some_iff.mpr ⟨hrow, hhash⟩) hsco
    refine h row hrow hhash hsco created ?_
    simpa only [shareAt, hshares id hne, Function.update_of_ne hne] using hsh
  · exact h

theorem Isolated.deleteShare (h : σ.Isolated id idHash) (other : ℕ) :
    (σ.perform rng (.deleteShare other)).Isolated id idHash := by
  intro row hrow hhash hsco created hsh
  refine h row hrow hhash hsco created ?_
  obtain ⟨share, hfound, rfl⟩ := Option.map_eq_some_iff.mp hsh
  obtain ⟨hmem, hid⟩ := find?_some hfound
  exact Option.map_eq_some_iff.mpr
    ⟨share, find?_eq_some_iff.mpr ⟨(mem_deleteWhere.mp hmem).1, hid⟩, rfl⟩

theorem Isolated.createOperation (h : σ.Isolated id idHash) (scope : UploadScope) (now : Instant) :
    (σ.perform rng (.createOperation scope now)).Isolated id idHash := by
  simp only [perform]
  split
  · rename_i s' expires hcreate
    obtain ⟨hshares, hrows⟩ := createUploadOperation_rows hcreate
    intro row hrow hhash hsco created hsh
    have hsh : σ.shareAt id = some created := by
      simpa only [shareAt, hshares] using hsh
    dsimp only
    rw [← hhash]
    obtain ⟨hid, hsame⟩ | ⟨hne, hold⟩ := hrows row hrow
    · rw [hid, Function.update_self, ← hsame, hsco]
      exact hsh
    · rw [Function.update_of_ne hne, hhash]
      exact h row hold hhash hsco created hsh
  · rename_i s' hcreate
    exact h.rows
      (createUploadOperation_refused hcreate ▸ ⟨rfl, fun row hrow => ⟨row, hrow, rfl, rfl⟩⟩)
  · exact h

theorem uploadOperationClaim_store (now later : Instant) (scope : UploadScope) (idHash : String)
    (s : Store) : (uploadOperationClaim now later scope idHash s).1 =
      (claimUploadOperation now scope idHash s).1 := by
  unfold uploadOperationClaim
  split <;> rename_i hclaim <;> rw [hclaim]

theorem Isolated.perform (h : σ.Isolated id idHash) {event : ScopeEvent}
    (hunu : σ.Unused id idHash event) : (σ.perform rng event).Isolated id idHash := by
  cases event with
  | createShare => exact h.createShare hunu
  | deleteShare other => exact h.deleteShare other
  | createOperation scope now => exact h.createOperation scope now
  | claim =>
    refine h.rows ?_
    rw [uploadOperationClaim_store]
    exact keepsScopes_update _ _ _ _ _ fun _ => rfl
  | bind | release | mark | finish => exact h.rows (keepsScopes_update _ _ _ _ _ fun _ => rfl)
  | recover => exact h.rows (keepsScopes_recover _ _ _)

theorem uploadOperation_row {s : Store} {view : UploadOperationView}
    (h : uploadOperation now scope idHash s = some view) :
    ∃ row ∈ s.uploadOperations, row.idHash = idHash ∧ row.scope = scope := by
  obtain ⟨row, hrow, -⟩ := Option.map_eq_some_iff.mp h
  obtain ⟨hfound, hfilter⟩ := Option.filter_eq_some_iff.mp hrow
  obtain ⟨hmem, hid⟩ := find?_some hfound
  simp only [Bool.and_eq_true, decide_eq_true_eq] at hfilter
  exact ⟨row, hmem, hid, hfilter.1⟩

/-- Only a row of this scope is revealed. -/
theorem Reveals.row (h : σ.Reveals id idHash) :
    ∃ row ∈ σ.store.uploadOperations, row.idHash = idHash ∧ row.scope = .share id := by
  obtain ⟨now, view, hview⟩ | ⟨now, later, hclaim⟩ := h
  · exact uploadOperation_row hview
  unfold uploadOperationClaim at hclaim
  split at hclaim
  · rename_i s' hstarted
    have hchanged : (claimUploadOperation now (.share id) idHash σ.store).2 = true := by
      rw [hstarted]
    obtain ⟨row, hfound, hrow, -⟩ := updateUploadOperation_changed hchanged
    obtain ⟨hmem, hid⟩ := find?_some hfound
    simp only [Bool.and_eq_true, decide_eq_true_eq] at hrow
    exact ⟨row, hmem, hid, hrow.1.1⟩
  · rename_i s' href
    have hkeeps : KeepsScopes σ.store s' := by
      have hupdate : (claimUploadOperation now (.share id) idHash σ.store).1 = s' := by
        rw [href]
      exact hupdate ▸ keepsScopes_update _ _ _ _ _ fun _ => rfl
    cases hview : uploadOperation later (.share id) idHash s' with
    | none => simp [hview] at hclaim
    | some =>
      obtain ⟨row, hrow, hid, hsco⟩ := uploadOperation_row hview
      obtain ⟨before, hbef, hid', hsco'⟩ := hkeeps.2 row hrow
      exact ⟨before, hbef, hid'.trans hid, hsco'.trans hsco⟩

end Isolation

end ScopeServer

/-- In a run that creates no share under the id while the operation is left over for it, the
operation is revealed to requests for the id only while that belongs to the share the operation was
issued for. -/
theorem upload_operations_stay_with_their_share {rng : ℕ → String} (id : ℕ) (idHash : String)
    (events : List ScopeEvent)
    (hunused : History.Throughout (ScopeServer.perform rng) (ScopeServer.Unused id idHash)
      ScopeServer.initial events) :
    let σ := ScopeServer.initial.run rng events
    σ.Reveals id idHash →
      ∀ created, σ.shareAt id = some created → σ.issuedFor idHash = some created := by
  intro σ hreveals created hsh
  have hisolated : σ.Isolated id idHash :=
    hunused.invariant (P := ScopeServer.Isolated id idHash) (fun _ _ hunu h => h.perform hunu)
      fun row hrow => absurd hrow (not_mem_empty row)
  obtain ⟨row, hrow, hid, hsco⟩ := hreveals.row
  exact hisolated row hrow hid hsco created hsh

/-- The first share keeps its operation although the second is deleted and its id given out
again. -/
def laterShareReplaced : List ScopeEvent :=
  [.createShare (uploadShare "first") none 0, .createShare (uploadShare "second") none 0,
    .createOperation (.share 1) 1, .deleteShare 2, .createShare (uploadShare "third") none 2]

theorem upload_operations_stay_with_their_share_first :
    let σ := ScopeServer.initial.run constantIds laterShareReplaced
    σ.Reveals 1 "operation" ∧ σ.shareAt 1 = some 0 ∧ σ.issuedFor "operation" = some 0 := by
  intro σ
  have hreveals : σ.Reveals 1 "operation" :=
    .inl ⟨3, ⟨.ready, 1 + uploadRetention, none, none⟩, by decide⟩
  have hsh : σ.shareAt 1 = some 0 := by decide
  exact ⟨hreveals, hsh, upload_operations_stay_with_their_share 1 "operation"
    laterShareReplaced (by decide) hreveals 0 hsh⟩

end VaultLink
