import VaultLink.UploadServer

/-!
# The life of an upload operation

Entering the commit is what separates a retry from a repetition. A row that has entered it
goes back to a state in which it can be claimed only when an administrator's finalizer allows
a retry. That finalizer has published nothing, and it is the only one past the mark.
-/
namespace VaultLink

open UploadOperationState

/-- The commit has been entered, whatever became of it. -/
def UploadOperationState.commitEntered : UploadOperationState → Bool
  | .committing | .completed | .rejected | .outcomeUnknown => true
  | _ => false

section Rows

variable {σ : UploadServer} {idHash : String}

/-- A claim past the mark, a charge or a publication binds the operation to its commit. -/
def UploadServer.Bound (σ : UploadServer) (idHash : String) : Prop :=
  idHash ∈ σ.charges ∨ idHash ∈ σ.publications ∨
    ∃ holder ∈ σ.holders, holder.idHash = idHash ∧ ∃ stage, holder.phase = .committing stage

/-- What any statement may make of a row. -/
structure RowStep (bound : Prop) (row row' : UploadOperation) : Prop where
  scope : row'.scope = row.scope
  charged : row.quotaCharged → row'.quotaCharged
  settled : row.state.settled → row'.state = row.state
  entered : bound → row.state.commitEntered → row'.state.commitEntered

theorem RowStep.refl (bound : Prop) (row : UploadOperation) : RowStep bound row row :=
  ⟨rfl, id, fun _ => rfl, fun _ => id⟩

/-- Every row of `s` comes from a row of the server by a step. -/
def RowsStep (σ : UploadServer) (s : Store) : Prop :=
  ∀ id, (∃ row, σ.row? id = some row ∧ ∃ row', s.uploadOperations.find? id = some row' ∧
    RowStep (σ.Bound id) row row') ∨ σ.row? id = none ∧ s.uploadOperations.find? id = none

theorem RowsStep.of_map {s : Store} {f : String → UploadOperation → UploadOperation}
    (hfind : ∀ id, s.uploadOperations.find? id = (σ.row? id).map (f id))
    (hstep : ∀ id row, σ.row? id = some row → RowStep (σ.Bound id) row (f id row)) :
    RowsStep σ s := by
  intro id
  cases hrow : σ.row? id with
  | none => exact .inr ⟨rfl, by rw [hfind, hrow]; rfl⟩
  | some row => exact .inl ⟨row, rfl, f id row, by rw [hfind, hrow]; rfl, hstep id row hrow⟩

theorem RowsStep.refl (σ : UploadServer) : RowsStep σ σ.store :=
  .of_map (f := fun _ row => row) (fun _ => Option.map_id'.symm ▸ rfl) fun _ row _ => .refl _ row

theorem RowsStep.update {p : UploadOperation → Bool} {f : UploadOperation → UploadOperation}
    (hf : ∀ row, (f row).idHash = row.idHash)
    (hstep : ∀ row, σ.row? idHash = some row → p row → RowStep (σ.Bound idHash) row (f row)) :
    RowsStep σ (updateUploadOperation σ.store idHash p f hf).1 := by
  refine .of_map (find?_updateUploadOperation hf) fun id row hrow => ?_
  split
  · rename_i h
    obtain ⟨rfl, hp⟩ := h
    exact hstep row hrow hp
  · exact .refl _ row

theorem RowsStep.claim (scope : UploadScope) (now : Instant) :
    RowsStep σ (claimUploadOperation now scope idHash σ.store).1 := by
  refine .update _ fun row _ hclaim => ⟨rfl, id, fun hset => ?_, fun _ hentered => ?_⟩ <;>
    cases hst : row.state <;>
      simp_all [unused, settled,
        commitEntered]

theorem RowsStep.bind (fingerprint fragmentName : String) :
    RowsStep σ (bindUploadFingerprint idHash fingerprint fragmentName σ.store).1 :=
  .update _ fun _ _ _ => ⟨rfl, id, fun _ => rfl, fun _ => id⟩

theorem RowsStep.release : RowsStep σ (releaseUploadOperation idHash σ.store) := by
  refine .update _ fun row _ hrelease => ⟨rfl, id, fun hset => ?_, fun _ hentered => ?_⟩ <;>
    cases hst : row.state <;>
      simp_all [settled, commitEntered]

theorem RowsStep.mark : RowsStep σ (markUploadCommitting idHash σ.store).1 := by
  refine .update _ fun row _ hmark => ⟨rfl, id, fun hset => ?_, fun _ _ => rfl⟩
  cases hst : row.state <;> simp_all [settled]

theorem RowsStep.finish {state : FinishState} (result : Option String) (now : Instant)
    (hretry : state = .retryable → ∀ row, σ.row? idHash = some row → ¬σ.Bound idHash) :
    RowsStep σ (finishUploadOperation now idHash state result σ.store).1 := by
  refine .update _ fun row hrow hheld => ⟨rfl, id, fun hset => ?_, fun hbound _ => ?_⟩
  · cases hst : row.state <;>
      simp_all [settled, held]
  · cases state with
    | retryable => exact absurd hbound (hretry rfl row hrow)
    | completed => rfl
    | rejected => rfl
    | outcomeUnknown => rfl

theorem RowsStep.recover (copy : Finset String) (now : Instant) :
    RowsStep σ (recoverUploadOperations now copy σ.store) := by
  refine .of_map (find?_recoverUploadOperations copy) fun id row _ => ?_
  split
  · rename_i hheld
    unfold UploadOperation.recovered
    split
    · rename_i hst
      exact ⟨rfl, fun h => h, by simp [hst, settled],
        by simp [hst, commitEntered]⟩
    · refine ⟨rfl, fun h => h, fun hset => ?_, fun _ _ => rfl⟩
      cases hst : row.state <;>
        simp_all [settled, held]
  · exact .refl _ row

/-- A reservation commit is a step too, and the operation it charges was not charged before. -/
theorem RowsStep.charge {token : String} {bytes directories : ℕ} {audited : Bool} {now : Instant}
    {s : Store} {outcome : UploadReservationCommitOutcome}
    (hcommit : commitUploadReservation now token bytes directories audited (some idHash) σ.store =
      .ok (s, outcome)) :
    RowsStep σ s ∧
    (∀ id, id ≠ idHash → s.uploadOperations.find? id = σ.row? id) ∧
    (outcome = .committed → (∃ row, σ.row? idHash = some row ∧ row.quotaCharged = false) ∧
      ∃ row, s.uploadOperations.find? idHash = some row ∧ row.state = .committing ∧
        row.quotaCharged = true ∧ ∃ shareId, row.scope = .share shareId) := by
  obtain ⟨hoth, hsame⟩ | ⟨-, shareId, s₁, s₂, h₁, hcharge, hsame⟩ :=
    commitUploadReservation_operations hcommit
  · refine ⟨?_, fun id _ => by rw [hsame, UploadServer.row?], fun h => absurd h hoth⟩
    have hrows := RowsStep.refl σ
    unfold RowsStep at hrows ⊢
    rwa [hsame]
  · obtain ⟨⟨row, hrow, hsco, hst, hfr, hrow'⟩, hothers⟩ :=
      find?_chargeUploadOperation hcharge
    have hrow₀ : σ.row? idHash = some row := by rwa [UploadServer.row?, ← h₁]
    rw [← hsame] at hrow'
    have hkept : ∀ id, id ≠ idHash → s.uploadOperations.find? id = σ.row? id := fun id hid => by
      rw [hsame, hothers id hid, h₁, UploadServer.row?]
    refine ⟨fun id => ?_, hkept,
      fun _ => ⟨⟨row, hrow₀, hfr⟩, _, hrow', hst, rfl, shareId, hsco⟩⟩
    by_cases hid : id = idHash
    · subst hid
      exact .inl ⟨row, hrow₀, _, hrow', rfl, fun _ => rfl, fun _ => rfl, fun _ h => h⟩
    · simp only [hkept id hid]
      exact RowsStep.refl σ id

end Rows

section Invariant

variable {rng : ℕ → String} {σ : UploadServer} {s : Store} {event : UploadEvent}

/-- The finalizer has published nothing. -/
def FinalizerStage.unpublished : FinalizerStage → Bool
  | .entered | .charged | .returned .retryable => true
  | .returned _ => false

theorem FinalizerStage.unpublished_of_running {stage : FinalizerStage}
    (h : stage.running = true) : stage.unpublished = true := by
  cases stage with
  | entered | charged => rfl
  | returned => cases h

def Issued (rng : ℕ → String) (n : ℕ) (idHash : String) : Prop := ∃ m < n, idHash = rng m

/-- Past the mark there is one finalizer per operation; what is charged or published has
entered the commit and has not left it. -/
structure LifecycleInv (rng : ℕ → String) (σ : UploadServer) : Prop where
  row_issued : ∀ id row, σ.row? id = some row → Issued rng σ.idsDrawn id
  holder_issued : ∀ h ∈ σ.holders, Issued rng σ.idsDrawn h.idHash
  charge_issued : ∀ id ∈ σ.charges, Issued rng σ.idsDrawn id
  publication_issued : ∀ id ∈ σ.publications, Issued rng σ.idsDrawn id
  scope : ∀ h ∈ σ.holders, ∀ row, σ.row? h.idHash = some row → row.scope = h.scope
  committing : ∀ h ∈ σ.holders, ∀ stage, h.phase = .committing stage →
    ∀ row, σ.row? h.idHash = some row → row.state.commitEntered = true
  one : ∀ (i j : ℕ) (h h' : ClaimHolder), σ.holders[i]? = some h → σ.holders[j]? = some h' →
    h.idHash = h'.idHash → ∀ stage stage', h.phase = .committing stage →
      h'.phase = .committing stage' → i = j
  charged : ∀ id ∈ σ.charges, ∀ row, σ.row? id = some row → row.state.commitEntered = true ∧
    row.quotaCharged = true ∧ ∃ share, row.scope = .share share
  published : ∀ id ∈ σ.publications,
    (∀ row, σ.row? id = some row → row.state.commitEntered = true) ∧
      ∀ h ∈ σ.holders, h.idHash = id → ∀ stage, h.phase = .committing stage →
        stage.unpublished = false
  retry : ∀ h ∈ σ.holders, h.phase = .committing (.returned .retryable) →
    ∃ adminId, h.scope = .admin adminId
  charged_once : σ.charges.Nodup
  published_once : σ.publications.Nodup

theorem LifecycleInv.rows (h : LifecycleInv rng σ) (hs : RowsStep σ s) :
    LifecycleInv rng { σ with store := s } := by
  have hback : ∀ id row', s.uploadOperations.find? id = some row' →
      ∃ row, σ.row? id = some row ∧ RowStep (σ.Bound id) row row' := by
    intro id row' hrow'
    obtain ⟨row, hrow, row'', hrow'', hstep⟩ | ⟨-, hnone⟩ := hs id
    · cases hrow'.symm.trans hrow''
      exact ⟨row, hrow, hstep⟩
    · exact absurd (hrow'.symm.trans hnone) nofun
  refine { h with row_issued := ?_, scope := ?_, committing := ?_, charged := ?_, published := ?_ }
  · intro id row' hrow'
    obtain ⟨row, hrow, -⟩ := hback id row' hrow'
    exact h.row_issued id row hrow
  · intro holder hmem row' hrow'
    obtain ⟨row, hrow, hstep⟩ := hback _ row' hrow'
    exact hstep.scope.trans (h.scope holder hmem row hrow)
  · intro holder hmem stage hph row' hrow'
    obtain ⟨row, hrow, hstep⟩ := hback _ row' hrow'
    exact hstep.entered (.inr (.inr ⟨holder, hmem, rfl, stage, hph⟩))
      (h.committing holder hmem stage hph row hrow)
  · intro id hid row' hrow'
    obtain ⟨row, hrow, hstep⟩ := hback id row' hrow'
    obtain ⟨hentered, hcharged, share, hsco⟩ := h.charged id hid row hrow
    exact ⟨hstep.entered (.inl hid) hentered, hstep.charged hcharged, share,
      hstep.scope.trans hsco⟩
  · intro id hid
    refine ⟨fun row' hrow' => ?_, (h.published id hid).2⟩
    obtain ⟨row, hrow, hstep⟩ := hback id row' hrow'
    exact hstep.entered (.inr (.inl hid)) ((h.published id hid).1 row hrow)

theorem UploadServer.getElem?_setPhase {i j : ℕ} {phase : ClaimPhase} {holder h : ClaimHolder}
    (hhol : σ.holders[i]? = some holder) (hj : (σ.setPhase i phase).holders[j]? = some h) :
    ∃ h₀, σ.holders[j]? = some h₀ ∧ h.idHash = h₀.idHash ∧ h.scope = h₀.scope ∧
      (i = j ∧ h₀ = holder ∧ h.phase = phase ∨ i ≠ j ∧ h = h₀) := by
  simp only [UploadServer.setPhase, List.getElem?_modify] at hj
  obtain ⟨h₀, hh₀, rfl⟩ := Option.map_eq_some_iff.mp hj
  by_cases hij : i = j
  · subst hij
    exact ⟨h₀, hh₀, by simp [Option.some.inj (hh₀.symm.trans hhol)]⟩
  · exact ⟨h₀, hh₀, by simp [hij]⟩

theorem UploadServer.mem_setPhase {i : ℕ} {phase : ClaimPhase} {holder h : ClaimHolder}
    (hhol : σ.holders[i]? = some holder) (hmem : h ∈ (σ.setPhase i phase).holders) :
    ∃ j h₀, σ.holders[j]? = some h₀ ∧ h.idHash = h₀.idHash ∧ h.scope = h₀.scope ∧
      (i = j ∧ h₀ = holder ∧ h.phase = phase ∨ i ≠ j ∧ h = h₀) := by
  obtain ⟨j, hj⟩ := List.mem_iff_getElem?.mp hmem
  exact ⟨j, getElem?_setPhase hhol hj⟩

/-- A holder changes its phase; into the commit only when it is the one finalizer there. -/
theorem LifecycleInv.setPhase (h : LifecycleInv rng σ) {i : ℕ} {holder : ClaimHolder}
    {phase : ClaimPhase} (hhol : σ.holders[i]? = some holder)
    (hcommit : ∀ stage, phase = .committing stage →
      (∀ row, σ.row? holder.idHash = some row → row.state.commitEntered = true) ∧
      (∀ j other, σ.holders[j]? = some other → other.idHash = holder.idHash →
        ∀ stage', other.phase = .committing stage' → j = i) ∧
      (stage.unpublished = true → holder.idHash ∉ σ.publications) ∧
      (stage = .returned .retryable → ∃ adminId, holder.scope = .admin adminId)) :
    LifecycleInv rng (σ.setPhase i phase) := by
  refine { h with
    holder_issued := ?_, scope := ?_, committing := ?_, one := ?_, published := ?_, retry := ?_ }
  · intro changed hmem
    obtain ⟨j, h₀, hh₀, hid, -⟩ := UploadServer.mem_setPhase hhol hmem
    exact hid ▸ h.holder_issued h₀ (List.mem_of_getElem? hh₀)
  · intro changed hmem row hrow
    obtain ⟨j, h₀, hh₀, hid, hsco, -⟩ := UploadServer.mem_setPhase hhol hmem
    exact (h.scope h₀ (List.mem_of_getElem? hh₀) row (hid ▸ hrow)).trans hsco.symm
  · intro changed hmem stage hph row hrow
    obtain ⟨j, h₀, hh₀, hid, -, ⟨-, rfl, hnew⟩ | ⟨-, rfl⟩⟩ :=
      UploadServer.mem_setPhase hhol hmem
    · exact (hcommit stage (hnew.symm.trans hph)).1 row (hid ▸ hrow)
    · exact h.committing changed (List.mem_of_getElem? hh₀) stage hph row hrow
  · intro j k first second hj hk hid stage stage' hcj hck
    obtain ⟨h₀, hh₀, hid₀, -, ⟨rfl, rfl, hnew⟩ | ⟨-, rfl⟩⟩ :=
      UploadServer.getElem?_setPhase hhol hj <;>
    obtain ⟨h₁, hh₁, hid₁, -, ⟨rfl, rfl, hnew'⟩ | ⟨-, rfl⟩⟩ :=
      UploadServer.getElem?_setPhase hhol hk
    · rfl
    · exact ((hcommit stage (hnew.symm.trans hcj)).2.1 k second hh₁ (hid.symm.trans hid₀)
        stage' hck).symm
    · exact (hcommit stage' (hnew'.symm.trans hck)).2.1 j first hh₀ (hid.trans hid₁) stage hcj
    · exact h.one j k first second hh₀ hh₁ hid stage stage' hcj hck
  · intro id hpub
    refine ⟨(h.published id hpub).1, fun changed hmem heq stage hph => ?_⟩
    obtain ⟨j, h₀, hh₀, hid, -, ⟨-, rfl, hnew⟩ | ⟨-, rfl⟩⟩ :=
      UploadServer.mem_setPhase hhol hmem
    · refine Bool.eq_false_iff.mpr fun hunpublished => ?_
      exact (hcommit stage (hnew.symm.trans hph)).2.2.1 hunpublished (by rwa [← hid, heq])
    · exact (h.published id hpub).2 changed (List.mem_of_getElem? hh₀) heq stage hph
  · intro changed hmem hph
    obtain ⟨j, h₀, hh₀, -, hsco, ⟨-, rfl, hnew⟩ | ⟨-, rfl⟩⟩ :=
      UploadServer.mem_setPhase hhol hmem
    · exact hsco ▸ (hcommit _ (hnew.symm.trans hph)).2.2.2 rfl
    · exact h.retry changed (List.mem_of_getElem? hh₀) hph

/-- Rows of a server after a create event: the rows before it without the expired ones, and
possibly the new one. -/
theorem UploadServer.create_rows (σ : UploadServer) (hrng : Function.Injective rng)
    (scope : UploadScope) (now : Instant) (id : String) :
    let s' := committed σ.store (createUploadOperation now scope (rng σ.idsDrawn) σ.store)
    s'.uploadOperations.find? id = σ.row? id ∨
    (∃ row, σ.row? id = some row ∧ row.expiresAt ≤ now ∧ row.state.held = false ∧
      s'.uploadOperations.find? id = none) ∨
    id = rng σ.idsDrawn ∧ ¬Issued rng σ.idsDrawn id := by
  intro s'
  cases hcreate : createUploadOperation now scope (rng σ.idsDrawn) σ.store with
  | error e => exact .inl (by simp only [s', hcreate]; rfl)
  | ok pair =>
    have hs' : s' = pair.1 := by simp only [s', hcreate]; rfl
    rw [hs']
    obtain hsame | hremoved | ⟨rfl, -⟩ := find?_createUploadOperation hcreate id
    · exact .inl hsame
    · exact .inr (.inl hremoved)
    · refine .inr (.inr ⟨rfl, ?_⟩)
      rintro ⟨m, hlt, heq⟩
      have := hrng heq
      omega

theorem Issued.mono {n m : ℕ} {id : String} (h : Issued rng n id) (hle : n ≤ m) :
    Issued rng m id := by
  obtain ⟨k, hlt, heq⟩ := h
  exact ⟨k, by omega, heq⟩

theorem LifecycleInv.create (h : LifecycleInv rng σ) (hrng : Function.Injective rng)
    (scope : UploadScope) (now : Instant) :
    LifecycleInv rng { σ with
      store := committed σ.store (createUploadOperation now scope (rng σ.idsDrawn) σ.store)
      idsDrawn := σ.idsDrawn + 1 } := by
  set s' := committed σ.store (createUploadOperation now scope (rng σ.idsDrawn) σ.store) with hs'
  -- The row of an identifier that was issued before is the row it had.
  have hold : ∀ id row, Issued rng σ.idsDrawn id → s'.uploadOperations.find? id = some row →
      σ.row? id = some row := by
    intro id row hiss hrow
    obtain hsame | ⟨_, _, _, _, hnone⟩ | ⟨-, hfr⟩ := σ.create_rows hrng scope now id
    · exact hsame ▸ hrow
    · exact absurd (hrow.symm.trans hnone) nofun
    · exact absurd hiss hfr
  refine
    { row_issued := ?_
      holder_issued := fun holder hmem => (h.holder_issued holder hmem).mono (Nat.le_succ _)
      charge_issued := fun id hid => (h.charge_issued id hid).mono (Nat.le_succ _)
      publication_issued := fun id hid => (h.publication_issued id hid).mono (Nat.le_succ _)
      scope := fun holder hmem row hrow =>
        h.scope holder hmem row (hold _ row (h.holder_issued holder hmem) hrow)
      committing := fun holder hmem stage hph row hrow =>
        h.committing holder hmem stage hph row (hold _ row (h.holder_issued holder hmem) hrow)
      one := h.one
      charged := fun id hid row hrow =>
        h.charged id hid row (hold id row (h.charge_issued id hid) hrow)
      published := fun id hid => ⟨fun row hrow =>
        (h.published id hid).1 row (hold id row (h.publication_issued id hid) hrow),
        (h.published id hid).2⟩
      retry := h.retry
      charged_once := h.charged_once
      published_once := h.published_once }
  intro id row hrow
  obtain hsame | ⟨_, _, _, _, hnone⟩ | ⟨rfl, -⟩ := σ.create_rows hrng scope now id
  · exact (h.row_issued id row (hsame ▸ hrow)).mono (Nat.le_succ _)
  · exact absurd (hrow.symm.trans hnone) nofun
  · exact ⟨_, Nat.lt_succ_self _, rfl⟩

namespace LifecycleInv

variable {i : ℕ} {holder : ClaimHolder} (h : LifecycleInv rng σ)

include h

theorem claim {scope : UploadScope} {idHash : String} {now : Instant}
    (hclaim : (claimUploadOperation now scope idHash σ.store).2 = true) : LifecycleInv rng { σ with
      store := (claimUploadOperation now scope idHash σ.store).1
      holders := σ.holders ++ [⟨idHash, scope, .claimed⟩] } := by
  obtain ⟨row, hrow, hmat, hclaimed⟩ := updateUploadOperation_changed hclaim
  simp only [Bool.and_eq_true, decide_eq_true_eq] at hmat
  have hrows : RowsStep σ (claimUploadOperation now scope idHash σ.store).1 := .claim scope now
  have h' := h.rows hrows
  have hsplit : ∀ {P : ClaimHolder → Prop}, (∀ holder ∈ σ.holders, P holder) →
      P ⟨idHash, scope, .claimed⟩ →
      ∀ holder ∈ σ.holders ++ [⟨idHash, scope, .claimed⟩], P holder := by
    intro P hold hnew holder hmem
    obtain hmem | hmem := List.mem_append.mp hmem
    · exact hold holder hmem
    · exact List.mem_singleton.mp hmem ▸ hnew
  refine { h' with
    holder_issued := hsplit h.holder_issued (h.row_issued idHash row hrow)
    scope := hsplit h'.scope fun row' hrow' => ?_
    committing := hsplit h'.committing nofun
    one := ?_
    published := fun id hid => ⟨(h'.published id hid).1, hsplit (h.published id hid).2 nofun⟩
    retry := hsplit h.retry nofun }
  · cases hclaimed.symm.trans hrow'
    exact hmat.1.1
  · intro j k first second hj hk hid stage stage' hcj hck
    have hold : ∀ {l : ℕ} {holder : ClaimHolder} {stage : FinalizerStage},
        (σ.holders ++ [⟨idHash, scope, .claimed⟩])[l]? = some holder →
        holder.phase = .committing stage → σ.holders[l]? = some holder := by
      intro l holder stage hl hcom
      obtain hlt | hge := Nat.lt_or_ge l σ.holders.length
      · rwa [List.getElem?_append_left hlt] at hl
      · rw [List.getElem?_append_right hge, List.getElem?_singleton] at hl
        split at hl
        · cases hl
          exact absurd hcom nofun
        · cases hl
    exact h.one j k first second (hold hj hcj) (hold hk hck) hid stage stage' hcj hck

/-- `mark_upload_committing` finds the row in `processing`, so nobody else is past the mark. -/
theorem mark (hhol : σ.holders[i]? = some holder)
    (hmark : (markUploadCommitting holder.idHash σ.store).2 = true) :
    LifecycleInv rng { σ.setPhase i (.committing .entered) with
      store := (markUploadCommitting holder.idHash σ.store).1 } := by
  obtain ⟨row, hrow, hprocessing, hmarked⟩ := updateUploadOperation_changed hmark
  have hout : row.state.commitEntered ≠ true := by
    simp [of_decide_eq_true hprocessing, commitEntered]
  have h' : LifecycleInv rng { σ with store := (markUploadCommitting holder.idHash σ.store).1 } :=
    h.rows .mark
  refine h'.setPhase hhol fun stage hst => ⟨?_, ?_, ?_, ?_⟩
  · intro row' hrow'
    cases hmarked.symm.trans hrow'
    rfl
  · intro j other hj hid stage hcom
    have hmem := List.mem_of_getElem? hj
    exact absurd (h.committing other hmem stage hcom row (hid ▸ hrow)) hout
  · intro _ hpub
    exact hout ((h.published _ hpub).1 row hrow)
  · rintro rfl
    cases hst

/-- A finalizer on its way, which is the only one past the mark and has published nothing. -/
theorem running {stage : FinalizerStage} (hhol : σ.holders[i]? = some holder)
    (hph : holder.phase = .committing stage) (hrun : stage.running = true) :
    (∀ row, σ.row? holder.idHash = some row → row.state.commitEntered = true) ∧
    (∀ j other, σ.holders[j]? = some other → other.idHash = holder.idHash →
      ∀ stage', other.phase = .committing stage' → j = i) ∧
    holder.idHash ∉ σ.publications := by
  have hmem := List.mem_of_getElem? hhol
  refine ⟨h.committing holder hmem stage hph, fun j other hj hid stage' hcom =>
    h.one j i other holder hj hhol hid stage' stage hcom hph, fun hpub => ?_⟩
  have hfalse := (h.published _ hpub).2 holder hmem rfl stage hph
  simp [FinalizerStage.unpublished_of_running hrun] at hfalse

theorem charge {token : String} {bytes directories : ℕ} {audited : Bool} {now : Instant}
    (hhol : σ.holders[i]? = some holder) (hph : holder.phase = .committing .entered)
    (hcommit : commitUploadReservation now token bytes directories audited
      (some holder.idHash) σ.store = .ok (s, .committed)) :
    LifecycleInv rng { σ.setPhase i (.committing .charged) with
      store := s, charges := holder.idHash :: σ.charges } := by
  obtain ⟨hrows, -, hcharge⟩ := RowsStep.charge hcommit
  obtain ⟨⟨row, hrow, hfr⟩, row', hrow', hst, hcharged, hsco⟩ := hcharge rfl
  obtain ⟨-, hone, hunpublished⟩ := h.running hhol hph rfl
  have h' : LifecycleInv rng { σ.setPhase i (.committing .charged) with store := s } := by
    refine (h.rows hrows).setPhase hhol fun stage hstage => ⟨?_, hone, fun _ => hunpublished, ?_⟩
    · intro current hcur
      cases hcur.symm.trans hrow'
      simp [hst, commitEntered]
    · rintro rfl
      cases hstage
  have hnew : holder.idHash ∉ σ.charges := by
    intro hmem
    obtain ⟨-, hold, -⟩ := h.charged holder.idHash hmem row hrow
    simp [hfr] at hold
  refine { h' with charge_issued := ?_, charged := ?_, charged_once := ?_ }
  · intro id hid
    obtain rfl | hid := List.mem_cons.mp hid
    · exact h.row_issued _ row hrow
    · exact h.charge_issued id hid
  · intro id hid current hcur
    obtain rfl | hid := List.mem_cons.mp hid
    · cases hcur.symm.trans hrow'
      exact ⟨by simp [hst, commitEntered], hcharged, hsco⟩
    · exact h'.charged id hid current hcur
  · exact List.nodup_cons.mpr ⟨hnew, h.charged_once⟩

/-- A finalizer returns; what it has published is the first file of the operation. -/
theorem finalize {stage : FinalizerStage} {state : FinishState} {files : ℕ}
    (hhol : σ.holders[i]? = some holder) (hph : holder.phase = .committing stage)
    (hrun : stage.running = true) (hone : files ≤ 1)
    (hretry : state = .retryable → files = 0 ∧ ∃ adminId, holder.scope = .admin adminId) :
    LifecycleInv rng
      ((σ.setPhase i (.committing (.returned state))).published holder.idHash files) := by
  obtain ⟨hentered, honly, hunpublished⟩ := h.running hhol hph hrun
  have h' : LifecycleInv rng (σ.setPhase i (.committing (.returned state))) := by
    refine h.setPhase hhol fun stage' hnew => ⟨hentered, honly, fun _ => hunpublished, ?_⟩
    rintro rfl
    cases hnew
    exact (hretry rfl).2
  obtain rfl | rfl : files = 0 ∨ files = 1 := by omega
  · exact h'
  refine { h' with publication_issued := ?_, published := ?_, published_once := ?_ }
  · intro id hid
    obtain rfl | hid := List.mem_cons.mp hid
    · exact h.holder_issued holder (List.mem_of_getElem? hhol)
    · exact h.publication_issued id hid
  · intro id hid
    obtain rfl | hid := List.mem_cons.mp hid
    · refine ⟨hentered, fun changed hchanged heq stage' hcom => ?_⟩
      obtain ⟨j, h₀, hh₀, hid₀, -, ⟨-, -, hnew⟩ | ⟨hne, rfl⟩⟩ :=
        UploadServer.mem_setPhase hhol hchanged
      · cases hcom.symm.trans hnew
        cases state with
        | retryable => cases (hretry rfl).1
        | completed | rejected | outcomeUnknown => rfl
      · exact absurd (honly j changed hh₀ heq stage' hcom).symm hne
    · exact h'.published id hid
  · exact List.nodup_cons.mpr ⟨hunpublished, h.published_once⟩

theorem crashed : LifecycleInv rng σ.crashed :=
  { h with
    holder_issued := nofun
    scope := fun _ => nofun
    committing := fun _ => nofun
    one := fun _ _ _ _ => nofun
    published := fun id hid => ⟨(h.published id hid).1, nofun⟩
    retry := fun _ => nofun }

/-- Only an administrator's finalizer allows a retry. It has published nothing and is the only
one past the mark. -/
theorem rows_finish {state : FinishState} (hhol : σ.holders[i]? = some holder)
    (hph : holder.phase = .committing (.returned state)) (result : Option String) (now : Instant) :
    RowsStep (σ.setPhase i .answered)
      (finishUploadOperation now holder.idHash state result σ.store).1 := by
  refine .finish result now fun hretry row hrow hbound => ?_
  subst hretry
  have hmem := List.mem_of_getElem? hhol
  obtain hcharge | hpub | ⟨other, hoth, hid, stage, hcommit⟩ := hbound
  · obtain ⟨admin, hadm⟩ := h.retry holder hmem hph
    obtain ⟨-, -, share, hsh⟩ := h.charged _ hcharge row hrow
    have := hsh.symm.trans (h.scope holder hmem row hrow)
    simp [hadm] at this
  · cases (h.published _ hpub).2 holder hmem rfl _ hph
  · obtain ⟨j, h₀, hh₀, hid₀, -, ⟨-, -, hnew⟩ | ⟨hne, rfl⟩⟩ :=
      UploadServer.mem_setPhase hhol hoth
    · exact absurd (hnew.symm.trans hcommit) nofun
    · exact hne (h.one i j holder other hhol hh₀ hid.symm _ stage hph hcommit)

theorem perform (hrng : Function.Injective rng) (event : UploadEvent) :
    LifecycleInv rng (σ.perform rng event) := by
  have hacts := σ.acts rng event
  generalize σ.perform rng event = σ' at hacts ⊢
  cases hacts with
  | skip => exact h
  | create scope now => exact h.create hrng scope now
  | claim scope id now hclaim => exact h.claim hclaim
  | refuse scope id now => exact h.rows (.claim scope now)
  | register hhol | drop hhol => exact { h.setPhase hhol (by nofun) with }
  | bind _ fingerprint fragmentName => exact h.rows (.bind fingerprint fragmentName)
  | rejectForm hhol _ result now =>
    exact (h.setPhase hhol (by nofun)).rows (.finish result now (by nofun))
  | mark hhol _ hmark => exact h.mark hhol hmark
  | markFails hhol => exact (h.setPhase hhol (by nofun)).rows .mark
  | charge hhol hph hcommit => exact h.charge hhol hph hcommit
  | chargeFails _ _ hcommit => exact h.rows (RowsStep.charge hcommit).1
  | finalize _ _ hhol hph hrun hone hretry => exact h.finalize hhol hph hrun hone hretry
  | finalizeCrash _ files hhol hph hrun hone =>
    -- as if the finalizer had returned just before
    have hret : LifecycleInv rng ((σ.setPhase _ (.committing (.returned .outcomeUnknown))).published
        _ files) := h.finalize hhol hph hrun hone nofun
    exact { hret.crashed with }
  | finish hhol hph result now =>
    exact (h.setPhase hhol (by nofun)).rows (h.rows_finish hhol hph result now)
  | giveUp hhol => exact h.setPhase hhol (by nofun)
  | release hhol => exact (h.setPhase hhol (by nofun)).rows .release
  | copyRegistrations => exact { h with }
  | recover _ now => exact { h.rows (.recover _ now) with }
  | crash => exact h.crashed
  | otherTables others => exact { h with }

end LifecycleInv

theorem LifecycleInv.initial (rng : ℕ → String) (s : Store) :
    LifecycleInv rng (UploadServer.initial s) := by
  constructor <;> simp [UploadServer.initial, UploadServer.row?, KeyedTable.find?_eq_some_iff]

theorem LifecycleInv.run (h : LifecycleInv rng σ) (hrng : Function.Injective rng)
    (events : List UploadEvent) : LifecycleInv rng (σ.run rng events) := by
  induction events generalizing σ with
  | nil => exact h
  | cons event events ih => exact ih (h.perform hrng event)

end Invariant

section Lifecycle

variable {rng : ℕ → String} {σ : UploadServer} {idHash : String} {row : UploadOperation}

/-- A settled row keeps its state until a create event finds it expired and removes it. -/
theorem LifecycleInv.settled_kept (h : LifecycleInv rng σ) (hrng : Function.Injective rng)
    (event : UploadEvent) (hrow : σ.row? idHash = some row) (hset : row.state.settled = true) :
    (∃ row', (σ.perform rng event).row? idHash = some row' ∧ row'.state = row.state) ∨
      (σ.perform rng event).row? idHash = none ∧
        ∃ scope now, event = .create scope now ∧ row.expiresAt ≤ now := by
  have hrows : ∀ {σ₀ : UploadServer} {s : Store}, σ₀.row? idHash = some row → RowsStep σ₀ s →
      ∃ row', s.uploadOperations.find? idHash = some row' ∧ row'.state = row.state := by
    intro σ₀ s hrow hs
    obtain ⟨row₀, hrow₀, row', hrow', hstep⟩ | ⟨hnone, -⟩ := hs idHash
    · cases hrow.symm.trans hrow₀
      exact ⟨row', hrow', hstep.settled hset⟩
    · exact absurd (hrow.symm.trans hnone) nofun
  have hsame : ∃ row', σ.row? idHash = some row' ∧ row'.state = row.state := ⟨row, hrow, rfl⟩
  have hacts := σ.acts rng event
  generalize σ.perform rng event = σ' at hacts ⊢
  cases hacts with
  | create scope now =>
    obtain hkept | ⟨row₀, hrow₀, hexpired, -, hnone⟩ | ⟨-, hfr⟩ :=
      σ.create_rows hrng scope now idHash
    · exact .inl ⟨row, hkept.trans hrow, rfl⟩
    · cases hrow.symm.trans hrow₀
      exact .inr ⟨hnone, scope, now, rfl, hexpired⟩
    · exact absurd (h.row_issued idHash row hrow) hfr
  | claim scope id now | refuse scope id now => exact .inl (hrows hrow (.claim scope now))
  | bind _ fingerprint fragmentName => exact .inl (hrows hrow (.bind fingerprint fragmentName))
  | rejectForm _ _ result now => exact .inl (hrows hrow (.finish result now (by nofun)))
  | mark | markFails => exact .inl (hrows hrow .mark)
  | charge _ _ hcommit | chargeFails _ _ hcommit =>
    exact .inl (hrows hrow (RowsStep.charge hcommit).1)
  | finish hhol hph result now =>
    exact .inl (hrows (by exact hrow) (h.rows_finish hhol hph result now))
  | release => exact .inl (hrows hrow .release)
  | recover _ now => exact .inl (hrows hrow (.recover _ now))
  | _ => exact .inl hsame

/-- A row in `committing` whose finalizer died with the process. -/
structure UploadServer.Orphaned (σ : UploadServer) (idHash : String) : Prop where
  row : ∃ row, σ.row? idHash = some row ∧ row.state = .committing
  holders : ∀ holder ∈ σ.holders, holder.idHash ≠ idHash
  active : idHash ∉ σ.active
  recoveries : ∀ copy ∈ σ.recoveries, idHash ∉ copy

theorem UploadServer.Orphaned.setPhase (ho : σ.Orphaned idHash) {i : ℕ} {holder : ClaimHolder}
    (hhol : σ.holders[i]? = some holder) (phase : ClaimPhase) :
    (σ.setPhase i phase).Orphaned idHash := by
  refine { ho with holders := fun changed hmem => ?_ }
  obtain ⟨j, h₀, hh₀, hid, -⟩ := UploadServer.mem_setPhase hhol hmem
  exact hid ▸ ho.holders h₀ (List.mem_of_getElem? hh₀)

/-- Nothing but recovery touches an orphaned row: it cannot be claimed, so nobody holds it. -/
theorem LifecycleInv.orphaned_kept (h : LifecycleInv rng σ) (hrng : Function.Injective rng)
    (ho : σ.Orphaned idHash) {event : UploadEvent} (hev : ∀ j now, event ≠ .recover j now) :
    (σ.perform rng event).Orphaned idHash := by
  have hacts := σ.acts rng event
  generalize σ.perform rng event = σ' at hacts ⊢
  have hne : ∀ {i : ℕ} {holder : ClaimHolder}, σ.holders[i]? = some holder →
      idHash ≠ holder.idHash :=
    fun hhol => (ho.holders _ (List.mem_of_getElem? hhol)).symm
  obtain ⟨row, hrow, hst⟩ := ho.row
  have hoth : ∀ {id : String} {p : UploadOperation → Bool}
      {f : UploadOperation → UploadOperation} {hf : ∀ row, (f row).idHash = row.idHash},
      idHash ≠ id → ∃ row',
        (updateUploadOperation σ.store id p f hf).1.uploadOperations.find? idHash = some row' ∧
          row'.state = .committing :=
    fun h => ⟨row, (find?_updateUploadOperation_of_ne h).trans hrow, hst⟩
  cases hacts with
  | skip => exact ho
  | create scope now =>
    refine { ho with row := ?_ }
    obtain hkept | ⟨row₀, hrow₀, -, hheld, -⟩ | ⟨-, hfr⟩ := σ.create_rows hrng scope now idHash
    · exact ⟨row, hkept.trans hrow, hst⟩
    · cases hrow.symm.trans hrow₀
      simp [hst, held] at hheld
    · exact absurd (h.row_issued idHash row hrow) hfr
  | claim scope id now hclaim =>
    obtain ⟨claimed, hclaimed, hmat, -⟩ := updateUploadOperation_changed hclaim
    have hid : idHash ≠ id := by
      rintro rfl
      cases hrow.symm.trans hclaimed
      simp [hst, unused] at hmat
    refine { ho with row := hoth hid, holders := fun holder hmem => ?_ }
    obtain hmem | hmem := List.mem_append.mp hmem
    · exact ho.holders holder hmem
    · exact List.mem_singleton.mp hmem ▸ hid.symm
  | refuse scope id now hclaim =>
    have hunclaimable : ¬row.state.unused = true := by simp [hst, unused]
    exact { ho with
      row := ⟨row, find?_updateUploadOperation_of_not hrow (by simp [hunclaimable]), hst⟩ }
  | register hhol =>
    refine { ho.setPhase hhol _ with active := ?_ }
    simp [hne hhol, ho.active]
  | bind hhol => exact { ho with row := hoth (hne hhol) }
  | rejectForm hhol | mark hhol | markFails hhol | finish hhol | release hhol =>
    exact { ho.setPhase hhol _ with row := hoth (hne hhol) }
  | charge hhol _ hcommit =>
    have hkept := (RowsStep.charge hcommit).2.1 idHash (hne hhol)
    exact { ho.setPhase hhol _ with row := ⟨row, hkept.trans hrow, hst⟩ }
  | chargeFails hhol _ hcommit =>
    have hkept := (RowsStep.charge hcommit).2.1 idHash (hne hhol)
    exact { ho with row := ⟨row, hkept.trans hrow, hst⟩ }
  | finalize _ _ hhol => exact { ho.setPhase hhol _ with }
  | giveUp hhol => exact ho.setPhase hhol _
  | drop hhol =>
    exact { ho.setPhase hhol _ with active := fun h => ho.active (Finset.mem_of_mem_erase h) }
  | copyRegistrations =>
    refine { ho with recoveries := fun copy hmem => ?_ }
    obtain hmem | hmem := List.mem_append.mp hmem
    · exact ho.recoveries copy hmem
    · exact List.mem_singleton.mp hmem ▸ ho.active
  | recover => exact absurd rfl (hev _ _)
  | crash | finalizeCrash => exact ⟨ho.row, nofun, Finset.notMem_empty _, nofun⟩
  | otherTables => exact { ho with }

theorem UploadServer.Orphaned.recover (ho : σ.Orphaned idHash) (rng : ℕ → String) {j : ℕ}
    (now : Instant)
    (hj : j < σ.recoveries.length) :
    ∃ row, (σ.perform rng (.recover j now)).row? idHash = some row ∧
      row.state = .outcomeUnknown := by
  obtain ⟨row, hrow, hst⟩ := ho.row
  have hcopy : idHash ∉ σ.recoveries[j] := ho.recoveries _ (List.getElem_mem hj)
  refine ⟨row.recovered now, ?_, by simp [UploadOperation.recovered, hst]⟩
  have hfound : σ.store.uploadOperations.find? idHash = some row := hrow
  simp [UploadServer.perform, UploadServer.row?, List.getElem?_eq_getElem hj,
    find?_recoverUploadOperations, hfound, hst, hcopy, held]

theorem LifecycleInv.orphaned_run (h : LifecycleInv rng σ) (hrng : Function.Injective rng)
    (ho : σ.Orphaned idHash) (events : List UploadEvent)
    (hevents : ∀ event ∈ events, ∀ j now, event ≠ .recover j now) :
    (σ.run rng events).Orphaned idHash := by
  induction events generalizing σ with
  | nil => exact ho
  | cons event events ih =>
    have hkept := h.orphaned_kept hrng ho (hevents event List.mem_cons_self)
    exact ih (h.perform hrng event) hkept fun e he => hevents e (List.mem_cons_of_mem event he)

/-- Over any run: a settled operation stays settled until it is removed after its expiry, an
operation is charged and published at most once, and not at all while it can be claimed; and
the first recovery after a crash, whatever happens before it, settles an entered commit. -/
theorem upload_operation_settles_once (hrng : Function.Injective rng) (s : Store)
    (events : List UploadEvent) (idHash : String) :
    let σ := (UploadServer.initial s).run rng events
    σ.charges.count idHash ≤ 1 ∧ σ.publications.count idHash ≤ 1 ∧
    ∀ row, σ.row? idHash = some row →
      (row.state.settled = true → ∀ event,
        (∃ row', (σ.perform rng event).row? idHash = some row' ∧ row'.state = row.state) ∨
        (σ.perform rng event).row? idHash = none ∧
          ∃ scope now, event = .create scope now ∧ row.expiresAt ≤ now) ∧
      (row.state = .ready ∨ row.state = .retryable →
        idHash ∉ σ.charges ∧ idHash ∉ σ.publications) ∧
      (row.state = .committing → ∀ after : List UploadEvent,
        (∀ event ∈ after, ∀ j now, event ≠ .recover j now) → ∀ j now,
        j < (σ.run rng (.crash :: after)).recoveries.length →
        ∃ row', (σ.run rng (.crash :: after ++ [.recover j now])).row? idHash = some row' ∧
          row'.state = .outcomeUnknown) := by
  intro σ
  have h : LifecycleInv rng σ := (LifecycleInv.initial rng s).run hrng events
  refine ⟨List.nodup_iff_count_le_one.mp h.charged_once idHash,
    List.nodup_iff_count_le_one.mp h.published_once idHash, fun row hrow => ⟨?_, ?_, ?_⟩⟩
  · intro hset event
    exact h.settled_kept hrng event hrow hset
  · intro hunu
    have hout : row.state.commitEntered ≠ true := by
      obtain hst | hst := hunu <;> simp [hst, commitEntered]
    exact ⟨fun hid => hout (h.charged idHash hid row hrow).1,
      fun hid => hout ((h.published idHash hid).1 row hrow)⟩
  · intro hst after haft j now hj
    have ho : (σ.perform rng .crash).Orphaned idHash :=
      ⟨⟨row, hrow, hst⟩, nofun, Finset.notMem_empty _, nofun⟩
    have hend := (h.perform hrng .crash).orphaned_run hrng ho after haft
    rw [UploadServer.run, List.foldl_append]
    exact hend.recover rng now hj

/-- Identifiers of growing length. -/
def unaryIds (n : ℕ) : String := String.ofList (List.replicate n 'i')

theorem unaryIds_injective : Function.Injective unaryIds := fun m n h => by
  simpa using congrArg List.length (String.ofList_inj.mp h)

/-- A share that accepts uploads, with a reservation for four bytes. -/
def reservedStore : Store :=
  let shared := committed .empty (createShare 0 ⟨"share", none, ['d'], true, .uploadOnly, none,
    none, none, some 10, some 2, none, .reject, 1⟩ none .empty)
  let begun := committed shared (beginUploadReservation 0 "slot" 1 0 shared)
  committed begun (extendUploadReservationUpTo 0 "slot" 4 4 begun)

/-- A staged file of four bytes, and the folder it is for. -/
def stagedWorld : UploadWorld :=
  ⟨reservedStore, Function.update (fun _ => none) [['d']] (some (.directory 1)), some ⟨2, 4⟩,
    true, 0, [], []⟩

/-- The upload to `d/f` for which the share is charged. -/
def chargedUpload : CommittedContext :=
  let folder : SecureDirectory := ⟨[['d']], 1⟩
  ⟨⟨⟨1, 0, folder, some folder, [], [], [], ['f']⟩, 4, false, false⟩, folder, some folder⟩

/-- A public upload is charged and published before the process dies. -/
def chargedThenCrash : List UploadEvent :=
  [.create (.share 1) 0, .claim (.share 1) (unaryIds 0) 1, .register 0,
    .bind 0 "fingerprint" "fragment", .mark 0, .charge 0 "slot" 4 0 true 1,
    .finalize 0 (.share chargedUpload) undisturbedUpload stagedWorld]

theorem upload_operation_settles_once_crash :
    let σ := (UploadServer.initial reservedStore).run unaryIds chargedThenCrash
    σ.charges = [unaryIds 0] ∧ σ.publications = [unaryIds 0] ∧
    ∃ row, (σ.run unaryIds [.crash, .copyRegistrations, .recover 0 2]).row? (unaryIds 0) =
      some row ∧ row.state = .outcomeUnknown := by
  intro σ
  obtain ⟨row, hrow, hst⟩ : ∃ row, σ.row? (unaryIds 0) = some row ∧ row.state = .committing :=
    ⟨⟨"", .share 1, .committing, 0, uploadRetention, some "fingerprint", none, some "fragment",
      true⟩, by decide, rfl⟩
  obtain ⟨-, -, hrows⟩ := upload_operation_settles_once unaryIds_injective reservedStore
    chargedThenCrash (unaryIds 0)
  exact ⟨by decide, by decide,
    (hrows row hrow).2.2 hst [.copyRegistrations] (by simp) 0 2 (by decide)⟩

end Lifecycle

end VaultLink
