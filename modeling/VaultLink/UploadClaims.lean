import VaultLink.Histories
import VaultLink.UploadLifecycle

/-!
# Guards of upload claims

A guard is known to the server only by the hash of its operation: dropping one guard removes
the registration of any other for the same operation, and its later release takes the row
from whoever claims it in between. Claims exclude each other as long as nothing reopens the
row of a claim before its release: no finalizer allows a retry while its own guard lives, and
no recovery acts for which the claim is not registered.
-/
namespace VaultLink

open ClaimPhase
open UploadServer

/-- The claim at position `i` is for the operation and its guard lives. -/
def UploadServer.GuardLives (σ : UploadServer) (i : ℕ) (idHash : String) : Prop :=
  ∃ holder, σ.holders[i]? = some holder ∧ holder.idHash = idHash ∧ holder.phase.guardLives = true

section Collision

/-- The session has ended. -/
def revokedSession : UploadEnvironment :=
  { undisturbedUpload with moment := fun time => ⟨0, time + 2, false, false⟩ }

/-- An upload into a folder that is not there. -/
def folderUpload : PreparedAdminUpload := ⟨['f'], 4, [], [], [], ['n'], false⟩

/-- An administrator's upload is allowed a retry while its guard still lives, and the retry
starts at once. -/
def retryBeforeDrop : List UploadEvent :=
  [.create (.admin 1) 0, .claim (.admin 1) (unaryIds 0) 1, .register 0, .mark 0,
    .finalize 0 (.admin folderUpload) revokedSession stagedWorld, .finish 0 none 1,
    .claim (.admin 1) (unaryIds 0) 1, .register 1]

/-- Both guards live; after the first is dropped its release takes the row from the second. -/
theorem retryBeforeDrop_collides :
    let σ := (initial .empty).run unaryIds retryBeforeDrop
    let dropped := σ.perform unaryIds (.drop 0)
    σ.GuardLives 0 (unaryIds 0) ∧ σ.GuardLives 1 (unaryIds 0) ∧
    dropped.GuardLives 1 (unaryIds 0) ∧
    (dropped.row? (unaryIds 0)).map UploadOperation.state = some .processing ∧
    ((dropped.perform unaryIds (.release 0)).row? (unaryIds 0)).map UploadOperation.state =
      some .retryable :=
  ⟨⟨⟨unaryIds 0, .admin 1, .answered⟩, by decide, rfl, rfl⟩,
    ⟨⟨unaryIds 0, .admin 1, .working⟩, by decide, rfl, rfl⟩,
    ⟨⟨unaryIds 0, .admin 1, .working⟩, by decide, rfl, rfl⟩, by decide, by decide⟩

end Collision

section Exclusion

variable {rng : ℕ → String} {σ : UploadServer} {idHash : String}

/-- Nothing reopens the row of a claim on its way: no finalizer allows a retry, which it does
before its guard is dropped; registrations are not copied between a claim and its registration,
nor before a claim for a recovery after it, nor after the guard is dropped for a recovery before
the release. -/
def UploadServer.Orderly (idHash : String) (σ : UploadServer) : UploadEvent → Prop
  | .finish i .. => ∀ holder ∈ σ.holders[i]?, holder.idHash = idHash →
      holder.phase ≠ .committing (.returned .retryable)
  | .copyRegistrations => ∀ holder ∈ σ.holders, holder.idHash = idHash → holder.phase ≠ .claimed
  | .claim _ id _ => id = idHash → ∀ copy ∈ σ.recoveries, idHash ∈ copy
  | .recover j _ => ∀ holder ∈ σ.holders, holder.idHash = idHash → holder.phase = .dropped →
      ∀ copy ∈ σ.recoveries[j]?, idHash ∈ copy
  | _ => True

instance (idHash : String) (σ : UploadServer) :
    (event : UploadEvent) → Decidable (σ.Orderly idHash event)
  | .finish .. => inferInstanceAs (Decidable (∀ _ ∈ _, _ → _))
  | .copyRegistrations => inferInstanceAs (Decidable (∀ _ ∈ _, _ → _))
  | .claim .. => inferInstanceAs (Decidable (_ → ∀ _ ∈ _, _))
  | .recover .. => inferInstanceAs (Decidable (∀ _ ∈ _, _ → _ → ∀ _ ∈ _, _))
  | .create .. | .register .. | .bind .. | .rejectForm .. | .mark .. | .charge .. | .turnAway ..
  | .finalize .. | .giveUp .. | .drop .. | .release .. | .crash | .otherTables .. =>
    .isTrue trivial

/-- A claim of the operation is on its way. -/
def UploadServer.Claimed (σ : UploadServer) (idHash : String) : Prop :=
  ∃ holder ∈ σ.holders, holder.idHash = idHash ∧ holder.phase ≠ .released

/-- The row of the operation cannot be claimed. -/
def RowClosed (idHash : String) (s : Store) : Prop :=
  ∀ row, s.uploadOperations.find? idHash = some row → row.state.unused = false

/-- One claim at a time is on its way; its row cannot be claimed, and recovery knows about its
guard. -/
structure ClaimInv (idHash : String) (σ : UploadServer) : Prop where
  one : ∀ (i j : ℕ) (h h' : ClaimHolder), σ.holders[i]? = some h → σ.holders[j]? = some h' →
    h.idHash = idHash → h'.idHash = idHash → h.phase ≠ .released → h'.phase ≠ .released → i = j
  closed : σ.Claimed idHash → RowClosed idHash σ.store
  active : ∀ h ∈ σ.holders, h.idHash = idHash → h.phase.guardLives = true → idHash ∈ σ.active
  copies : ∀ h ∈ σ.holders, h.idHash = idHash → h.phase = .claimed ∨ h.phase.guardLives = true →
    ∀ copy ∈ σ.recoveries, idHash ∈ copy

theorem ClaimInv.of_holders_eq_nil {σ : UploadServer} (hnil : σ.holders = []) :
    ClaimInv idHash σ where
  one := by simp [hnil]
  closed := by simp [UploadServer.Claimed, hnil]
  active := by simp [hnil]
  copies := by simp [hnil]

theorem ClaimPhase.ne_released_of_guardLives {phase : ClaimPhase} (h : phase.guardLives = true) :
    phase ≠ .released := by
  rintro rfl
  cases h

section Rows

variable {s s' : Store}

theorem RowClosed.congr (h : RowClosed idHash s)
    (hrow : s'.uploadOperations.find? idHash = s.uploadOperations.find? idHash) :
    RowClosed idHash s' := fun row hrow' => h row (hrow ▸ hrow')

/-- A statement that leaves a row it changes in a state that cannot be claimed. -/
theorem RowClosed.update (h : RowClosed idHash s) {id : String} {p : UploadOperation → Bool}
    {f : UploadOperation → UploadOperation} (hf : ∀ row, (f row).idHash = row.idHash)
    (hstate : idHash = id → ∀ row, row.state.unused = false → (f row).state.unused = false) :
    RowClosed idHash (updateUploadOperation s id p f hf).1 := by
  intro row' hrow'
  rw [find?_updateUploadOperation] at hrow'
  obtain ⟨row, hrow, rfl⟩ := Option.map_eq_some_iff.mp hrow'
  split
  · rename_i hmat
    exact hstate hmat.1 row (h row hrow)
  · exact h row hrow

theorem RowClosed.finish (h : RowClosed idHash s) {id : String} {state : FinishState}
    (hstate : idHash = id → state ≠ .retryable) (result : Option String) (now : Instant) :
    RowClosed idHash (finishUploadOperation now id state result s).1 := by
  refine h.update _ fun hid row _ => ?_
  cases state with
  | retryable => exact absurd rfl (hstate hid)
  | completed | rejected | outcomeUnknown => rfl

theorem RowClosed.charge (h : RowClosed idHash s) {id token : String} {bytes directories : ℕ}
    {audited : Bool} {now : Instant} {outcome : UploadReservationCommitOutcome}
    (hcommit : commitUploadReservation now token bytes directories audited (some id) s =
      .ok (s', outcome)) : RowClosed idHash s' := by
  obtain ⟨-, hsame⟩ | ⟨-, shareId, s₁, s₂, h₁, hcharge, hsame⟩ :=
    commitUploadReservation_operations hcommit
  · exact h.congr (by rw [hsame])
  · obtain ⟨⟨row, -, -, hst, -, hrow'⟩, hothers⟩ := find?_chargeUploadOperation hcharge
    by_cases hid : idHash = id
    · subst hid
      intro current hcur
      rw [hsame, hrow'] at hcur
      cases hcur
      simp [hst, UploadOperationState.unused]
    · exact h.congr (by rw [hsame, hothers idHash hid, h₁])

end Rows

theorem ClaimInv.congr {σ' : UploadServer} (h : ClaimInv idHash σ)
    (hholders : σ'.holders = σ.holders) (hact : σ'.active = σ.active)
    (hrecoveries : σ'.recoveries = σ.recoveries)
    (hclosed : σ.Claimed idHash → RowClosed idHash σ.store → RowClosed idHash σ'.store) :
    ClaimInv idHash σ' where
  one := by rw [hholders]; exact h.one
  closed := by
    unfold Claimed
    rw [hholders]
    exact fun hclaim => hclosed hclaim (h.closed hclaim)
  active := by rw [hholders, hact]; exact h.active
  copies := by rw [hholders, hrecoveries]; exact h.copies

/-- A live guard stays live, ends, or is constructed and registered. -/
theorem ClaimInv.setPhase (h : ClaimInv idHash σ) {i : ℕ} {holder : ClaimHolder}
    (hhol : σ.holders[i]? = some holder) {phase : ClaimPhase} {active : Finset String}
    (hclaims : holder.phase ≠ .released) (hph : phase ≠ .claimed)
    (hguard : phase.guardLives = true → holder.phase = .claimed ∨ holder.phase.guardLives = true)
    (hnew : phase.guardLives = true → holder.idHash = idHash → idHash ∈ active)
    (hold : idHash ∈ σ.active → holder.idHash ≠ idHash → idHash ∈ active) :
    ClaimInv idHash { σ.setPhase i phase with active } := by
  have hopen : ∀ {h₀ changed : ClaimHolder} {j : ℕ}, changed.phase ≠ .released →
      (i = j ∧ h₀ = holder ∧ changed.phase = phase ∨ i ≠ j ∧ changed = h₀) →
      h₀.phase ≠ .released := by
    rintro h₀ changed j hne (⟨-, rfl, -⟩ | ⟨-, rfl⟩)
    · exact hclaims
    · exact hne
  refine ⟨?_, ?_, ?_, ?_⟩
  · intro j k first second hj hk hidj hidk hnej hnek
    obtain ⟨h₀, hh₀, hid₀, -, hcase₀⟩ := getElem?_setPhase hhol hj
    obtain ⟨h₁, hh₁, hid₁, -, hcase₁⟩ := getElem?_setPhase hhol hk
    exact h.one j k h₀ h₁ hh₀ hh₁ (hid₀ ▸ hidj) (hid₁ ▸ hidk) (hopen hnej hcase₀)
      (hopen hnek hcase₁)
  · rintro ⟨changed, hmem, hid, hne⟩
    obtain ⟨j, h₀, hh₀, hid₀, -, hcase⟩ := mem_setPhase hhol hmem
    exact h.closed ⟨h₀, List.mem_of_getElem? hh₀, hid₀ ▸ hid, hopen hne hcase⟩
  · intro changed hmem hid hliv
    obtain ⟨j, h₀, hh₀, hid₀, -, ⟨-, rfl, hchanged⟩ | ⟨hne, rfl⟩⟩ :=
      mem_setPhase hhol hmem
    · exact hnew (hchanged ▸ hliv) (hid₀ ▸ hid)
    · refine hold (h.active changed (List.mem_of_getElem? hh₀) hid hliv) fun heq => hne ?_
      exact h.one i j holder changed hhol hh₀ heq hid hclaims (ne_released_of_guardLives hliv)
  · intro changed hmem hid hliv
    obtain ⟨j, h₀, hh₀, hid₀, -, ⟨-, rfl, hchanged⟩ | ⟨-, rfl⟩⟩ :=
      mem_setPhase hhol hmem
    · rw [hchanged] at hliv
      exact h.copies h₀ (List.mem_of_getElem? hh₀) (hid₀ ▸ hid)
        (hguard (hliv.resolve_left hph))
    · exact h.copies changed (List.mem_of_getElem? hh₀) hid hliv

/-- A claim that starts has found an unused row, so no other claim is on its way. -/
theorem ClaimInv.claim (h : ClaimInv idHash σ) {scope : UploadScope} {id : String} {now : Instant}
    (hclaim : (claimUploadOperation now scope id σ.store).2 = true)
    (hcopies : id = idHash → ∀ copy ∈ σ.recoveries, idHash ∈ copy) :
    ClaimInv idHash { σ with
      store := (claimUploadOperation now scope id σ.store).1
      holders := σ.holders ++ [⟨id, scope, .claimed⟩] } := by
  obtain ⟨row, hrow, hmat, hclaimed⟩ := updateUploadOperation_changed hclaim
  simp only [Bool.and_eq_true] at hmat
  have hreleased : ∀ {j : ℕ} {holder : ClaimHolder}, id = idHash →
      σ.holders[j]? = some holder → holder.idHash = idHash → holder.phase = .released := by
    rintro j holder rfl hj hid
    by_contra hne
    have hunused := h.closed ⟨holder, List.mem_of_getElem? hj, hid, hne⟩ row hrow
    rw [hmat.1.2] at hunused
    cases hunused
  have hback : ∀ {j : ℕ} {holder : ClaimHolder},
      (σ.holders ++ [⟨id, scope, .claimed⟩])[j]? = some holder →
      σ.holders[j]? = some holder ∨ j = σ.holders.length ∧ holder = ⟨id, scope, .claimed⟩ := by
    intro j holder hj
    obtain hlt | hge := Nat.lt_or_ge j σ.holders.length
    · exact .inl (by rwa [List.getElem?_append_left hlt] at hj)
    · rw [List.getElem?_append_right hge, List.getElem?_singleton] at hj
      split at hj
      · exact .inr ⟨by omega, (Option.some.inj hj).symm⟩
      · cases hj
  refine ⟨?_, ?_, ?_, ?_⟩
  · intro j k first second hj hk hidj hidk hnej hnek
    obtain hj | ⟨rfl, rfl⟩ := hback hj <;> obtain hk | ⟨rfl, rfl⟩ := hback hk
    · exact h.one j k first second hj hk hidj hidk hnej hnek
    · exact absurd (hreleased hidk hj hidj) hnej
    · exact absurd (hreleased hidj hk hidk) hnek
    · rfl
  · rintro ⟨holder, hmem, hid, hne⟩ current hcur
    by_cases heq : id = idHash
    · subst heq
      cases hcur.symm.trans hclaimed
      rfl
    · obtain hmem | hmem := List.mem_append.mp hmem
      · refine h.closed ⟨holder, hmem, hid, hne⟩ current ?_
        rw [← hcur]
        exact (find?_updateUploadOperation_of_ne fun h => heq h.symm).symm
      · cases List.mem_singleton.mp hmem
        exact absurd hid heq
  · intro holder hmem hid hliv
    obtain hmem | hmem := List.mem_append.mp hmem
    · exact h.active holder hmem hid hliv
    · simp [List.mem_singleton.mp hmem, guardLives] at hliv
  · intro holder hmem hid hliv
    obtain hmem | hmem := List.mem_append.mp hmem
    · exact h.copies holder hmem hid hliv
    · cases List.mem_singleton.mp hmem
      exact hcopies hid

/-- A recovery that settles the row of the operation finds no claim on its way. -/
theorem ClaimInv.mem_copy (h : ClaimInv idHash σ) {j : ℕ} {now : Instant}
    (hord : σ.Orderly idHash (.recover j now)) {copy : Finset String}
    (hcopy : σ.recoveries[j]? = some copy) (hclaim : σ.Claimed idHash) : idHash ∈ copy := by
  obtain ⟨holder, hmem, hid, hne⟩ := hclaim
  have hcopies := h.copies holder hmem hid
  cases hph : holder.phase with
  | claimed => exact hcopies (.inl hph) copy (List.mem_of_getElem? hcopy)
  | working | committing | answered =>
    exact hcopies (.inr (by rw [hph]; rfl)) copy (List.mem_of_getElem? hcopy)
  | dropped => exact hord holder hmem hid hph copy hcopy
  | released => exact absurd hph hne

theorem ClaimInv.perform (h : ClaimInv idHash σ) (hlife : LifecycleInv rng σ)
    (hrng : Function.Injective rng) {event : UploadEvent} (hord : σ.Orderly idHash event) :
    ClaimInv idHash (σ.perform rng event) := by
  have hacts := σ.acts rng event
  generalize σ.perform rng event = σ' at hacts ⊢
  -- A holder whose guard lives moves on or ends; the registrations of others stay.
  have hmove : ∀ {i : ℕ} {holder : ClaimHolder} (phase : ClaimPhase), phase ≠ .claimed →
      σ.holders[i]? = some holder → holder.phase.guardLives = true →
      ClaimInv idHash (σ.setPhase i phase) := by
    intro i holder phase hph hhol hliv
    refine h.setPhase hhol (ne_released_of_guardLives hliv) hph (fun _ => .inr hliv) ?_
      fun hmem _ => hmem
    exact fun _ hid => h.active holder (List.mem_of_getElem? hhol) hid hliv
  cases hacts with
  | skip => exact h
  | create scope now =>
    refine h.congr rfl rfl rfl fun hclaimed hclosed row hrow => ?_
    obtain ⟨holder, hmem, hid, -⟩ := hclaimed
    obtain hsame | ⟨_, _, _, _, hnone⟩ | ⟨-, hfresh⟩ := σ.create_rows hrng scope now idHash
    · exact hclosed row (hsame.symm.trans hrow)
    · cases hrow.symm.trans hnone
    · exact absurd (hid ▸ hlife.holder_issued holder hmem) hfresh
  | claim scope id now hclaim => exact h.claim hclaim hord
  | refuse => exact h.congr rfl rfl rfl fun _ hclosed => hclosed.update _ fun _ _ _ => rfl
  | bind => exact h.congr rfl rfl rfl fun _ hclosed => hclosed.update _ fun _ _ hrow => hrow
  | register hhol hph =>
    refine h.setPhase hhol (by simp [hph]) (by simp) (fun _ => .inl hph) ?_ ?_
    · intro _ hid
      simp [hid]
    · intro hmem _
      exact Finset.mem_insert_of_mem hmem
  | rejectForm hhol hph result now =>
    have h' := hmove .answered (by simp) hhol (by rw [hph]; rfl)
    exact h'.congr rfl rfl rfl fun _ hclosed => hclosed.finish (by simp) result now
  | mark hhol hph =>
    have h' := hmove (.committing .entered) (by simp) hhol (by rw [hph]; rfl)
    exact h'.congr rfl rfl rfl fun _ hclosed => hclosed.update _ fun _ _ _ => rfl
  | markFails hhol hph =>
    have h' := hmove .answered (by simp) hhol (by rw [hph]; rfl)
    exact h'.congr rfl rfl rfl fun _ hclosed => hclosed.update _ fun _ _ _ => rfl
  | charge hhol hph hcommit =>
    have h' := hmove (.committing .charged) (by simp) hhol (by rw [hph]; rfl)
    exact h'.congr rfl rfl rfl fun _ hclosed => hclosed.charge hcommit
  | chargeFails _ _ hcommit => exact h.congr rfl rfl rfl fun _ hclosed => hclosed.charge hcommit
  | @finalize _ _ _ _ _ state hhol hph =>
    have h' := hmove (.committing (.returned state)) (by simp) hhol (by rw [hph]; rfl)
    exact h'.congr rfl rfl rfl fun _ hclosed => hclosed
  | finish hhol hph result now =>
    have h' := hmove .answered (by simp) hhol (by rw [hph]; rfl)
    refine h'.congr rfl rfl rfl fun _ hclosed => hclosed.finish ?_ result now
    rintro hid rfl
    exact hord _ hhol hid.symm hph
  | giveUp hhol hliv => exact hmove .answered (by simp) hhol hliv
  | drop hhol hliv =>
    refine h.setPhase hhol (ne_released_of_guardLives hliv) (by simp) (by simp [guardLives])
      (by simp [guardLives]) ?_
    intro hmem hne
    exact Finset.mem_erase.mpr ⟨hne.symm, hmem⟩
  | release hhol hph =>
    have h' : ClaimInv idHash (σ.setPhase _ .released) := h.setPhase hhol (by simp [hph])
      (by simp) (by simp [guardLives]) (by simp [guardLives]) fun hmem _ => hmem
    refine h'.congr rfl rfl rfl fun hclaimed hclosed => ?_
    obtain ⟨other, hmem, hid, hne⟩ := hclaimed
    -- the one claim of the operation that is on its way is not this one
    obtain ⟨j, h₀, hh₀, hid₀, -, ⟨-, -, hnew⟩ | ⟨hij, rfl⟩⟩ := mem_setPhase hhol hmem
    · exact absurd hnew hne
    · refine hclosed.congr (find?_updateUploadOperation_of_ne fun heq => hij ?_)
      exact h.one _ j _ other hhol hh₀ heq.symm hid (by simp [hph]) hne
  | copyRegistrations =>
    refine { h with copies := fun holder hmem hid hliv copy hcopy => ?_ }
    obtain hcopy | hcopy := List.mem_append.mp hcopy
    · exact h.copies holder hmem hid hliv copy hcopy
    · cases List.mem_singleton.mp hcopy
      exact h.active holder hmem hid (hliv.resolve_left (hord holder hmem hid))
  | recover hcopy now =>
    refine { h with
      copies := fun holder hmem hid hliv copy hcopy => ?_, closed := fun hclaim => ?_ }
    · refine (h.closed hclaim).congr ?_
      simp [find?_recoverUploadOperations, h.mem_copy hord hcopy hclaim]
    · exact h.copies holder hmem hid hliv copy (List.mem_of_mem_eraseIdx hcopy)
  | crash | finalizeCrash => exact .of_holders_eq_nil rfl
  | otherTables => exact h.congr rfl rfl rfl fun _ hclosed => hclosed

/-- While a guard of the operation lives, releases and recovery leave its row alone. -/
theorem ClaimInv.row_kept (h : ClaimInv idHash σ) {i : ℕ} (hliv : σ.GuardLives i idHash)
    {event : UploadEvent}
    (hev : (∃ j, event = .release j) ∨ ∃ j now, event = .recover j now) :
    (σ.perform rng event).row? idHash = σ.row? idHash := by
  obtain ⟨holder, hhol, hid, hguard⟩ := hliv
  have hmem := List.mem_of_getElem? hhol
  have hacts := σ.acts rng event
  generalize σ.perform rng event = σ' at hacts ⊢
  cases hacts with
  | skip | finalize | finalizeCrash => rfl
  | release hoth hph =>
    rename_i j other
    have hne : idHash ≠ other.idHash := by
      intro heq
      have hij := h.one i j holder other hhol hoth hid heq.symm
        (ne_released_of_guardLives hguard) (by simp [hph])
      subst hij
      cases hhol.symm.trans hoth
      simp [hph, guardLives] at hguard
    exact find?_updateUploadOperation_of_ne hne
  | recover hcopy now =>
    have hin := h.copies holder hmem hid (.inr hguard) _ (List.mem_of_getElem? hcopy)
    simp only [row?, find?_recoverUploadOperations, hin, not_true_eq_false, false_and,
      if_false, Option.map_id']
  | _ => simp at hev

/-- In every state of a run with orderly steps at most one guard of the operation lives, and
while it lives neither a release nor recovery touches the row. -/
theorem upload_claims_exclude_each_other (hrng : Function.Injective rng) (s : Store)
    (events : List UploadEvent)
    (horderly : History.Throughout (perform rng) (Orderly idHash) (initial s) events) :
    let σ := (initial s).run rng events
    (∀ i j, σ.GuardLives i idHash → σ.GuardLives j idHash → i = j) ∧
    ∀ i, σ.GuardLives i idHash → ∀ event,
      (∃ j, event = .release j) ∨ (∃ j now, event = .recover j now) →
        (σ.perform rng event).row? idHash = σ.row? idHash := by
  intro σ
  have hinv : LifecycleInv rng σ ∧ ClaimInv idHash σ := by
    refine horderly.invariant (P := fun σ => LifecycleInv rng σ ∧ ClaimInv idHash σ) ?_
      ⟨.initial rng s, .of_holders_eq_nil rfl⟩
    exact fun σ event hord h => ⟨h.1.perform hrng event, h.2.perform h.1 hrng hord⟩
  obtain ⟨-, h⟩ := hinv
  refine ⟨?_, fun i hliv event hev => h.row_kept hliv hev⟩
  rintro i j ⟨first, hi, hidi, hguardi⟩ ⟨second, hj, hidj, hguardj⟩
  exact h.one i j first second hi hj hidi hidj (ne_released_of_guardLives hguardi)
    (ne_released_of_guardLives hguardj)

/-- The upload is retried after its release; recovery then runs beside the second claim. -/
def retryAfterRelease : List UploadEvent :=
  [.create (.admin 1) 0, .claim (.admin 1) (unaryIds 0) 1, .register 0, .drop 0, .release 0,
    .claim (.admin 1) (unaryIds 0) 1, .register 1, .copyRegistrations]

theorem upload_claims_exclude_each_other_retry :
    let σ := (initial .empty).run unaryIds retryAfterRelease
    σ.GuardLives 1 (unaryIds 0) ∧
    (σ.perform unaryIds (.recover 0 2)).row? (unaryIds 0) = σ.row? (unaryIds 0) := by
  intro σ
  have hliv : σ.GuardLives 1 (unaryIds 0) :=
    ⟨⟨unaryIds 0, .admin 1, .working⟩, by decide, rfl, rfl⟩
  have h := @upload_claims_exclude_each_other unaryIds (unaryIds 0) unaryIds_injective .empty
    retryAfterRelease (by decide)
  exact ⟨hliv, h.2 1 hliv _ (.inr ⟨0, 2, rfl⟩)⟩

end Exclusion

end VaultLink
