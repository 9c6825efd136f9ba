import VaultLink.AuthServer

/-!
# Administrators keep their access

Once an administrator exists, no order of account operations locks everybody out: some
administrator stays active, and each administrator keeps a second factor, either TOTP or at
least two security keys. The operations that take a factor away guard it by different
counts, so the two halves are one invariant: a deletion confirmed by TOTP only refuses to
leave exactly one of two keys, and is safe because an administrator with TOTP disabled has
two keys already.
-/
namespace VaultLink

open AuthStore
open KeyedTable

/-- Somebody can log in, and nobody is left with a password alone or a single key. -/
structure AuthStore.Accessible (s : AuthStore) : Prop where
  active : ∃ admin ∈ s.admins, admin.active
  factors : ∀ admin ∈ s.admins, admin.totpEnabled ∨ 2 ≤ s.keyCount admin.id

theorem AuthStore.mem_updateAdmin {s : AuthStore} {id : ℕ} {f : Admin → Admin}
    {hf : ∀ admin, (f admin).id = admin.id} {admin' : Admin} :
    admin' ∈ (s.updateAdmin id f hf).admins ↔
      ∃ admin ∈ s.admins, (if admin.id = id then f admin else admin) = admin' := by
  simpa [updateAdmin] using mem_updateWhere (t := s.admins) (p := fun admin => admin.id = id) hf

section Keys

variable {s s' : AuthStore} {id adminId : ℕ}

/-- Deleting the keys of one administrator leaves those of another. -/
theorem keyCount_deleteWhere_of_ne (s : AuthStore) (p : WebauthnCredential → Bool) {other : ℕ}
    (hp : ∀ row ∈ s.credentials, p row = true → row.adminId ≠ other) :
    (s.credentials.deleteWhere p).count (fun row => row.adminId = other) = s.keyCount other := by
  rw [count, deleteWhere, List.countP_filter]
  refine List.countP_congr fun row hrow => ?_
  have := hp row hrow
  by_cases hoth : row.adminId = other
  · simp_all
  · simp [hoth]

theorem keyCount_deleteCredential_of_ne {other : ℕ} (hoth : other ≠ adminId) :
    (deleteCredential id adminId s).keyCount other = s.keyCount other :=
  keyCount_deleteWhere_of_ne s _ fun row _ hrow hadm => by simp_all

/-- A deletion removes at most one key, since ids are unique. -/
theorem keyCount_le_deleteCredential_succ (s : AuthStore) (id adminId other : ℕ) :
    s.keyCount other ≤ (deleteCredential id adminId s).keyCount other + 1 := by
  by_cases hfound : ∃ row ∈ s.credentials, row.id = id
  · obtain ⟨row, hrow, rfl⟩ := hfound
    have hsplit := count_split_key hrow fun row => decide (row.adminId = other)
    have hkept : s.credentials.count (fun row' => decide (row'.adminId = other) &&
        decide (row'.id ≠ row.id)) ≤ (deleteCredential row.id adminId s).keyCount other := by
      rw [keyCount, deleteCredential, count, count,
        deleteWhere, List.countP_filter]
      refine List.countP_mono_left fun row' _ h => ?_
      simp_all
    have hone : (if decide (row.adminId = other) = true then 1 else 0) ≤ 1 := by split <;> omega
    rw [keyCount, hsplit]
    omega
  · have hsame : (deleteCredential id adminId s).keyCount other = s.keyCount other :=
      keyCount_deleteWhere_of_ne s _ fun row hrow h => by
        exact absurd ⟨row, hrow, by simp_all⟩ hfound
    omega

end Keys

variable {adminId : ℕ}

namespace AuthStore.Accessible

section Changes

variable {s s' : AuthStore} {id adminId step : ℕ}

variable (h : s.Accessible)

include h

/-- Whatever keeps the administrators and takes no key away keeps the access. -/
theorem of_admins (hadms : s'.admins = s.admins) (hkeys : ∀ id, s.keyCount id ≤ s'.keyCount id) :
    s'.Accessible where
  active := hadms ▸ h.active
  factors admin hadm := by
    rcases h.factors admin (hadms ▸ hadm) with htotp | htwo
    · exact .inl htotp
    · exact .inr (htwo.trans (hkeys admin.id))

theorem revoke (id : ℕ) : (revokeAdminAuthState id s).Accessible :=
  h.of_admins rfl fun _ => le_rfl

theorem cleanup (now : Instant) : (cleanupAdminMfaEnrollments now s).Accessible :=
  h.of_admins rfl fun _ => le_rfl

theorem consume (hcons : consumeAdminTotpStep adminId step s = some s') : s'.Accessible := by
  rw [(consumeAdminTotpStep_some hcons).2]
  exact h.of_admins rfl fun _ => le_rfl

/-- An update that deactivates nobody and disables no factor. -/
theorem updateAdmin (id : ℕ) {f : Admin → Admin} (hf : ∀ admin, (f admin).id = admin.id)
    (hacti : ∀ admin, admin.active → (f admin).active)
    (htotp : ∀ admin, admin.totpEnabled → (f admin).totpEnabled) :
    (s.updateAdmin id f hf).Accessible where
  active := by
    obtain ⟨admin, hadm, hact⟩ := h.active
    refine ⟨_, mem_updateAdmin.mpr ⟨admin, hadm, rfl⟩, ?_⟩
    split
    · exact hacti admin hact
    · exact hact
  factors admin' hadm' := by
    obtain ⟨admin, hadm, rfl⟩ := mem_updateAdmin.mp hadm'
    have hfactor := h.factors admin hadm
    split
    · rw [hf]
      exact hfactor.imp (htotp admin) fun htwo => htwo
    · exact hfactor

/-- The keys may go once TOTP is enabled again. -/
theorem replaceTotpSecret (id : ℕ) (totpSecret : String) :
    (replaceTotpSecret id totpSecret s).Accessible where
  active := (h.updateAdmin id (f := Admin.withTotpSecret totpSecret) (fun _ => rfl)
    (fun _ hact => hact) fun _ _ => rfl).active
  factors admin' hadm' := by
    have hupdated : admin' ∈ (s.updateAdmin id (Admin.withTotpSecret totpSecret)).admins := hadm'
    obtain ⟨admin, hadm, rfl⟩ := mem_updateAdmin.mp hupdated
    by_cases hid : admin.id = id
    · exact .inl (by simp [hid, Admin.withTotpSecret])
    · have hkeys : (VaultLink.replaceTotpSecret id totpSecret s).keyCount admin.id =
          s.keyCount admin.id :=
        keyCount_deleteWhere_of_ne s _ fun row _ hrow hadm => by simp_all
      simpa [hid, hkeys] using h.factors admin hadm

theorem installConfirmed (id : ℕ) (totpSecret : String) (step : ℕ) :
    (s.installConfirmed id totpSecret step).Accessible :=
  (h.updateAdmin id (f := Admin.withTotpSecret totpSecret) (fun _ => rfl) (fun _ hact => hact)
    fun _ _ => rfl).of_admins rfl fun _ => le_rfl

omit h

theorem insertAdmin {username passwordHash totpSecret : String}
    (hfactors : ∀ admin ∈ s.admins, admin.totpEnabled ∨ 2 ≤ s.keyCount admin.id)
    (hins : VaultLink.insertAdmin username passwordHash totpSecret s = .ok (s', id)) :
    s'.Accessible := by
  simp only [VaultLink.insertAdmin] at hins
  split_ifs at hins
  split at hins <;> cases hins
  rename_i admins hadms
  refine ⟨⟨_, (mem_insert? hadms).mpr (.inl rfl), rfl⟩, fun admin hadm => ?_⟩
  rcases (mem_insert? hadms).mp hadm with rfl | hold
  · exact .inl rfl
  · exact hfactors admin hold

theorem deleteCredential (h : s.Accessible) (id adminId : ℕ)
    (hspare : ∀ admin ∈ s.admins, admin.id = adminId →
      admin.totpEnabled ∨ 2 < s.keyCount adminId) :
    (deleteCredential id adminId s).Accessible where
  active := h.active
  factors admin hadm := by
    by_cases hid : admin.id = adminId
    · have hone := keyCount_le_deleteCredential_succ s id adminId adminId
      rw [hid]
      rcases hspare admin hadm hid with htotp | hthree
      · exact .inl htotp
      · exact .inr (by omega)
    · rw [keyCount_deleteCredential_of_ne hid]
      exact h.factors admin hadm

end Changes

variable {times : SessionTimes} {oldTokenHash newTokenHash : String}

section Operations

variable {s s' : AuthStore}

theorem recoverAdmin (h : s.Accessible) {username : String}
    {passwordHash totpSecret : Option String} {outcome : AdminRecoveryOutcome}
    (hrecover : recoverAdmin username passwordHash totpSecret s = .ok (s', outcome)) :
    s'.Accessible := by
  obtain ⟨rfl, -⟩ | ⟨admin, -, rfl, -⟩ := recoverAdmin_ok hrecover
  · exact h
  · have hpw := h.updateAdmin admin.id (f := fun admin =>
      { admin with passwordHash := passwordHash.getD admin.passwordHash }) (fun _ => rfl)
      (fun _ hact => hact) fun _ htotp => htotp
    cases totpSecret with
    | none => exact hpw.revoke admin.id
    | some totpSecret => exact (hpw.replaceTotpSecret admin.id totpSecret).revoke admin.id

theorem rotateSession (h : s.Accessible) {csrf : String}
    (hrot : rotateSession times oldTokenHash newTokenHash csrf s = .ok s') : s'.Accessible := by
  rw [VaultLink.rotateSession] at hrot
  split at hrot <;> cases hrot
  exact h.of_admins rfl fun _ => le_rfl

/-- A login with a security key rewrites the key and adds or removes none. -/
theorem completeWebauthnMfa (h : s.Accessible) {csrf : String} {credentialId : ℕ}
    {expectedBlob updatedBlob : List UInt8} {accepted : Bool}
    (hcomplete : completeWebauthnMfa times oldTokenHash newTokenHash csrf credentialId adminId
      expectedBlob updatedBlob s = .ok (s', accepted)) : s'.Accessible := by
  simp only [VaultLink.completeWebauthnMfa] at hcomplete
  split_ifs at hcomplete
  · cases hcomplete
    exact h
  split at hcomplete <;> cases hcomplete
  rename_i hrot
  refine rotateSession ?_ hrot
  refine h.of_admins rfl fun other => ge_of_eq ?_
  exact count_updateWhere_of_eq
    (f := fun row : WebauthnCredential => { row with credentialBlob := updatedBlob })
    (fun _ => rfl) fun _ _ _ => rfl

theorem verifyMfaWithTotpStep (h : s.Accessible) {csrf : String} {step : ℕ} {accepted : Bool}
    (hverify : verifyMfaWithTotpStep times oldTokenHash newTokenHash csrf adminId step s =
      .ok (s', accepted)) : s'.Accessible := by
  cases accepted with
  | false =>
    rw [verifyMfaWithTotpStep_rejected hverify]
    exact h
  | true =>
    obtain ⟨-, -, -, -, -, s₁, sessions, hcons, rfl⟩ := verifyMfaWithTotpStep_accepted hverify
    exact (h.consume hcons).of_admins rfl fun _ => le_rfl

end Operations

section Effects

variable {tokenHash totpSecret : String} {s : AuthStore} {effect : AccountEffect}

/-- With two keys the deletion with TOTP is refused. With more, two remain. With fewer, the
administrator has TOTP enabled. -/
theorem deleteSpare {id step : ℕ} {s₁ : AuthStore} (h : s.Accessible)
    (hcons : consumeAdminTotpStep adminId step s = some s₁) (hspare : s.keyCount adminId ≠ 2) :
    (VaultLink.deleteCredential id adminId s₁).Accessible := by
  have hconsumed := h.consume hcons
  obtain ⟨-, rfl⟩ := consumeAdminTotpStep_some hcons
  refine hconsumed.deleteCredential id adminId fun admin hadm hid => ?_
  rcases hconsumed.factors admin hadm with htotp | htwo
  · exact .inl htotp
  · subst hid
    exact .inr (lt_of_le_of_ne htwo hspare.symm)

/-- TOTP is only disabled with two keys registered. -/
theorem disableTotp {step : ℕ} {s₁ : AuthStore} (h : s.Accessible)
    (hcons : consumeAdminTotpStep adminId step s = some s₁) (hkeys : 2 ≤ s.keyCount adminId) :
    (s₁.setTotpEnabled adminId false).Accessible := by
  have hconsumed := h.consume hcons
  obtain ⟨-, rfl⟩ := consumeAdminTotpStep_some hcons
  obtain ⟨current, hcur, hact⟩ := hconsumed.active
  refine ⟨⟨_, mem_updateAdmin.mpr ⟨current, hcur, rfl⟩, ?_⟩, ?_⟩
  · split <;> exact hact
  · intro admin' hadm'
    obtain ⟨admin, hadm, rfl⟩ := mem_updateAdmin.mp hadm'
    split_ifs with hid
    · subst hid
      exact .inr hkeys
    · exact hconsumed.factors admin hadm

/-- Somebody else is active when an administrator is deactivated. -/
theorem deactivate {id : ℕ} (h : s.Accessible)
    (hoth : (s.admins.any fun other => other.active && other.id ≠ id) = true) :
    (s.updateAdmin id fun admin => { admin with active := false }).Accessible := by
  obtain ⟨other, hmem, hprops⟩ := any_iff.mp hoth
  obtain ⟨hact, hne⟩ : other.active = true ∧ other.id ≠ id := by simpa using hprops
  refine ⟨⟨_, mem_updateAdmin.mpr ⟨other, hmem, rfl⟩, by simpa [hne] using hact⟩, ?_⟩
  intro admin' hadm'
  obtain ⟨admin, hadm, rfl⟩ := mem_updateAdmin.mp hadm'
  have hfactor := h.factors admin hadm
  split <;> exact hfactor

theorem change {request : Request} (h : s.Accessible)
    (hchange : AccountChange tokenHash totpSecret request s effect) :
    effect.store.Accessible := by
  cases hchange with
  | nothing => exact h
  | cleaned now => exact h.cleanup now
  | password id =>
    refine revoke ?_ id
    exact h.updateAdmin id _ (fun _ hact => hact) fun _ htotp => htotp
  | secret id => exact (h.replaceTotpSecret id totpSecret).revoke id
  | started _ hcons =>
    exact ((h.cleanup _).consume hcons).of_admins rfl fun _ => le_rfl
  | confirmed now step => exact ((h.cleanup now).installConfirmed _ _ step).revoke _
  | keyDeletedWithTotp id _ hcons hspare => exact (h.deleteSpare hcons hspare).revoke _
  | keyDeleted id hspare => exact (h.deleteCredential id _ fun _ _ _ => .inr hspare).revoke _
  | totpEnabled => exact h.updateAdmin _ _ (fun _ hact => hact) fun _ _ => rfl
  | totpDisabled _ hcons hkeys => exact h.disableTotp hcons hkeys
  | revoked id => exact h.revoke id
  | deactivated id hoth => exact (h.deactivate hoth).revoke id
  | activated id => exact h.updateAdmin id _ (fun _ _ => rfl) fun _ htotp => htotp
  | created hins => exact insertAdmin h.factors hins
  | keyAdded hins =>
    refine h.of_admins rfl fun other => ?_
    simp only [AccountEffect.plain, keyCount, count_insert? hins]
    omega

end Effects

end AuthStore.Accessible

section Runs

variable (rng : Entropy) {σ : AuthServer}

theorem AuthStore.Accessible.commitResult (h : σ.store.Accessible)
    {result : Except DbError AccountEffect}
    (hres : ∀ effect, result = .ok effect → effect.store.Accessible) :
    (σ.commitResult result).store.Accessible := by
  cases result with
  | error => exact h
  | ok effect => exact hres effect rfl

/-- One event of one request, whatever the others have in flight. -/
theorem AuthStore.Accessible.perform (h : σ.store.Accessible) (event : AuthEvent) :
    (σ.perform rng event).store.Accessible := by
  cases event with simp only [AuthServer.perform]
  | createInitialAdmin =>
    refine h.commitResult fun effect heff => ?_
    obtain rfl | ⟨s₁, id, hins, rfl⟩ := createInitialAdminEffect_cases heff
    · exact h
    · exact insertAdmin h.factors hins
  | recoverAdmin username passwordHash resetMfa =>
    refine h.commitResult fun effect heff => ?_
    rw [recoverAdminEffect] at heff
    cases hrecover : VaultLink.recoverAdmin username passwordHash
        (if resetMfa then some (σ.nextSecret rng) else none) σ.store with
    | error e => simp [hrecover, Except.map] at heff
    | ok recovered =>
      obtain ⟨s', outcome⟩ := recovered
      simp only [hrecover, Except.map] at heff
      have hop := h.recoverAdmin hrecover
      cases outcome <;> cases heff <;> exact hop
  | login adminId verifiedHash csrf expires clock =>
    split
    · exact h
    all_goals
      rename_i hcreate
      obtain ⟨⟨sessions, rfl⟩, -, -⟩ := createSessionForVerifiedPassword_ok hcreate
      exact h.of_admins rfl fun _ => le_rfl
  | present =>
    split <;> exact h
  | touch | expire | logout => exact h.of_admins rfl fun _ => le_rfl
  | loadAdmin => exact h
  | loadEnrollment i tokenHash now =>
    split
    · exact h
    · exact h.cleanup now
  | submitTotp =>
    split
    · exact h
    split
    · exact h
    split
    · exact h.verifyMfaWithTotpStep (by assumption)
    · exact h.verifyMfaWithTotpStep (by assumption)
    · exact h
  | submitWebauthn =>
    split
    · exact h
    split
    · exact h.completeWebauthnMfa (by assumption)
    · exact h.completeWebauthnMfa (by assumption)
    · exact h
  | fenced i op clock =>
    split
    · exact h
    split
    · exact h
    split
    · exact h
    rename_i closure hclos
    split_ifs
    · exact h.commitResult fun effect heff =>
        h.change (FencedOp.closure_change hclos heff)
    · exact h

/-- The initial administrator is created in a table without administrators. -/
theorem AuthStore.Accessible.ofCreated {username passwordHash totpSecret : String}
    {s s' : AuthStore} {id : ℕ}
    (hcreated : createInitialAdmin username passwordHash totpSecret s = .ok (s', some id)) :
    s'.Accessible := by
  rw [createInitialAdmin] at hcreated
  split_ifs at hcreated with hany
  · cases hcreated
  cases hins : VaultLink.insertAdmin username passwordHash totpSecret s with
  | error => simp [hins, Except.map] at hcreated
  | ok inserted =>
    obtain ⟨s₁, id₁⟩ := inserted
    simp only [hins, Except.map] at hcreated
    cases hcreated
    exact insertAdmin (fun admin hadm => absurd (by simpa using ⟨admin, hadm⟩) hany) hins

/-- Once the initial administrator has been created, every state that interleaved requests and
recoveries reach has an active administrator, and every administrator has TOTP enabled or at
least two security keys. -/
theorem administrators_keep_access {username passwordHash : String} {s : AuthStore} {id : ℕ}
    (hcreated : createInitialAdmin username passwordHash (σ.nextSecret rng) σ.store =
      .ok (s, some id)) (events : List AuthEvent) :
    let reached := (σ.step rng (.createInitialAdmin username passwordHash)).run rng events
    (∃ admin ∈ reached.store.admins, admin.active) ∧
      ∀ admin ∈ reached.store.admins,
        admin.totpEnabled ∨ 2 ≤ reached.store.keyCount admin.id := by
  intro reached
  have hfirst : (σ.step rng (.createInitialAdmin username passwordHash)).store.Accessible := by
    simp only [AuthServer.step, AuthServer.perform, createInitialAdminEffect, hcreated, Except.map]
    exact .ofCreated hcreated
  have hreached : reached.store.Accessible :=
    AuthServer.run_invariant rng (P := fun σ => σ.store.Accessible) hfirst
      (fun _ event h => h.perform rng event) events
  exact ⟨hreached.active, hreached.factors⟩

/-- The administrator registers two keys, disables TOTP, and then tries to delete a key and to
deactivate the account. -/
def keysOnlyRun : List AuthEvent :=
  let clock : ClockReading := ⟨0, 30⟩
  [.login 1 "hash" "csrf" 100 clock, .present "t" clock, .loadAdmin 0,
    .submitTotp 0 5 "csrf" clock, .present "tttt" clock, .loadAdmin 1,
    .fenced 1 (.addKey "first" "k1" [1]) clock, .fenced 1 (.addKey "second" "k2" [2]) clock,
    .fenced 1 (.setTotpEnabled false (some 6)) clock, .loadAdmin 1,
    .fenced 1 (.deleteKeyWithoutTotp 1) clock, .fenced 1 (.deactivate 1) clock]

theorem administrators_keep_access_keysOnly :
    let reached := (AuthServer.initial.step unaryEntropy
      (.createInitialAdmin "root" "hash")).run unaryEntropy keysOnlyRun
    reached.store.admins.rows.map (fun admin => (admin.active, admin.totpEnabled)) =
      [(true, false)] ∧
    (∃ admin ∈ reached.store.admins, admin.active) ∧
      ∀ admin ∈ reached.store.admins,
        admin.totpEnabled ∨ 2 ≤ reached.store.keyCount admin.id := by
  have hcreated : createInitialAdmin "root" "hash" (AuthServer.initial.nextSecret unaryEntropy)
      AuthServer.initial.store = .ok ({ empty with
        admins := ⟨[⟨1, "root", "hash", "", 1, true, true⟩], by decide⟩ }, some 1) := by rfl
  exact ⟨by decide +kernel, administrators_keep_access unaryEntropy hcreated keysOnlyRun⟩

end Runs

end VaultLink
