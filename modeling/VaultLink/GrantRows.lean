import VaultLink.TransferAccess

/-!
# Grants under lease transactions

What a lease transaction may do to the grants. A begin keeps them or adds an uncounted one, a
cancellation keeps them, and a completion or heartbeat keeps them or counts exactly one: the
share's counter, the monthly total and the audit log then move together with the grant. A grant
is kept here if it is deleted or only its expiry moves.
-/
namespace VaultLink

open KeyedTable

section Statements

/-- The same grant, up to its expiry. -/
def Grant.SameAs (grant grant' : Grant) : Prop :=
  grant'.id = grant.id ∧ grant'.shareId = grant.shareId ∧ grant'.action = grant.action ∧
    grant'.counted = grant.counted

theorem Grant.SameAs.refl (grant : Grant) : grant.SameAs grant := ⟨rfl, rfl, rfl, rfl⟩

theorem Grant.SameAs.trans {grant grant' grant'' : Grant} (h : grant.SameAs grant')
    (h' : grant'.SameAs grant'') : grant.SameAs grant'' :=
  ⟨h'.1.trans h.1, h'.2.1.trans h.2.1, h'.2.2.1.trans h.2.2.1, h'.2.2.2.trans h.2.2.2⟩

/-- Every grant of `s'` is one of `s`, and nothing was counted. -/
structure KeepsGrants (s s' : Store) : Prop where
  grants : ∀ grant' ∈ s'.grants, ∃ grant ∈ s.grants, grant.SameAs grant'
  shares_eq : s'.shares = s.shares
  monthlyCounts_eq : s'.monthlyCounts = s.monthlyCounts
  audit_eq : s'.audit = s.audit

namespace KeepsGrants

variable {s s' s'' : Store}

theorem of_eq (hgrants : s'.grants = s.grants) (hshares : s'.shares = s.shares)
    (hmon : s'.monthlyCounts = s.monthlyCounts) (haudit : s'.audit = s.audit) :
    KeepsGrants s s' :=
  ⟨fun grant hgr => ⟨grant, hgrants ▸ hgr, .refl grant⟩, hshares, hmon, haudit⟩

theorem refl (s : Store) : KeepsGrants s s := of_eq rfl rfl rfl rfl

theorem trans (h : KeepsGrants s s') (h' : KeepsGrants s' s'') : KeepsGrants s s'' := by
  refine ⟨?_, h'.shares_eq.trans h.shares_eq, h'.monthlyCounts_eq.trans h.monthlyCounts_eq,
    h'.audit_eq.trans h.audit_eq⟩
  intro grant'' hgr''
  obtain ⟨grant', hgr', hsame'⟩ := h'.grants grant'' hgr''
  obtain ⟨grant, hgr, hsame⟩ := h.grants grant' hgr'
  exact ⟨grant, hgr, hsame.trans hsame'⟩

theorem deleteGrantsWhere (p : Grant → Bool) (s : Store) :
    KeepsGrants s (VaultLink.deleteGrantsWhere p s) :=
  ⟨fun grant hgr => ⟨grant, (mem_deleteWhere.mp hgr).1, .refl grant⟩,
    rfl, rfl, rfl⟩

theorem cleanup (now : Instant) (s : Store) : KeepsGrants s (cleanupTransferState now s) := by
  refine KeepsGrants.trans (KeepsGrants.trans ?_ (deleteGrantsWhere _ _)) (deleteGrantsWhere _ _)
  exact of_eq rfl rfl rfl rfl

theorem cleanupBeforeHeartbeat (now : Instant) (token : String) (s : Store) :
    KeepsGrants s (cleanupTransferStateBeforeHeartbeat now token s) := by
  refine KeepsGrants.trans (KeepsGrants.trans ?_ (deleteGrantsWhere _ _)) (deleteGrantsWhere _ _)
  exact of_eq rfl rfl rfl rfl

theorem setGrantExpiry (grantId : ℕ) (expires : Instant) (s : Store) :
    KeepsGrants s (VaultLink.setGrantExpiry grantId expires s) := by
  refine ⟨fun grant' hgr' => ?_, rfl, rfl, rfl⟩
  obtain ⟨grant, hgr, rfl⟩ := (mem_updateWhere).mp hgr'
  refine ⟨grant, hgr, ?_⟩
  split <;> exact .refl grant

theorem deleteLease (token : String) (s : Store) : KeepsGrants s (VaultLink.deleteLease token s) :=
  of_eq rfl rfl rfl rfl

theorem renewLease (token : String) (now expires : Instant) (s : Store) :
    KeepsGrants s (VaultLink.renewLease token now expires s) :=
  of_eq rfl rfl rfl rfl

theorem insertLease {token : String} {grantId : ℕ} {now : Instant}
    (h : VaultLink.insertLease token grantId now s = .ok s') : KeepsGrants s s' := by
  obtain ⟨-, leases, -, rfl⟩ := insertLease_inserts h
  exact of_eq rfl rfl rfl rfl

end KeepsGrants

end Statements

section Inserting

/-- `s'` has one grant more than `s` kept, uncounted and under an id of its own. -/
structure InsertsGrant (s s' : Store) (grant : Grant) : Prop where
  grants : ∀ grant' ∈ s'.grants,
    grant' = grant ∨ grant'.id ≠ grant.id ∧ ∃ old ∈ s.grants, old.SameAs grant'
  uncounted : grant.counted = false
  share : ∃ share ∈ s.shares, share.id = grant.shareId
  shares_eq : s'.shares = s.shares
  monthlyCounts_eq : s'.monthlyCounts = s.monthlyCounts
  audit_eq : s'.audit = s.audit

variable {now : Instant} {key : TransferKey} {unlockToken : Option String} {token : String}
  {s s' : Store}

theorem insertGrant_inserts {grantId : ℕ} (h : insertGrant key now s = .ok (s', grantId)) :
    InsertsGrant s s' (newGrant key now s) := by
  obtain ⟨hsh, -, grants, hins, rfl⟩ := insertGrant_row h
  refine ⟨?_, rfl, hsh, rfl, rfl, rfl⟩
  intro grant' hgr'
  rcases (mem_insert? hins).mp hgr' with hnew | hold
  · exact Or.inl hnew
  · exact Or.inr ⟨(insert?_some hins).2 grant' hold, grant', hold, .refl grant'⟩

/-- A grant inserted between statements that keep grants. -/
theorem InsertsGrant.between {s₁ s₂ : Store} {grant : Grant} (hbef : KeepsGrants s s₁)
    (h : InsertsGrant s₁ s₂ grant) (hgrants : s'.grants = s₂.grants)
    (haft : KeepsGrants s₂ s') : InsertsGrant s s' grant where
  grants := by
    intro grant' hgr'
    rw [hgrants] at hgr'
    refine (h.grants grant' hgr').imp_right fun ⟨hid, old, hold, hsame⟩ => ⟨hid, ?_⟩
    obtain ⟨first, hfirst, hsame'⟩ := hbef.grants old hold
    exact ⟨first, hfirst, hsame'.trans hsame⟩
  uncounted := h.uncounted
  share := hbef.shares_eq ▸ h.share
  shares_eq := haft.shares_eq.trans (h.shares_eq.trans hbef.shares_eq)
  monthlyCounts_eq :=
    haft.monthlyCounts_eq.trans (h.monthlyCounts_eq.trans hbef.monthlyCounts_eq)
  audit_eq := haft.audit_eq.trans (h.audit_eq.trans hbef.audit_eq)

/-- A begin inserts a grant exactly when the transfer is available to the client. -/
theorem begin_grants {outcome : TransferLeaseBeginOutcome}
    (h : beginAuthorizedTransferLease now key unlockToken token s = .ok (s', outcome)) :
    transferAccessState key unlockToken now s ≠ .available ∧ KeepsGrants s s' ∨
    transferAccessState key unlockToken now s = .available ∧ ∃ grant, InsertsGrant s s' grant ∧
      grant.id = nextRowid ((cleanupTransferState now s).grants.rows.map Grant.id) := by
  have hclean := KeepsGrants.cleanup now s
  have hbegins := beginsLease h
  rw [← transferAccessState_cleanup]
  cases hbegins with
  | unauthorized hacc => exact Or.inl ⟨by simp [hacc], .refl s⟩
  | counted hacc hlease => exact Or.inl ⟨by simp [hacc], hclean.trans (.insertLease hlease)⟩
  | joined hacc hlease =>
    refine Or.inl ⟨by simp [hacc], hclean.trans (KeepsGrants.trans ?_ (.insertLease hlease))⟩
    exact .setGrantExpiry _ _ _
  | limitReached hacc | shareUnavailable hacc => exact Or.inl ⟨by simp [hacc], hclean⟩
  | granted hacc hgr hlease =>
    refine Or.inr ⟨hacc, newGrant key now (cleanupTransferState now s), ?_, rfl⟩
    refine InsertsGrant.between hclean (insertGrant_inserts hgr) ?_ (.insertLease hlease)
    obtain ⟨-, leases, -, rfl⟩ := insertLease_inserts hlease
    rfl

end Inserting

section Counting

/-- The audit rows of finished transfers. -/
def AuditRow.isTransfer (row : AuditRow) : Bool :=
  row.action = .download || row.action = .zipDownload || row.action = .preview

/-- One grant was counted, with its share, its month and its audit row. -/
structure CountsGrant (now : Instant) (s s' : Store) (grant : Grant) : Prop where
  mem : ∃ old ∈ s.grants, old.SameAs grant
  uncounted : grant.counted = false
  stays : ∃ grant' ∈ s'.grants, grant'.id = grant.id
  grants : ∀ grant' ∈ s'.grants, ∃ old ∈ s.grants, grant'.id = old.id ∧
    grant'.shareId = old.shareId ∧ grant'.action = old.action ∧
    grant'.counted = (old.counted || grant'.id = grant.id)
  stored : ∃ share ∈ s.shares, share.id = grant.shareId
  shares_eq : s'.shares = (incrementDownloadCount grant.shareId s).shares
  monthlyCounts_eq : s'.monthlyCounts =
    (incrementTransferMonthlyCount (utcMonth now) grant.action s).monthlyCounts
  audit_eq : ∃ action row, requiredTransferAuditAction grant.action = .ok action ∧
    row.action = action ∧ s'.audit = s.audit ++ [row]

variable {now : Instant} {grant : Grant} {token : String} {s s' : Store}

/-- A grant counted between statements that keep grants. -/
theorem CountsGrant.of_countGrant {s₁ s₂ : Store} {action : AuditAction} {row : AuditRow}
    (hbef : KeepsGrants s s₁) (hgr : grant ∈ s₁.grants) (hcounted : grant.counted = false)
    (hcount : countGrant now grant s₁ = .ok s₂)
    (hactn : requiredTransferAuditAction grant.action = .ok action) (hrow : row.action = action)
    (hkept : ∀ grant' ∈ s'.grants, grant' ∈ s₂.grants)
    (hstays : ∀ grant' ∈ s₂.grants, grant'.counted = true → now < grant'.expiresAt →
      grant' ∈ s'.grants)
    (hshares : s'.shares = s₂.shares) (hmon : s'.monthlyCounts = s₂.monthlyCounts)
    (haudit : s'.audit = s₂.audit ++ [row]) : CountsGrant now s s' grant := by
  obtain ⟨hsh, rfl⟩ := countGrant_ok hcount
  refine
    { mem := hbef.grants grant hgr
      uncounted := hcounted
      stays := ?_
      grants := ?_
      stored := hbef.shares_eq ▸ hsh
      shares_eq := ?_
      monthlyCounts_eq := ?_
      audit_eq := ⟨action, row, hactn, hrow, by rw [haudit, ← hbef.audit_eq]⟩ }
  · refine ⟨{ grant with counted := true, expiresAt := now + transferSessionTtl },
      hstays _ ?_ rfl ?_, rfl⟩
    · exact (mem_updateWhere).mpr ⟨grant, hgr, by simp [hcounted]⟩
    · simp [transferSessionTtl, seconds]
  · intro grant' hgr'
    obtain ⟨old, hold, rfl⟩ :=
      (mem_updateWhere).mp (hkept grant' hgr')
    obtain ⟨first, hfirst, hid, hshId, hact, hsame⟩ := hbef.grants old hold
    refine ⟨first, hfirst, ?_⟩
    by_cases hthis : old.id = grant.id
    · have hone : old = grant := s₁.grants.eq_of_key_eq hold hgr hthis
      subst hone
      simp [hcounted, hid, hshId, hact]
    · rw [if_neg (by simp [hthis])]
      exact ⟨hid, hshId, hact, by simp [hsame, hthis]⟩
  · rw [hshares]
    unfold incrementDownloadCount
    rw [hbef.shares_eq]
  · rw [hmon]
    exact incrementTransferMonthlyCount_congr hbef.monthlyCounts_eq _ _

theorem complete_grants {outcome : TransferLeaseCompleteOutcome}
    (h : completeTransferLeaseAndAudit now token s = .ok (s', outcome)) :
    outcome ≠ .counted ∧ KeepsGrants s s' ∨
      outcome = .counted ∧ ∃ grant, CountsGrant now s s' grant := by
  have hclean := KeepsGrants.cleanup now s
  cases completesLease h with
  | notFound => exact Or.inl ⟨by nofun, hclean⟩
  | alreadyCounted => exact Or.inl ⟨by nofun, hclean.trans (.deleteLease _ _)⟩
  | counted hfound hcounted hcount hactn =>
    exact Or.inr ⟨rfl, _, CountsGrant.of_countGrant hclean (leaseGrant_stored hfound).2.2.1
      hcounted hcount hactn rfl (fun _ h => h) (fun _ h _ _ => h) rfl rfl rfl⟩

theorem cancel_grants {outcome : TransferLeaseCancelOutcome}
    (h : cancelTransferLease now token s = .ok (s', outcome)) : KeepsGrants s s' := by
  have hclean := KeepsGrants.cleanup now s
  have hdeld := hclean.trans (.deleteLease token _)
  cases cancelsLease h with
  | notFound => exact hclean
  | kept => exact hdeld
  | released => exact hdeld.trans (.deleteGrantsWhere _ _)

theorem heartbeat_grants {outcome : TransferLeaseHeartbeatOutcome}
    (h : heartbeatTransferLeaseAndAudit now token s = .ok (s', outcome)) :
    outcome ≠ .cappedAndCounted ∧ KeepsGrants s s' ∨
      outcome = .cappedAndCounted ∧ ∃ grant, CountsGrant now s s' grant := by
  have hclean := KeepsGrants.cleanupBeforeHeartbeat now token s
  cases beatsLease h with
  | notFound => exact Or.inl ⟨by nofun, hclean.trans (.cleanup _ _)⟩
  | cappedAlreadyCounted =>
    exact Or.inl ⟨by nofun, (hclean.trans (.deleteLease _ _)).trans (.cleanup _ _)⟩
  | cappedAndCounted hfound _ hcounted hcount hactn =>
    refine Or.inr ⟨rfl, _, CountsGrant.of_countGrant hclean (leaseGrant_stored hfound).2.2.1
      hcounted hcount hactn rfl ?_ ?_ rfl rfl rfl⟩
    · intro grant' hgr'
      exact (mem_cleanup_grants.mp hgr').1
    · intro grant' hgr' hcounted' hlive
      exact mem_cleanup_grants.mpr ⟨hgr', hlive, Or.inl hcounted'⟩
  | extended => exact Or.inl ⟨by nofun, hclean.trans (.renewLease _ _ _ _)⟩
  | prolonged =>
    exact Or.inl ⟨by nofun, (hclean.trans (.renewLease _ _ _ _)).trans (.setGrantExpiry _ _ _)⟩

end Counting

end VaultLink
