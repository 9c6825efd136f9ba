import VaultLink.GrantRows
import VaultLink.ShareRows

/-!
# Completing a lease before it expires

A lease lives and dies with its grant. For an uncounted grant every begin and heartbeat moves
the grant's expiry along, so the grant outlives its leases. Once the grant is counted its expiry
stays where the count has put it, while a begin or heartbeat still hands out later lease
expiries: the next cleanup may then take a live lease away with its expired grant, and its
completion finds nothing. A run in which no cleanup meets such a grant completes every lease
that was begun, in any interleaving of sessions and with completions and heartbeats that work
with the clock reading of their arrival.
-/
namespace VaultLink

open History
open KeyedTable

variable {grantId : ℕ} {expires now : Instant} {key : TransferKey} {grant : Grant} {lease : Lease}

section Invariant

/-- What holds of leases and grants at a clock reading that no earlier reading exceeds. -/
structure LeaseInv (clock : Instant) (s : Store) : Prop where
  grant_of : ∀ lease ∈ s.leases, ∃ grant ∈ s.grants, grant.id = lease.grantId
  outlives : ∀ lease ∈ s.leases, ∀ grant ∈ s.grants, grant.id = lease.grantId →
    grant.counted = false → lease.expiresAt ≤ grant.expiresAt
  bounded : ∀ lease ∈ s.leases, lease.expiresAt ≤ clock + transferSessionTtl
  capped : ∀ lease ∈ s.leases, lease.expiresAt ≤ lease.createdAt + transferLeaseMaxLifetime
  share_of : ∀ grant ∈ s.grants, ∃ share ∈ s.shares, share.id = grant.shareId
  audited : ∀ grant ∈ s.grants, ∃ action, requiredTransferAuditAction grant.action = .ok action

namespace LeaseInv

variable {clock : Instant} {s s' : Store}

theorem empty (clock : Instant) : LeaseInv clock .empty := by
  constructor <;> simp [Store.empty]

variable (h : LeaseInv clock s)

include h

theorem mono {later : Instant} (hle : clock ≤ later) : LeaseInv later s :=
  { h with
    bounded := fun lease hlease => (h.bounded lease hlease).trans (Int.add_le_add_right hle _) }

/-- Rows may go as long as no lease loses its grant and no grant its share. -/
theorem shrink (hleases : ∀ lease ∈ s'.leases, lease ∈ s.leases)
    (hgrants : ∀ grant ∈ s'.grants, grant ∈ s.grants)
    (hkept : ∀ lease ∈ s'.leases, ∀ grant ∈ s.grants, grant.id = lease.grantId →
      grant ∈ s'.grants)
    (hshares : ∀ grant ∈ s'.grants, ∀ share ∈ s.shares, share.id = grant.shareId →
      ∃ share' ∈ s'.shares, share'.id = grant.shareId) : LeaseInv clock s' where
  grant_of := by
    intro lease hlease
    obtain ⟨grant, hgr, hid⟩ := h.grant_of lease (hleases lease hlease)
    exact ⟨grant, hkept lease hlease grant hgr hid, hid⟩
  outlives := fun lease hlease grant hgr =>
    h.outlives lease (hleases lease hlease) grant (hgrants grant hgr)
  bounded := fun lease hlease => h.bounded lease (hleases lease hlease)
  capped := fun lease hlease => h.capped lease (hleases lease hlease)
  share_of := by
    intro grant hgr
    obtain ⟨share, hsh, hid⟩ := h.share_of grant (hgrants grant hgr)
    exact hshares grant hgr share hsh hid
  audited := fun grant hgr => h.audited grant (hgrants grant hgr)

theorem of_eq (hleases : s'.leases = s.leases) (hgrants : s'.grants = s.grants)
    (hshares : s'.shares = s.shares) : LeaseInv clock s' :=
  h.shrink (fun _ hlease => hleases ▸ hlease) (fun _ hgr => hgrants ▸ hgr)
    (fun _ _ _ hgr _ => hgrants ▸ hgr) fun _ _ share hsh hid => ⟨share, hshares ▸ hsh, hid⟩

theorem deleteLeases (p : Lease → Bool) :
    LeaseInv clock { s with leases := s.leases.deleteWhere p } :=
  h.shrink (fun _ hlease => (mem_deleteWhere.mp hlease).1) (fun _ hgr => hgr)
    (fun _ _ _ hgr _ => hgr) fun _ _ share hsh hid => ⟨share, hsh, hid⟩

theorem deleteGrantsWhere (p : Grant → Bool) : LeaseInv clock (VaultLink.deleteGrantsWhere p s) :=
  h.shrink (fun _ hlease => (mem_deleteGrantsWhere_leases.mp hlease).1)
    (fun _ hgr => (mem_deleteGrantsWhere_grants.mp hgr).1)
    (fun _ hlease grant hgr hid => mem_deleteGrantsWhere_grants.mpr
      ⟨hgr, (mem_deleteGrantsWhere_leases.mp hlease).2 grant hgr hid⟩)
    fun _ _ share hsh hid => ⟨share, hsh, hid⟩

theorem cleanup (now : Instant) : LeaseInv clock (cleanupTransferState now s) :=
  ((h.deleteLeases _).deleteGrantsWhere _).deleteGrantsWhere _

theorem cleanupBeforeHeartbeat (now : Instant) (token : String) :
    LeaseInv clock (cleanupTransferStateBeforeHeartbeat now token s) :=
  ((h.deleteLeases _).deleteGrantsWhere _).deleteGrantsWhere _

/-- Leases may be rewritten and the expiry of one grant moved, as long as the leases stay with
their grants, within their bounds, and below an uncounted grant's expiry. -/
theorem setGrantExpiry (hgrants : s'.grants = s.grants) (hshares : s'.shares = s.shares)
    (hleases : ∀ lease ∈ s'.leases, ∃ old ∈ s.leases, lease.grantId = old.grantId ∧
      lease.expiresAt ≤ clock + transferSessionTtl ∧
      lease.expiresAt ≤ lease.createdAt + transferLeaseMaxLifetime ∧
      (lease.grantId ≠ grantId → lease = old))
    (hexp : ∀ lease ∈ s'.leases, lease.grantId = grantId → lease.expiresAt ≤ expires) :
    LeaseInv clock (VaultLink.setGrantExpiry grantId expires s') := by
  have hrow : ∀ grant ∈ (VaultLink.setGrantExpiry grantId expires s').grants,
      ∃ old ∈ s.grants, old.SameAs grant ∧ (grant.id = grantId → grant.expiresAt = expires) ∧
        (grant.id ≠ grantId → grant = old) := by
    intro grant hgr
    obtain ⟨old, hold, rfl⟩ := (mem_updateWhere (by intros; rfl)).mp hgr
    refine ⟨old, hgrants ▸ hold, ?_⟩
    by_cases hid : old.id = grantId
    · simp [hid, Grant.SameAs]
    · simp [hid, Grant.SameAs]
  refine ⟨?_, ?_, ?_, ?_, ?_, ?_⟩
  · intro lease hlease
    obtain ⟨old, hold, hsame, -⟩ := hleases lease hlease
    obtain ⟨grant, hgr, hid⟩ := h.grant_of old hold
    refine ⟨_, (mem_updateWhere (by intros; rfl)).mpr ⟨grant, hgrants ▸ hgr, rfl⟩, ?_⟩
    rw [hsame]
    split <;> exact hid
  · intro lease hlease grant hgr hid hcounted
    obtain ⟨old, hold, hsame, hmoved, hkept⟩ := hrow grant hgr
    by_cases hthis : grant.id = grantId
    · rw [hmoved hthis]
      exact hexp lease hlease (hid.symm.trans hthis)
    · obtain ⟨oldLease, holdLease, -, -, -, hsameLease⟩ := hleases lease hlease
      cases hkept hthis
      cases hsameLease (hid ▸ hthis)
      exact h.outlives lease holdLease grant hold hid hcounted
  · intro lease hlease
    obtain ⟨-, -, -, hbounded, -⟩ := hleases lease hlease
    exact hbounded
  · intro lease hlease
    obtain ⟨-, -, -, -, hcap, -⟩ := hleases lease hlease
    exact hcap
  · intro grant hgr
    obtain ⟨old, hold, hsame, -⟩ := hrow grant hgr
    rw [hsame.2.1]
    obtain ⟨share, hsh, hid⟩ := h.share_of old hold
    exact ⟨share, hshares ▸ hsh, hid⟩
  · intro grant hgr
    obtain ⟨old, hold, hsame, -⟩ := hrow grant hgr
    rw [hsame.2.2.1]
    exact h.audited old hold

/-- A begin moves the expiry of its grant beyond all leases. -/
theorem extendGrant (grantId : ℕ) :
    LeaseInv clock (VaultLink.setGrantExpiry grantId (clock + transferSessionTtl) s) :=
  h.setGrantExpiry rfl rfl
    (fun lease hlease => ⟨lease, hlease, rfl, h.bounded lease hlease, h.capped lease hlease,
      fun _ => rfl⟩)
    fun lease hlease _ => h.bounded lease hlease

theorem insertGrant (haud : ∃ action, requiredTransferAuditAction key.action = .ok action)
    (hgr : VaultLink.insertGrant key now s = .ok (s', grantId)) : LeaseInv clock s' := by
  obtain ⟨⟨share, hsh, hshId⟩, -, grants, hins, rfl⟩ := insertGrant_row hgr
  refine { h with
    grant_of := fun lease hlease => ?_
    outlives := fun lease hlease =>
      (forall_mem_insert? hins).mpr ⟨fun hid => ?_, h.outlives lease hlease⟩
    share_of := (forall_mem_insert? hins).mpr ⟨⟨share, hsh, hshId⟩, h.share_of⟩
    audited := (forall_mem_insert? hins).mpr ⟨haud, h.audited⟩ }
  · obtain ⟨grant, hmem, hid⟩ := h.grant_of lease hlease
    exact ⟨grant, (mem_insert? hins).mpr (.inr hmem), hid⟩
  · -- every lease already has a grant, and the new id is none of theirs
    obtain ⟨other, hoth, hothId⟩ := h.grant_of lease hlease
    exact absurd (hothId.trans hid.symm) ((insert?_some hins).2 other hoth)

/-- A new lease expires with its uncounted grant at the latest. -/
theorem insertLease {token : String} (hnow : now ≤ clock)
    (houtlives : ∀ grant ∈ s.grants, grant.id = grantId → grant.counted = false →
      now + transferSessionTtl ≤ grant.expiresAt)
    (hlease : VaultLink.insertLease token grantId now s = .ok s') : LeaseInv clock s' := by
  obtain ⟨⟨grant, hgr, hid⟩, leases, hins, rfl⟩ := insertLease_inserts hlease
  have hrows {P : Lease → Prop} : (∀ lease ∈ leases, P lease) ↔ _ := forall_mem_insert? hins
  exact { h with
    grant_of := hrows.mpr ⟨⟨grant, hgr, hid⟩, h.grant_of⟩
    outlives := hrows.mpr ⟨houtlives, h.outlives⟩
    bounded := hrows.mpr ⟨Int.add_le_add_right hnow _, h.bounded⟩
    capped := hrows.mpr ⟨Int.add_le_add_left (by decide) _, h.capped⟩ }

/-- A counted grant no longer bounds its leases. -/
theorem countGrant (hcount : VaultLink.countGrant now grant s = .ok s') : LeaseInv clock s' := by
  obtain ⟨-, rfl⟩ := countGrant_ok hcount
  have hrow : ∀ row ∈ (markGrantCounted grant.id (now + transferSessionTtl) s).grants,
      ∃ old ∈ s.grants, row.id = old.id ∧ row.shareId = old.shareId ∧ row.action = old.action ∧
        (row.counted = false → row = old) := by
    intro row hrow
    obtain ⟨old, hold, rfl⟩ := (mem_updateWhere (by intros; rfl)).mp hrow
    refine ⟨old, hold, ?_⟩
    split
    · exact ⟨rfl, rfl, rfl, by nofun⟩
    · exact ⟨rfl, rfl, rfl, fun _ => rfl⟩
  refine { h with grant_of := ?_, outlives := ?_, share_of := ?_, audited := ?_ }
  · intro lease hlease
    obtain ⟨row, hmem, hid⟩ := h.grant_of lease hlease
    refine ⟨_, (mem_updateWhere (by intros; rfl)).mpr ⟨row, hmem, rfl⟩, ?_⟩
    split <;> exact hid
  · intro lease hlease row hmem hid hcounted
    obtain ⟨old, hold, -, -, -, hsame⟩ := hrow row hmem
    cases hsame hcounted
    exact h.outlives lease hlease row hold hid hcounted
  · intro row hmem
    obtain ⟨old, hold, -, hshId, -⟩ := hrow row hmem
    obtain ⟨share, hsh, hid⟩ := h.share_of old hold
    refine ⟨_, (mem_updateWhere (by intros; rfl)).mpr ⟨share, hsh, rfl⟩, ?_⟩
    rw [hshId]
    split <;> exact hid
  · intro row hmem
    obtain ⟨old, hold, -, -, hactn, -⟩ := hrow row hmem
    rw [hactn]
    exact h.audited old hold

omit h

/-- The leases after a renewal. -/
theorem mem_renewLease {token : String} :
    lease ∈ (VaultLink.renewLease token now expires s).leases ↔ ∃ old ∈ s.leases,
      lease = if old.tokenHash = token then { old with heartbeatAt := now, expiresAt := expires }
        else old := by
  rw [VaultLink.renewLease, mem_updateWhere (by intros; rfl)]
  constructor
  · rintro ⟨old, hold, rfl⟩
    exact ⟨old, hold, by simp⟩
  · rintro ⟨old, hold, rfl⟩
    exact ⟨old, hold, by simp⟩

theorem le_latestLeaseExpiry {latest : Instant} (h : s.latestLeaseExpiry grantId = some latest)
    (hlease : lease ∈ s.leases) (hid : lease.grantId = grantId) : lease.expiresAt ≤ latest := by
  refine (List.max?_eq_some_iff.mp h).2 _ (List.mem_map_of_mem (List.mem_filter.mpr ⟨hlease, ?_⟩))
  simpa using hid

section Renewal

variable {token : String} {now expires : Instant} {lease : Lease} {grant : Grant}
  (hfound : s.leaseGrant token = some (lease, grant))
  (hbounded : expires ≤ clock + transferSessionTtl)
  (hcap : expires ≤ lease.createdAt + transferLeaseMaxLifetime)

include h hfound hbounded hcap

theorem renewLease_leases {row : Lease}
    (hrow : row ∈ (VaultLink.renewLease token now expires s).leases) :
    ∃ old ∈ s.leases, row.grantId = old.grantId ∧ row.expiresAt ≤ clock + transferSessionTtl ∧
      row.expiresAt ≤ row.createdAt + transferLeaseMaxLifetime ∧
      (row.grantId ≠ grant.id → row = old) := by
  obtain ⟨hlease, htok, -, hid⟩ := leaseGrant_stored hfound
  obtain ⟨old, hold, rfl⟩ := mem_renewLease.mp hrow
  refine ⟨old, hold, ?_⟩
  split
  · rename_i hthis
    have hsame : old = lease := s.leases.eq_of_key_eq hold hlease (hthis.trans htok.symm)
    subst hsame
    exact ⟨rfl, hbounded, hcap, fun hne => absurd hid.symm hne⟩
  · exact ⟨rfl, h.bounded old hold, h.capped old hold, fun _ => rfl⟩

/-- A renewed lease of an uncounted grant takes the grant's expiry along. -/
theorem renewUncounted {latest : Instant}
    (hlatest : (VaultLink.renewLease token now expires s).latestLeaseExpiry grant.id =
      some latest) :
    LeaseInv clock (VaultLink.setGrantExpiry grant.id latest
      (VaultLink.renewLease token now expires s)) :=
  h.setGrantExpiry (by rfl) (by rfl)
    (fun _ hrow => h.renewLease_leases hfound hbounded hcap hrow)
    fun _ hrow hid => le_latestLeaseExpiry hlatest hrow hid

/-- A renewed lease of a counted grant leaves the grant behind. -/
theorem renewCounted (hcounted : grant.counted = true) :
    LeaseInv clock (VaultLink.renewLease token now expires s) := by
  have hrows := @renewLease_leases clock s h token now expires lease grant hfound hbounded hcap
  refine { h with grant_of := ?_, outlives := ?_, bounded := ?_, capped := ?_ }
  · intro row hrow
    obtain ⟨old, hold, hid, -⟩ := hrows hrow
    rw [hid]
    exact h.grant_of old hold
  · intro row hrow other hoth hid hunct
    obtain ⟨old, hold, -, -, -, hsame⟩ := hrows hrow
    by_cases hthis : row.grantId = grant.id
    · have hgr := (leaseGrant_stored hfound).2.2.1
      have hone : other = grant := s.grants.eq_of_key_eq hoth hgr (hid.trans hthis)
      rw [hone, hcounted] at hunct
      cases hunct
    · cases hsame hthis
      exact h.outlives row hold other hoth hid hunct
  · intro row hrow
    obtain ⟨-, -, -, hrowBounded, -⟩ := hrows hrow
    exact hrowBounded
  · intro row hrow
    obtain ⟨-, -, -, -, hrowCapped, -⟩ := hrows hrow
    exact hrowCapped

end Renewal

end LeaseInv

end Invariant

section Calls

variable {clock now : Instant} {token : String} {s s' : Store}

/-- A begin reads the clock under the write lock. -/
theorem LeaseInv.beginLease (h : LeaseInv clock s) {unlockToken : Option String}
    {outcome : TransferLeaseBeginOutcome}
    (haud : ∃ action, requiredTransferAuditAction key.action = .ok action)
    (hbeg : beginAuthorizedTransferLease clock key unlockToken token s = .ok (s', outcome)) :
    LeaseInv clock s' := by
  have hclean := h.cleanup clock
  cases beginsLease hbeg with
  | unauthorized => exact h
  | limitReached | shareUnavailable => exact hclean
  | counted hacc hlease =>
    obtain ⟨grant, hgr, hid, hcounted, -⟩ := transferAccessState_existingGrant _ _ _ _ hacc
    refine hclean.insertLease le_rfl ?_ hlease
    intro other hoth hothId hunct
    have hone : other = grant := eq_of_key_eq _ hoth hgr (hothId.trans hid.symm)
    rw [hone, hcounted] at hunct
    cases hunct
  | @joined grantId _ _ hlease =>
    refine (hclean.extendGrant grantId).insertLease le_rfl ?_ hlease
    intro other hoth hothId _
    obtain ⟨old, -, rfl⟩ := (mem_updateWhere (by intros; rfl)).mp hoth
    have holdId : old.id = grantId := by
      split at hothId <;> exact hothId
    simp [holdId]
  | granted _ hgr hlease =>
    refine (hclean.insertGrant haud hgr).insertLease le_rfl ?_ hlease
    intro other hoth hothId _
    obtain ⟨-, rfl, grants, hins, rfl⟩ := insertGrant_row hgr
    rcases (mem_insert? hins).mp hoth with rfl | hold
    · exact le_rfl
    · exact absurd hothId ((insert?_some hins).2 other hold)

theorem LeaseInv.completeLease (h : LeaseInv clock s) {outcome : TransferLeaseCompleteOutcome}
    (hcomplete : completeTransferLeaseAndAudit now token s = .ok (s', outcome)) :
    LeaseInv clock s' := by
  have hclean := h.cleanup now
  cases completesLease hcomplete with
  | notFound => exact hclean
  | alreadyCounted => exact hclean.deleteLeases _
  | counted _ _ hcount => exact ((hclean.countGrant hcount).deleteLeases _).of_eq rfl rfl rfl

theorem LeaseInv.cancelLease (h : LeaseInv clock s) {outcome : TransferLeaseCancelOutcome}
    (hcan : cancelTransferLease now token s = .ok (s', outcome)) : LeaseInv clock s' := by
  have hclean := h.cleanup now
  cases cancelsLease hcan with
  | notFound => exact hclean
  | kept => exact hclean.deleteLeases _
  | released => exact (hclean.deleteLeases _).deleteGrantsWhere _

/-- A heartbeat may work with an older reading. -/
theorem LeaseInv.heartbeatLease (h : LeaseInv clock s) {outcome : TransferLeaseHeartbeatOutcome}
    (hnow : now ≤ clock)
    (hbeat : heartbeatTransferLeaseAndAudit now token s = .ok (s', outcome)) :
    LeaseInv clock s' := by
  have hclean := h.cleanupBeforeHeartbeat now token
  have hbounded {maximum : Instant} : min (now + transferSessionTtl) maximum ≤
      clock + transferSessionTtl := (min_le_left _ _).trans (Int.add_le_add_right hnow _)
  cases beatsLease hbeat with
  | notFound => exact hclean.cleanup now
  | cappedAlreadyCounted => exact (hclean.deleteLeases _).cleanup now
  | cappedAndCounted _ _ _ hcount =>
    exact (((hclean.countGrant hcount).deleteLeases _).cleanup now).of_eq rfl rfl rfl
  | extended hfound hcounted _ hexp =>
    subst hexp
    exact hclean.renewCounted hfound hbounded (min_le_right _ _) hcounted
  | prolonged hfound _ _ hexp hlatest =>
    subst hexp
    exact hclean.renewUncounted hfound hbounded (min_le_right _ _) hlatest

/-- The readings of a transaction: it worked with its arrival's or with the current one. -/
def Execution.Timely (x : Execution) : Prop :=
  x.now ≤ x.clock ∧ (x.call.readsClockBeforeLock = false → x.now = x.clock)

/-- A begin names one of the three audited actions. -/
def Execution.audited (x : Execution) : Bool :=
  match x.call with
  | .beginLease key _ _ => (requiredTransferAuditAction key.action).isOk
  | _ => true

theorem LeaseInv.deleteShare (h : LeaseInv clock s) (id : ℕ) :
    LeaseInv clock (VaultLink.deleteShare id s).1 := by
  refine (h.deleteGrantsWhere fun grant => grant.shareId = id).shrink (fun _ h => h) (fun _ h => h)
    (fun _ _ _ h _ => h) ?_
  intro grant hgr share hsh hshId
  refine ⟨share, mem_deleteWhere.mpr ⟨hsh, ?_⟩, hshId⟩
  have hoth := (mem_deleteGrantsWhere_grants.mp hgr).2
  simpa [hshId] using hoth

theorem LeaseInv.after {x : Execution} (h : LeaseInv x.clock s) (htimely : x.Timely)
    (haud : x.audited = true) : LeaseInv x.clock (x.after s) := by
  obtain ⟨hnow, hread⟩ := htimely
  rcases x with ⟨call, now, clock⟩
  dsimp only at h hnow hread ⊢
  by_cases hlease : call.servesLease = true
  · cases call with
    | beginLease key =>
      cases hread rfl
      have hactn : ∃ action, requiredTransferAuditAction key.action = .ok action := by
        cases hactn : requiredTransferAuditAction key.action with
        | ok action => exact ⟨action, rfl⟩
        | error => simp [Execution.audited, hactn, Except.isOk, Except.toBool] at haud
      exact committed_inv (P := LeaseInv now) h fun _ _ => h.beginLease hactn
    | completeLease =>
      exact committed_inv (P := LeaseInv clock) h fun _ _ => h.completeLease
    | cancelLease => exact committed_inv (P := LeaseInv clock) h fun _ _ => h.cancelLease
    | heartbeatLease =>
      exact committed_inv (P := LeaseInv clock) h fun _ _ => h.heartbeatLease hnow
    | _ => cases hlease
  · by_cases hdel : ∃ id, call = .deleteShare id
    · obtain ⟨id, rfl⟩ := hdel
      exact h.deleteShare id
    · have hkeeps := execute_transfers now s call (by simpa using hlease) (not_exists.mp hdel)
      refine h.shrink (fun _ hrow => hkeeps.leases_eq ▸ hrow)
        (fun _ hrow => hkeeps.grants_eq ▸ hrow) (fun _ _ _ hrow _ => hkeeps.grants_eq ▸ hrow) ?_
      intro grant _ share hsh hshId
      have hfind : s.shares.find? grant.shareId = some share :=
        find?_eq_some_iff.mpr ⟨hsh, hshId⟩
      rcases execute_share now s call hfind with hcall | ⟨share', hfind', -⟩
      · exact absurd ⟨_, hcall⟩ hdel
      · obtain ⟨hmem, hid⟩ := find?_some hfind'
        exact ⟨share', hmem, hid⟩

end Calls

section Survival

/-- A lease that a cleanup at `now` leaves alone. -/
def Live (now : Instant) (token : String) (s : Store) : Prop :=
  ∃ lease ∈ s.leases, lease.tokenHash = token ∧ now < lease.expiresAt ∧
    ∃ grant ∈ s.grants, grant.id = lease.grantId ∧ now < grant.expiresAt

variable {now : Instant} {token other : String} {s s' : Store}

theorem lt_add_ttl (now : Instant) : now < now + transferSessionTtl :=
  Int.lt_add_of_pos_right now (by decide)

theorem leaseGrant_eq_some (hlease : lease ∈ s.leases) (htok : lease.tokenHash = token)
    (hgr : grant ∈ s.grants) (hid : grant.id = lease.grantId) :
    s.leaseGrant token = some (lease, grant) := by
  rw [Store.leaseGrant, find?_eq_some_iff.mpr ⟨hlease, htok⟩, Option.bind_some,
    find?_eq_some_iff.mpr ⟨hgr, hid⟩, Option.map_some]

/-- An uncounted grant with its share in place can be counted. -/
theorem countGrant_succeeds (now : Instant) (hsh : ∃ share ∈ s.shares, share.id = grant.shareId)
    (hgr : grant ∈ s.grants) (hcounted : grant.counted = false) :
    ∃ s', countGrant now grant s = .ok s' := by
  obtain ⟨share, hsh, hid⟩ := hsh
  have honeShare : s.shares.count (fun row => row.id = grant.shareId) = 1 := by
    refine count_eq_one hsh (by simp [hid]) fun row hrow hsame => ?_
    exact s.shares.eq_of_key_eq hrow hsh ((of_decide_eq_true hsame).trans hid.symm)
  have honeGrant : s.grants.count (fun row => row.id = grant.id && !row.counted) = 1 := by
    refine count_eq_one hgr (by simp [hcounted]) fun row hrow hsame => ?_
    exact s.grants.eq_of_key_eq hrow hgr (of_decide_eq_true (Bool.and_eq_true_iff.mp hsame).1)
  rw [countGrant, if_neg (not_not.mpr honeShare)]
  exact ⟨_, if_neg (not_not.mpr honeGrant)⟩

namespace Live

variable (h : Live now token s)

include h

theorem of_eq (hleases : s'.leases = s.leases) (hgrants : s'.grants = s.grants) :
    Live now token s' := by
  obtain ⟨lease, hlease, htok, hlive, grant, hgr, hid, hgrLive⟩ := h
  exact ⟨lease, hleases ▸ hlease, htok, hlive, grant, hgrants ▸ hgr, hid, hgrLive⟩

theorem deleteLeases {p : Lease → Bool}
    (hp : ∀ lease ∈ s.leases, lease.tokenHash = token → now < lease.expiresAt → p lease = false) :
    Live now token { s with leases := s.leases.deleteWhere p } := by
  obtain ⟨lease, hlease, htok, hlive, hgr⟩ := h
  exact ⟨lease, mem_deleteWhere.mpr ⟨hlease, hp lease hlease htok hlive⟩, htok, hlive,
    hgr⟩

theorem deleteLease (hoth : other ≠ token) : Live now token (VaultLink.deleteLease other s) :=
  h.deleteLeases fun _ _ htok _ => by simp [htok, Ne.symm hoth]

/-- Deletions of grants that spare the lease's own. -/
theorem deleteGrantsWhere {p : Grant → Bool}
    (hp : ∀ lease ∈ s.leases, lease.tokenHash = token → now < lease.expiresAt →
      ∀ grant ∈ s.grants, grant.id = lease.grantId → now < grant.expiresAt → p grant = false) :
    Live now token (VaultLink.deleteGrantsWhere p s) := by
  obtain ⟨lease, hlease, htok, hlive, grant, hgr, hid, hgrLive⟩ := h
  have hkept := hp lease hlease htok hlive grant hgr hid hgrLive
  refine ⟨lease, mem_deleteGrantsWhere_leases.mpr ⟨hlease, fun row hrow hrowId => ?_⟩, htok, hlive,
    grant, mem_deleteGrantsWhere_grants.mpr ⟨hgr, hkept⟩, hid, hgrLive⟩
  rwa [s.grants.eq_of_key_eq hrow hgr (hrowId.trans hid.symm)]

theorem cleanup : Live now token (cleanupTransferState now s) := by
  obtain ⟨lease, hlease, htok, hlive, grant, hgr, hid, hgrLive⟩ := h
  refine ⟨lease, mem_cleanup_leases.mpr ⟨hlease, hlive, fun row hrow hrowId => ?_⟩, htok, hlive,
    grant, mem_cleanup_grants.mpr ⟨hgr, hgrLive, Or.inr ?_⟩, hid, hgrLive⟩
  · rwa [s.grants.eq_of_key_eq hrow hgr (hrowId.trans hid.symm)]
  · exact liveLeased_iff.mpr ⟨lease, hlease, hid.symm, hlive⟩

theorem cleanupBeforeHeartbeat (current : String) :
    Live now token (cleanupTransferStateBeforeHeartbeat now current s) := by
  have hleases := h.deleteLeases
    (p := fun lease => lease.expiresAt ≤ now && lease.tokenHash ≠ current)
    fun lease _ _ hlive => by simp [not_le.mpr hlive]
  have hexpired := hleases.deleteGrantsWhere
    (p := fun grant => !Store.servedBy { s with leases := s.leases.deleteWhere fun lease =>
      lease.expiresAt ≤ now && lease.tokenHash ≠ current } current grant && grant.expiresAt ≤ now)
    fun _ _ _ _ grant _ _ hgrLive => by simp [not_le.mpr hgrLive]
  refine hexpired.deleteGrantsWhere fun lease hlease _ hlive grant _ hid _ => ?_
  rw [liveLeased_iff.mpr ⟨lease, hlease, hid.symm, hlive⟩, Bool.not_true, Bool.and_false]

theorem setGrantExpiry (grantId : ℕ) (hexp : now < expires) :
    Live now token (VaultLink.setGrantExpiry grantId expires s) := by
  obtain ⟨lease, hlease, htok, hlive, grant, hgr, hid, hgrLive⟩ := h
  refine ⟨lease, hlease, htok, hlive, _,
    (mem_updateWhere (by intros; rfl)).mpr ⟨grant, hgr, rfl⟩, ?_, ?_⟩
  · split <;> exact hid
  · split
    · exact hexp
    · exact hgrLive

theorem insertGrant {reading : Instant}
    (hok : VaultLink.insertGrant key reading s = .ok (s', grantId)) : Live now token s' := by
  obtain ⟨-, -, grants, hins, rfl⟩ := insertGrant_row hok
  obtain ⟨lease, hlease, htok, hlive, grant, hgr, hid⟩ := h
  exact ⟨lease, hlease, htok, hlive, grant,
    (mem_insert? hins).mpr (Or.inr hgr), hid⟩

theorem insertLease {reading : Instant}
    (hok : VaultLink.insertLease other grantId reading s = .ok s') : Live now token s' := by
  obtain ⟨-, leases, hins, rfl⟩ := insertLease_inserts hok
  obtain ⟨lease, hlease, hrest⟩ := h
  exact ⟨lease, (mem_insert? hins).mpr (Or.inr hlease), hrest⟩

theorem countGrant {counted : Grant} (hcount : VaultLink.countGrant now counted s = .ok s') :
    Live now token s' := by
  obtain ⟨-, rfl⟩ := countGrant_ok hcount
  obtain ⟨lease, hlease, htok, hlive, grant, hgr, hid, hgrLive⟩ := h
  refine ⟨lease, hlease, htok, hlive, _,
    (mem_updateWhere (by intros; rfl)).mpr ⟨grant, hgr, rfl⟩, ?_, ?_⟩
  · split <;> exact hid
  · split
    · exact lt_add_ttl now
    · exact hgrLive

theorem renewLease (hexp : now < expires) :
    Live now token (VaultLink.renewLease other now expires s) := by
  obtain ⟨lease, hlease, htok, hlive, hgr⟩ := h
  refine ⟨_, LeaseInv.mem_renewLease.mpr ⟨lease, hlease, rfl⟩, ?_⟩
  split
  · exact ⟨htok, hexp, hgr⟩
  · exact ⟨htok, hlive, hgr⟩

/-- The query of a completion, cancellation or heartbeat finds a live lease. -/
theorem leaseGrant : ∃ lease grant,
    s.leaseGrant token = some (lease, grant) ∧ now < lease.expiresAt ∧ now < grant.expiresAt := by
  obtain ⟨lease, hlease, htok, hlive, grant, hgr, hid, hgrLive⟩ := h
  exact ⟨lease, grant, leaseGrant_eq_some hlease htok hgr hid, hlive, hgrLive⟩

/-- Nothing a begin does at the same reading endangers a live lease. -/
theorem beginLease {unlockToken : Option String} {outcome : TransferLeaseBeginOutcome}
    (hbeg : beginAuthorizedTransferLease now key unlockToken other s = .ok (s', outcome)) :
    Live now token s' := by
  have hclean := h.cleanup
  cases beginsLease hbeg with
  | unauthorized => exact h
  | limitReached | shareUnavailable => exact hclean
  | counted _ hlease => exact hclean.insertLease hlease
  | joined _ hlease => exact (hclean.setGrantExpiry _ (lt_add_ttl now)).insertLease hlease
  | granted _ hgr hlease => exact (hclean.insertGrant hgr).insertLease hlease

theorem completeLease (hoth : other ≠ token) {outcome : TransferLeaseCompleteOutcome}
    (hcomplete : completeTransferLeaseAndAudit now other s = .ok (s', outcome)) :
    Live now token s' := by
  have hclean := h.cleanup
  cases completesLease hcomplete with
  | notFound => exact hclean
  | alreadyCounted => exact hclean.deleteLease hoth
  | counted _ _ hcount => exact ((hclean.countGrant hcount).deleteLease hoth).of_eq rfl rfl

theorem cancelLease (hoth : other ≠ token) {outcome : TransferLeaseCancelOutcome}
    (hcan : cancelTransferLease now other s = .ok (s', outcome)) : Live now token s' := by
  have hclean := h.cleanup
  have hdeld := hclean.deleteLease hoth
  cases cancelsLease hcan with
  | notFound => exact hclean
  | kept => exact hdeld
  | released grant =>
    -- a grant that the live lease serves still has a lease
    refine hdeld.deleteGrantsWhere fun lease hlease _ _ row _ hid _ => ?_
    by_cases hrow : row.id = grant.id
    · have hserved : (VaultLink.deleteLease other (cleanupTransferState now s)).leases.any
          (fun lease => lease.grantId = grant.id) = true :=
        any_iff.mpr ⟨lease, hlease, by simp [← hid, hrow]⟩
      rw [hserved, Bool.not_true, Bool.and_false]
    · simp [hrow]

/-- A heartbeat closes a lease that has reached its maximum lifetime, but no lease outlives
that. -/
theorem heartbeatLease
    (hcap : ∀ lease ∈ s.leases, lease.expiresAt ≤ lease.createdAt + transferLeaseMaxLifetime)
    {outcome : TransferLeaseHeartbeatOutcome}
    (hbeat : heartbeatTransferLeaseAndAudit now other s = .ok (s', outcome)) :
    Live now token s' := by
  have hclean := h.cleanupBeforeHeartbeat other
  have hoth {lease grant} (hfound : (cleanupTransferStateBeforeHeartbeat now other s).leaseGrant
      other = some (lease, grant)) (hmax : lease.createdAt + transferLeaseMaxLifetime ≤ now) :
      other ≠ token := by
    rintro rfl
    obtain ⟨_, _, hfound', hlive, -⟩ := hclean.leaseGrant
    cases hfound.symm.trans hfound'
    have hmem := (mem_deleteWhere.mp (mem_deleteGrantsWhere_leases.mp
      (mem_deleteGrantsWhere_leases.mp (leaseGrant_stored hfound).1).1).1).1
    exact absurd ((hcap lease hmem).trans hmax) (not_le.mpr hlive)
  cases beatsLease hbeat with
  | notFound => exact hclean.cleanup
  | cappedAlreadyCounted hfound hmax =>
    exact (hclean.deleteLease (hoth hfound hmax)).cleanup
  | cappedAndCounted hfound hmax _ hcount =>
    exact ((hclean.countGrant hcount).deleteLease (hoth hfound hmax)).cleanup.of_eq rfl rfl
  | extended _ _ haft hexp =>
    exact hclean.renewLease (hexp ▸ lt_min (lt_add_ttl now) haft)
  | prolonged hfound _ haft hexp hlatest =>
    have hlat := lt_min (lt_add_ttl now) haft
    rw [hexp] at hlat
    obtain ⟨hlease, htok, -, hid⟩ := leaseGrant_stored hfound
    refine (hclean.renewLease hlat).setGrantExpiry _ (hlat.trans_le ?_)
    exact LeaseInv.le_latestLeaseExpiry hlatest
      (LeaseInv.mem_renewLease.mpr ⟨_, hlease, (if_pos htok).symm⟩) hid.symm

/-- A live lease completes. -/
theorem completes {clock : Instant} (hinv : LeaseInv clock s) :
    ∃ s' outcome, completeTransferLeaseAndAudit now token s = .ok (s', outcome) ∧
      (outcome = .counted ∨ outcome = .alreadyCounted) := by
  have hclean := hinv.cleanup now
  obtain ⟨lease, grant, hfound, hlive, hgrLive⟩ := h.cleanup.leaseGrant
  obtain ⟨-, -, hgr, -⟩ := leaseGrant_stored hfound
  simp only [completeTransferLeaseAndAudit, hfound, hlive, hgrLive, decide_true, Bool.and_self,
    Bool.not_true, Bool.false_eq_true, if_false]
  cases hcounted : grant.counted with
  | true => exact ⟨_, _, rfl, Or.inr rfl⟩
  | false =>
    obtain ⟨s₂, hcount⟩ := countGrant_succeeds now (hclean.share_of grant hgr) hgr hcounted
    obtain ⟨action, hactn⟩ := hclean.audited grant hgr
    rw [hcount, hactn]
    exact ⟨_, _, rfl, Or.inl rfl⟩

theorem cancels : ∃ s', cancelTransferLease now token s = .ok (s', .cancelled) := by
  obtain ⟨lease, grant, hfound, -⟩ := h.cleanup.leaseGrant
  simp only [cancelTransferLease, hfound]
  split <;> exact ⟨_, rfl⟩

end Live

end Survival

section Stored

variable {token other : String} {now : Instant} {s s' : Store}

def StoredLease (token : String) (s : Store) : Prop := ∃ lease ∈ s.leases, lease.tokenHash = token

instance (token : String) (s : Store) : Decidable (StoredLease token s) :=
  inferInstanceAs (Decidable (∃ lease ∈ s.leases.rows, lease.tokenHash = token))

/-- Every lease of `s'` has the token of one of `s`. -/
def KeepsTokens (s s' : Store) : Prop :=
  ∀ lease' ∈ s'.leases, ∃ lease ∈ s.leases, lease.tokenHash = lease'.tokenHash

theorem KeepsTokens.stored (h : KeepsTokens s s') (hstored : StoredLease token s') :
    StoredLease token s := by
  obtain ⟨lease', hlease', htok⟩ := hstored
  obtain ⟨lease, hlease, hsame⟩ := h lease' hlease'
  exact ⟨lease, hlease, hsame.trans htok⟩

theorem KeepsTokens.of_subset (h : ∀ lease ∈ s'.leases, lease ∈ s.leases) : KeepsTokens s s' :=
  fun lease hlease => ⟨lease, h lease hlease, rfl⟩

theorem KeepsTokens.refl (s : Store) : KeepsTokens s s := .of_subset fun _ hlease => hlease

theorem KeepsTokens.trans {s'' : Store} (h : KeepsTokens s s') (h' : KeepsTokens s' s'') :
    KeepsTokens s s'' := by
  intro lease'' hlease''
  obtain ⟨lease', hlease', hsame'⟩ := h' lease'' hlease''
  obtain ⟨lease, hlease, hsame⟩ := h lease' hlease'
  exact ⟨lease, hlease, hsame.trans hsame'⟩

/-- Only a begin stores a token. -/
theorem KeepsTokens.statements (h : LeaseStatements s s') : KeepsTokens s s' := by
  induction h with
  | refl => exact .refl s
  | tail _ hstat ih =>
    refine ih.trans ?_
    cases hstat with
    | deleteLeases | deleteGrants => exact .of_subset fun _ hlease => (mem_deleteWhere.mp hlease).1
    | countGrant _ _ hcount =>
      obtain ⟨-, rfl⟩ := countGrant_ok hcount
      exact .of_subset fun _ hlease => hlease
    | renewLease =>
      intro lease hlease
      obtain ⟨old, hold, rfl⟩ := LeaseInv.mem_renewLease.mp hlease
      refine ⟨old, hold, ?_⟩
      split <;> rfl
    | setGrantExpiry | audits => exact .of_subset fun _ hlease => hlease

theorem insertLease_stored (h : insertLease other grantId now s = .ok s') :
    StoredLease token s' ↔ StoredLease token s ∨ other = token := by
  obtain ⟨-, leases, hins, rfl⟩ := insertLease_inserts h
  constructor
  · rintro ⟨lease, hlease, htok⟩
    rcases (mem_insert? hins).mp hlease with rfl | hold
    · exact Or.inr htok
    · exact Or.inl ⟨lease, hold, htok⟩
  · rintro (⟨lease, hlease, htok⟩ | htok)
    · exact ⟨lease, (mem_insert? hins).mpr (Or.inr hlease), htok⟩
    · exact ⟨_, (mem_insert? hins).mpr (Or.inl rfl), htok⟩

/-- A begin stores a lease under its token exactly when it says so. -/
theorem begin_stored {unlockToken : Option String} {outcome : TransferLeaseBeginOutcome}
    (h : beginAuthorizedTransferLease now key unlockToken other s = .ok (s', outcome)) :
    (outcome.leased = true → StoredLease other s') ∧
      ∀ token, StoredLease token s' →
        StoredLease token s ∨ outcome.leased = true ∧ other = token := by
  have hclean := KeepsTokens.statements (s := s) (cleanup_statements .refl now)
  have hinsd {s₂ : Store} {grantId : ℕ} (hlease : insertLease other grantId now s₂ = .ok s')
      (hleases : s₂.leases = (cleanupTransferState now s).leases)
      (hleased : outcome.leased = true) :
      (outcome.leased = true → StoredLease other s') ∧ ∀ token, StoredLease token s' →
        StoredLease token s ∨ outcome.leased = true ∧ other = token := by
    refine ⟨fun _ => (insertLease_stored hlease).mpr (Or.inr rfl), fun token hstored => ?_⟩
    refine ((insertLease_stored hlease).mp hstored).imp (fun hold => hclean.stored ?_)
      fun htok => ⟨hleased, htok⟩
    rwa [StoredLease, hleases] at hold
  cases beginsLease h with
  | unauthorized => exact ⟨by nofun, fun _ => Or.inl⟩
  | limitReached | shareUnavailable =>
    exact ⟨by nofun, fun _ hstored => Or.inl (hclean.stored hstored)⟩
  | counted _ hlease | joined _ hlease => exact hinsd hlease rfl rfl
  | granted _ hgr hlease =>
    obtain ⟨-, -, grants, -, rfl⟩ := insertGrant_row hgr
    exact hinsd hlease rfl rfl

end Stored

section Readings

/-- The clock reading an event makes. -/
def ServerEvent.reading? : ServerEvent → Option Instant
  | .arrive _ reading | .execute _ reading => some reading
  | .abandon _ => none

/-- No reading is earlier than the ones before it. -/
def Nondecreasing (events : List ServerEvent) : Prop :=
  (events.filterMap ServerEvent.reading?).Pairwise (· ≤ ·)

instance (events : List ServerEvent) : Decidable (Nondecreasing events) :=
  inferInstanceAs (Decidable (List.Pairwise _ _))

variable {events : List ServerEvent}

theorem clock_mem_readings {server : TransferServer} {x : Execution}
    (hx : x ∈ server.transactions events) : x.clock ∈ events.filterMap ServerEvent.reading? := by
  induction events generalizing server with
  | nil => cases hx
  | cons event events ih =>
    rw [TransferServer.transactions, List.mem_append] at hx
    rw [List.filterMap_cons]
    rcases hx with hfirst | hrest
    · cases event with
      | execute =>
        simp only [TransferServer.execution?, Option.mem_toList, Option.map_eq_some_iff] at hfirst
        obtain ⟨entry, -, rfl⟩ := hfirst
        exact List.mem_cons_self
      | arrive => cases hfirst
      | abandon => cases hfirst
    · have hmem := ih hrest
      split
      · exact hmem
      · exact List.mem_cons_of_mem _ hmem

/-- Calls in flight have read the clock before the events to come. -/
def Arrived (server : TransferServer) (events : List ServerEvent) : Prop :=
  ∀ entry ∈ server.inFlight, ∀ reading ∈ events.filterMap ServerEvent.reading?,
    entry.arrivalReading ≤ reading

theorem Arrived.step {server : TransferServer} {event : ServerEvent}
    (h : Arrived server (event :: events)) (hsor : Nondecreasing (event :: events)) :
    Arrived (server.step event) events := by
  have hlat : ∀ entry ∈ server.inFlight, ∀ reading ∈ events.filterMap ServerEvent.reading?,
      entry.arrivalReading ≤ reading := by
    intro entry hent reading hreading
    refine h entry hent reading ?_
    rw [List.filterMap_cons]
    split
    · exact hreading
    · exact List.mem_cons_of_mem _ hreading
  cases event with
  | arrive =>
    intro entry hent reading hreading
    rcases List.mem_append.mp hent with hold | hnew
    · exact hlat entry hold reading hreading
    · cases List.mem_singleton.mp hnew
      exact (List.pairwise_cons.mp hsor).1 reading hreading
  | abandon =>
    exact fun entry hent => hlat entry (List.mem_of_mem_eraseIdx hent)
  | execute =>
    simp only [TransferServer.step]
    split
    · exact hlat
    · exact fun entry hent => hlat entry (List.mem_of_mem_eraseIdx hent)

/-- In a run with nondecreasing readings every transaction is timely, and they run in the order
of the clock. -/
theorem transactions_timely {server : TransferServer} {events : List ServerEvent}
    (harrived : Arrived server events) (hsor : Nondecreasing events) :
    (∀ x ∈ server.transactions events, x.Timely) ∧
      (server.transactions events).Pairwise fun x y => x.clock ≤ y.clock := by
  induction events generalizing server with
  | nil => exact ⟨fun x hx => absurd hx List.not_mem_nil, List.Pairwise.nil⟩
  | cons event events ih =>
    have hrest : Nondecreasing events := by
      unfold Nondecreasing at hsor
      rw [List.filterMap_cons] at hsor
      split at hsor
      · exact hsor
      · exact (List.pairwise_cons.mp hsor).2
    obtain ⟨htimely, hodd⟩ := ih (harrived.step hsor) hrest
    rw [TransferServer.transactions]
    cases hfirst : server.execution? event with
    | none => exact ⟨htimely, hodd⟩
    | some =>
      cases event with
      | arrive => cases hfirst
      | abandon => cases hfirst
      | execute index reading =>
        simp only [TransferServer.execution?, Option.map_eq_some_iff] at hfirst
        obtain ⟨entry, hent, rfl⟩ := hfirst
        refine ⟨?_, List.pairwise_cons.mpr ⟨fun y hy => ?_, hodd⟩⟩
        · intro y hy
          rcases List.mem_cons.mp hy with rfl | hy
          · refine ⟨?_, fun hread => by simp [hread]⟩
            dsimp only
            split
            · exact harrived entry (List.mem_of_getElem? hent) reading List.mem_cons_self
            · exact le_rfl
          · exact htimely y hy
        · exact (List.pairwise_cons.mp hsor).1 _ (clock_mem_readings hy)

/-- Each transaction of such a history finds the lease invariant at its own clock reading. -/
theorem leaseInv_throughout {history : List Execution} {clock : Instant} {s : Store}
    (h : LeaseInv clock s) (hclock : ∀ x ∈ history, clock ≤ x.clock)
    (htimely : ∀ x ∈ history, x.Timely)
    (hodd : history.Pairwise fun x y => x.clock ≤ y.clock)
    (haud : ∀ x ∈ history, x.audited = true) :
    Throughout Execution.after (fun s x => LeaseInv x.clock s) s history := by
  induction history generalizing clock s with
  | nil => trivial
  | cons x history ih =>
    have hfound : LeaseInv x.clock s := h.mono (hclock x List.mem_cons_self)
    obtain ⟨hfirst, hrest⟩ := List.pairwise_cons.mp hodd
    refine ⟨hfound, ih (hfound.after (htimely x List.mem_cons_self) (haud x List.mem_cons_self))
      hfirst (fun y hy => htimely y (List.mem_cons_of_mem x hy)) hrest
      fun y hy => haud y (List.mem_cons_of_mem x hy)⟩

theorem leaseInv_run (hreadings : Nondecreasing events)
    (haud : ∀ x ∈ TransferServer.transactions .initial events, x.audited = true) :
    Throughout Execution.after (fun s x => LeaseInv x.clock s) .empty
      (TransferServer.transactions .initial events) := by
  obtain ⟨htimely, hodd⟩ := @transactions_timely .initial events
    (fun entry hent => absurd hent List.not_mem_nil) hreadings
  cases hhis : TransferServer.transactions .initial events with
  | nil => trivial
  | cons x =>
    rw [hhis] at htimely hodd haud
    refine leaseInv_throughout (LeaseInv.empty x.clock) ?_ htimely hodd haud
    exact List.forall_mem_cons.mpr ⟨le_rfl, (List.pairwise_cons.mp hodd).1⟩

end Readings

section Runs

variable {token : String} {s : Store} {x : Execution}

/-- Whether a transaction committed with an outcome that satisfies `p`. -/
def returned {α : Type} (p : α → Bool) : Except DbError (Store × α) → Bool
  | .ok (_, outcome) => p outcome
  | .error _ => false

/-- A transaction completes or cancels the lease, deletes its share, or is a later begin that
returns a lease under the same token. -/
def EndsLease (token : String) (s : Store) (x : Execution) : Bool :=
  match x.call with
  | .completeLease other =>
    other = token && returned (· ≠ .notFound) (completeTransferLeaseAndAudit x.now other s)
  | .cancelLease other =>
    other = token && returned (· = .cancelled) (cancelTransferLease x.now other s)
  | .deleteShare id => (s.leaseGrant token).any fun row => row.2.shareId = id
  | .beginLease key unlockToken other => other = token &&
    returned TransferLeaseBeginOutcome.leased
      (beginAuthorizedTransferLease x.now key unlockToken other s)
  | _ => false

/-- A lease transaction begins with a cleanup, which must not find the grant of the lease counted
and expired while the lease is live. -/
def Sheltered (token : String) (s : Store) (x : Execution) : Prop :=
  x.call.servesLease = true → ∀ row ∈ s.leaseGrant token, row.2.counted = true →
    x.now < row.1.expiresAt → x.now < row.2.expiresAt

instance (token : String) (s : Store) (x : Execution) : Decidable (Sheltered token s x) :=
  inferInstanceAs (Decidable (_ → _))

theorem LeaseInv.live {clock : Instant} (h : LeaseInv clock s) (hshe : Sheltered token s x)
    (hserves : x.call.servesLease = true) (hlease : lease ∈ s.leases)
    (htok : lease.tokenHash = token) (hlive : x.now < lease.expiresAt) : Live x.now token s := by
  obtain ⟨grant, hgr, hid⟩ := h.grant_of lease hlease
  refine ⟨lease, hlease, htok, hlive, grant, hgr, hid, ?_⟩
  cases hcounted : grant.counted with
  | true => exact hshe hserves _ (leaseGrant_eq_some hlease htok hgr hid) hcounted hlive
  | false => exact hlive.trans_le (h.outlives lease hlease grant hgr hid hcounted)

/-- A lease that is live at the reading of a lease transaction survives it. -/
theorem Live.after (h : Live x.now token s) (hinv : LeaseInv x.clock s)
    (hserves : x.call.servesLease = true) (hopen : EndsLease token s x = false) :
    Live x.now token (x.after s) := by
  rcases x with ⟨call, now, clock⟩
  dsimp only at h hinv hserves
  cases call with
  | beginLease =>
    exact committed_inv (P := Live now token) h fun _ _ => h.beginLease
  | completeLease other =>
    by_cases hoth : other = token
    · obtain ⟨s', outcome, hcomplete, hcounted⟩ := h.completes hinv
      subst hoth
      rcases hcounted with rfl | rfl <;> simp [EndsLease, returned, hcomplete] at hopen
    · exact committed_inv (P := Live now token) h fun _ _ => h.completeLease hoth
  | cancelLease other =>
    by_cases hoth : other = token
    · obtain ⟨s', hcan⟩ := h.cancels
      subst hoth
      simp [EndsLease, returned, hcan] at hopen
    · exact committed_inv (P := Live now token) h fun _ _ => h.cancelLease hoth
  | heartbeatLease =>
    exact committed_inv (P := Live now token) h fun _ _ => h.heartbeatLease hinv.capped
  | _ => cases hserves

/-- Outside the lease transactions only the deletion of its share removes a lease. -/
theorem StoredLease.after (h : StoredLease token s) (hserves : x.call.servesLease = false)
    (hopen : EndsLease token s x = false) : StoredLease token (x.after s) := by
  rcases x with ⟨call, now, clock⟩
  dsimp only at hserves
  obtain ⟨lease, hlease, htok⟩ := h
  by_cases hdel : ∃ id, call = .deleteShare id
  · obtain ⟨id, rfl⟩ := hdel
    refine ⟨lease, mem_deleteGrantsWhere_leases.mpr ⟨hlease, fun grant hgr hid => ?_⟩, htok⟩
    have hfound := leaseGrant_eq_some hlease htok hgr hid
    simpa [EndsLease, hfound] using hopen
  · have hkeeps := execute_transfers now s call hserves (not_exists.mp hdel)
    exact ⟨lease, hkeeps.leases_eq ▸ hlease, htok⟩

/-- A token gets a lease only from a begin that returns one. -/
theorem stored_of_after (h : StoredLease token (x.after s)) (hopen : EndsLease token s x = false) :
    StoredLease token s := by
  rcases x with ⟨call, now, clock⟩
  by_cases hserves : call.servesLease = true
  · cases call with
    | beginLease key unlockToken other =>
      simp only [Execution.after, TransferCall.execute] at h
      cases hbeg : beginAuthorizedTransferLease now key unlockToken other s with
      | error =>
        rw [hbeg] at h
        exact h
      | ok result =>
        obtain ⟨s', outcome⟩ := result
        rw [hbeg] at h
        refine ((begin_stored hbeg).2 token h).resolve_right ?_
        rintro ⟨hleased, rfl⟩
        simp [EndsLease, returned, hbeg, hleased] at hopen
    | completeLease other =>
      exact (KeepsTokens.statements (complete_statements now other s)).stored h
    | cancelLease other => exact (KeepsTokens.statements (cancel_statements now other s)).stored h
    | heartbeatLease other =>
      exact (KeepsTokens.statements (heartbeat_statements now other s)).stored h
    | _ => cases hserves
  · by_cases hdel : ∃ id, call = .deleteShare id
    · obtain ⟨id, rfl⟩ := hdel
      exact (KeepsTokens.statements (.single (.deleteGrants _))).stored h
    · have hkeeps := execute_transfers now s call (by simpa using hserves) (not_exists.mp hdel)
      obtain ⟨lease, hlease, htok⟩ := h
      exact ⟨lease, hkeeps.leases_eq ▸ hlease, htok⟩

/-- The stored `expires_at` of a lease. -/
def storedExpiry (token : String) (s : Store) : Option Instant :=
  (s.leases.find? token).map Lease.expiresAt

/-- The `expires_at` a lease has in the last state of a history in which it is stored. -/
def lastExpiry (token : String) : Store → List Execution → Option Instant
  | s, [] => storedExpiry token s
  | s, x :: history => (lastExpiry token (x.after s) history).or (storedExpiry token s)

theorem storedExpiry_eq_some :
    storedExpiry token s = some expires ↔
      ∃ lease ∈ s.leases, lease.tokenHash = token ∧ lease.expiresAt = expires := by
  simp only [storedExpiry, Option.map_eq_some_iff, find?_eq_some_iff, and_assoc]

theorem storedExpiry_isSome : (storedExpiry token s).isSome = true ↔ StoredLease token s := by
  simp only [Option.isSome_iff_exists, storedExpiry_eq_some, StoredLease]
  constructor
  · rintro ⟨-, lease, hlease, htok, -⟩
    exact ⟨lease, hlease, htok⟩
  · rintro ⟨lease, hlease, htok⟩
    exact ⟨_, lease, hlease, htok, rfl⟩

theorem storedExpiry_eq_none (h : ¬StoredLease token s) : storedExpiry token s = none := by
  simpa using mt storedExpiry_isSome.mp h

theorem lastExpiry_isSome (h : StoredLease token s) (history : List Execution) :
    (lastExpiry token s history).isSome = true := by
  cases history with
  | nil => exact storedExpiry_isSome.mpr h
  | cons =>
    rw [lastExpiry, Option.isSome_or, storedExpiry_isSome.mpr h, Bool.or_true]

/-- A lease that is gone stays away. -/
theorem lastExpiry_eq_none {history : List Execution} (h : ¬StoredLease token s)
    (hopen : Throughout Execution.after (fun s x => EndsLease token s x = false) s
      history) : lastExpiry token s history = none := by
  induction history generalizing s with
  | nil => exact storedExpiry_eq_none h
  | cons x history ih =>
    obtain ⟨hstep, hrest⟩ := hopen
    have haft : ¬StoredLease token (x.after s) := fun hstored => h (stored_of_after hstored hstep)
    rw [lastExpiry, storedExpiry_eq_none h, ih haft hrest, Option.or_none]

/-- A lease transaction works with a reading later than `reading` that is past the expiry stored
for the lease. -/
def Overtakes (reading : Instant) (token : String) (s : Store) (x : Execution) : Prop :=
  x.call.servesLease = true ∧ reading < x.now ∧
    (storedExpiry token s).any (fun expires => expires ≤ x.now) = true

instance (reading : Instant) (token : String) (s : Store) (x : Execution) :
    Decidable (Overtakes reading token s x) :=
  inferInstanceAs (Decidable (_ ∧ _))

/-- Unless it is overtaken, a lease whose last expiry lies after `reading` is still stored. -/
theorem storedExpiry_of_lastExpiry {reading : Instant} {history : List Execution}
    (h : StoredLease token s)
    (hinv : Throughout Execution.after (fun s x => LeaseInv x.clock s) s history)
    (hshe : Throughout Execution.after (Sheltered token) s history)
    (hopen : Throughout Execution.after (fun s x => EndsLease token s x = false) s history)
    (hinTime : Throughout Execution.after (fun s x => ¬Overtakes reading token s x) s
      history) (hlast : lastExpiry token s history = some expires) (hbef : reading < expires) :
    storedExpiry token (state Execution.after s history) = some expires := by
  induction history generalizing s with
  | nil => exact hlast
  | cons x history ih =>
    obtain ⟨hinvHere, hinvRest⟩ := hinv
    obtain ⟨hshelteredHere, hshelteredRest⟩ := hshe
    obtain ⟨hopenHere, hopenRest⟩ := hopen
    obtain ⟨hinTimeHere, hinTimeRest⟩ := hinTime
    rw [lastExpiry] at hlast
    have hkept : StoredLease token (x.after s) := by
      by_contra hgone
      rw [lastExpiry_eq_none hgone hopenRest, Option.none_or] at hlast
      cases hserves : x.call.servesLease with
      | false => exact hgone (h.after hserves hopenHere)
      | true =>
        have hnow : x.now < expires := by
          by_contra hlate
          refine hinTimeHere ⟨hserves, hbef.trans_le (not_lt.mp hlate), ?_⟩
          simpa [hlast] using hlate
        obtain ⟨lease, hlease, htok, rfl⟩ := storedExpiry_eq_some.mp hlast
        have hlive := hinvHere.live hshelteredHere hserves hlease htok hnow
        obtain ⟨lease', hlease', htok', -⟩ := hlive.after hinvHere hserves hopenHere
        exact hgone ⟨lease', hlease', htok'⟩
    refine ih hkept hinvRest hshelteredRest hopenRest hinTimeRest ?_
    obtain ⟨later, hlat⟩ := Option.isSome_iff_exists.mp (lastExpiry_isSome hkept history)
    rw [hlat, Option.some_or] at hlast
    rw [hlat, hlast]

/-- In a run with nondecreasing readings whose begins name audited actions: a lease that a begin
has returned, and that was neither completed nor cancelled nor lost its share, is completed by a
completion that works with a reading before the lease's expiry, unless a lease transaction has met
its counted grant expired before it, or a transaction in between works with a later reading past
the expiry that is stored then. -/
theorem complete_before_expiry (events : List ServerEvent) (hreadings : Nondecreasing events)
    (haudited : ∀ x ∈ TransferServer.transactions .initial events, x.audited = true)
    (earlier between later : List Execution) (start finish : Execution)
    (hrun : TransferServer.transactions .initial events =
      earlier ++ start :: (between ++ finish :: later))
    (key : TransferKey) (unlockToken : Option String) (token : String)
    (hstart : start.call = .beginLease key unlockToken token)
    (hleased : returned TransferLeaseBeginOutcome.leased
      (beginAuthorizedTransferLease start.now key unlockToken token
        (state Execution.after .empty earlier)) = true)
    (hopen : Throughout Execution.after (fun s x => EndsLease token s x = false)
      (state Execution.after .empty (earlier ++ [start])) between)
    (hfinish : finish.call = .completeLease token)
    (hsheltered : Throughout Execution.after (Sheltered token)
      (state Execution.after .empty (earlier ++ [start])) (between ++ [finish]))
    (expires : Instant)
    (hexpires : lastExpiry token (state Execution.after .empty (earlier ++ [start])) between =
      some expires)
    (hbefore : finish.now < expires)
    (hinTime : Throughout Execution.after
      (fun s x => ¬Overtakes finish.now token s x)
      (state Execution.after .empty (earlier ++ [start])) between) :
    ∃ s' outcome, completeTransferLeaseAndAudit finish.now token
        (state Execution.after .empty (earlier ++ start :: between)) = .ok (s', outcome) ∧
      (outcome = .counted ∨ outcome = .alreadyCounted) := by
  have hinv := leaseInv_run hreadings haudited
  rw [hrun] at hinv
  -- the invariant and the condition on the stretch from the begin to the completion
  obtain ⟨-, hinvStart⟩ := throughout_append.mp hinv
  obtain ⟨hinvBetween, hinvFinish, -⟩ := throughout_append.mp hinvStart.2
  have hst : ∀ rest, state Execution.after .empty (earlier ++ start :: rest) =
      state Execution.after (start.after (state Execution.after .empty earlier))
        rest := by
    intro rest
    simp
  rw [hst] at hopen hsheltered hexpires hinTime ⊢
  obtain ⟨hshelteredBetween, hshelteredFinish, -⟩ := throughout_append.mp hsheltered
  have hstored : StoredLease token (start.after (state Execution.after .empty earlier)) := by
    rw [Execution.after, hstart, TransferCall.execute]
    cases hbeg : beginAuthorizedTransferLease start.now key unlockToken token
        (state Execution.after .empty earlier) with
    | error e =>
      rw [hbeg] at hleased
      cases hleased
    | ok result =>
      rw [hbeg] at hleased
      exact (begin_stored hbeg).1 hleased
  have hkept := storedExpiry_of_lastExpiry hstored hinvBetween hshelteredBetween hopen hinTime
    hexpires hbefore
  obtain ⟨lease, hlease, htok, rfl⟩ := storedExpiry_eq_some.mp hkept
  have hlive := hinvFinish.live hshelteredFinish (by rw [hfinish]; rfl) hlease htok hbefore
  exact hlive.completes hinvFinish

/-- A client begins the same transfer in two requests; the second is counted first. -/
def twoRequestsRun : List ServerEvent :=
  [.arrive (.createShare downloadShare none) 0, .execute 0 0,
    .arrive (.beginLease fileTransfer none "first") 0, .execute 0 0,
    .arrive (.beginLease fileTransfer none "second") (seconds 60), .execute 0 (seconds 60),
    .arrive (.completeLease "first") (seconds 70), .arrive (.completeLease "second") (seconds 80),
    .execute 1 (seconds 90), .execute 0 (seconds 100)]

theorem complete_before_expiry_twoRequests :
    ∃ s' outcome, completeTransferLeaseAndAudit (seconds 70) "first"
        (state Execution.after .empty
          ((TransferServer.transactions .initial twoRequestsRun).take 4)) = .ok (s', outcome) ∧
      (outcome = .counted ∨ outcome = .alreadyCounted) :=
  complete_before_expiry twoRequestsRun (by decide) (by decide)
    ((TransferServer.transactions .initial twoRequestsRun).take 1)
    (((TransferServer.transactions .initial twoRequestsRun).drop 2).take 2) []
    ⟨.beginLease fileTransfer none "first", 0, 0⟩
    ⟨.completeLease "first", seconds 70, seconds 100⟩ rfl fileTransfer none "first" rfl (by decide)
    (by decide) rfl (by decide) (seconds 900) (by decide) (by decide) (by decide)

/-- A client resumes a transfer ten minutes after it was counted. -/
def resumedRun : List ServerEvent :=
  [.arrive (.createShare downloadShare none) 0, .execute 0 0,
    .arrive (.beginLease fileTransfer none "first") 0, .execute 0 0,
    .arrive (.completeLease "first") 0, .execute 0 0,
    .arrive (.beginLease fileTransfer none "second") (seconds 600), .execute 0 (seconds 600)]

/-- The grant expires fifteen minutes after the count and takes the resumed lease with it, nine
minutes before the lease's own expiry. -/
theorem resumed_lease_lost :
    Nondecreasing resumedRun ∧
    returned (· = .alreadyCounted) (beginAuthorizedTransferLease (seconds 600) fileTransfer none
      "second" (state Execution.after .empty
        ((TransferServer.transactions .initial resumedRun).take 3))) = true ∧
    storedExpiry "second" (TransferServer.run resumedRun).store = some (seconds 1500) ∧
    returned (· = .notFound) (completeTransferLeaseAndAudit (seconds 960) "second"
      (TransferServer.run resumedRun).store) = true := by
  decide

end Runs

end VaultLink
