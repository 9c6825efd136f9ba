import VaultLink.CountingLedger
import VaultLink.LeaseCompletion

/-!
# Expiry of counted grants and of leases

Four transactions move the expiry of a grant or of a lease, each under its own condition. Over
a whole run they leave two bounds: once a grant is counted its row never changes until it is
deleted, so repeated transfers are free only up to one instant, and no lease outlives the
maximum lifetime, however often it is renewed.
-/
namespace VaultLink

open TransferServer
open History
open Execution
open KeyedTable

section Statements

/-- The row comes from a row of the store: unchanged, or from one that was not counted. -/
def StemsFrom (s : Store) (row : Grant) : Prop :=
  ∃ grant ∈ s.grants, grant.id = row.id ∧ (row = grant ∨ grant.counted = false)

/-- No lease is valid for longer than the maximum lifetime. -/
def LeasesCapped (s : Store) : Prop :=
  ∀ lease ∈ s.leases, lease.expiresAt ≤ lease.createdAt + transferLeaseMaxLifetime

/-- What every statement of a lease transaction keeps unless it inserts a grant. -/
structure Prolongs (s s' : Store) : Prop where
  grants : ∀ row ∈ s'.grants, StemsFrom s row
  leases : LeasesCapped s → LeasesCapped s'

namespace Prolongs

variable {s s' s'' : Store} {now : Instant}

theorem of_subset (hgrants : ∀ row ∈ s'.grants, row ∈ s.grants)
    (hleases : ∀ lease ∈ s'.leases, lease ∈ s.leases) : Prolongs s s' :=
  ⟨fun row hrow => ⟨row, hgrants row hrow, rfl, .inl rfl⟩,
    fun h lease hlease => h lease (hleases lease hlease)⟩

theorem refl (s : Store) : Prolongs s s := of_subset (fun _ h => h) fun _ h => h

theorem trans (h : Prolongs s s') (h' : Prolongs s' s'') :
    Prolongs s s'' := by
  refine ⟨fun row hrow => ?_, fun hs => h'.leases (h.leases hs)⟩
  obtain ⟨grant', hgr', hid', hrow'⟩ := h'.grants row hrow
  obtain ⟨grant, hgr, hid, hsame⟩ := h.grants grant' hgr'
  refine ⟨grant, hgr, hid.trans hid', ?_⟩
  obtain rfl | hunct := hsame
  · exact hrow'
  · exact .inr hunct

theorem deleteGrantsWhere (p : Grant → Bool) (s : Store) :
    Prolongs s (VaultLink.deleteGrantsWhere p s) :=
  of_subset (fun _ h => (mem_deleteWhere.mp h).1)
    fun _ h => (mem_deleteWhere.mp h).1

/-- The expiry of a grant moves only before it is counted. -/
theorem setGrantExpiry {grant : Grant} (hgr : grant ∈ s.grants) (hunct : grant.counted = false)
    (expires : Instant) : Prolongs s (VaultLink.setGrantExpiry grant.id expires s) := by
  refine ⟨fun row hrow => ?_, fun h => h⟩
  obtain ⟨old, hold, rfl⟩ := (mem_updateWhere).mp hrow
  split
  · rename_i hid
    obtain rfl : old = grant := s.grants.eq_of_key_eq hold hgr (of_decide_eq_true hid)
    exact ⟨old, hold, rfl, .inr hunct⟩
  · exact ⟨old, hold, rfl, .inl rfl⟩

theorem insertLease {token : String} {grantId : ℕ}
    (h : VaultLink.insertLease token grantId now s = .ok s') : Prolongs s s' := by
  obtain ⟨-, leases, hins, rfl⟩ := insertLease_inserts h
  refine ⟨fun row hrow => ⟨row, hrow, rfl, .inl rfl⟩, fun hcap lease hlease => ?_⟩
  obtain rfl | hlease := (mem_insert? hins).mp hlease
  · have httl : transferSessionTtl ≤ transferLeaseMaxLifetime := by decide
    exact add_le_add_right httl now
  · exact hcap lease hlease

/-- A renewal up to the end of the lease's own lifetime. -/
theorem renewLease {lease : Lease} (hlease : lease ∈ s.leases) {expires : Instant}
    (hexp : expires ≤ lease.createdAt + transferLeaseMaxLifetime) (now : Instant) :
    Prolongs s (VaultLink.renewLease lease.tokenHash now expires s) := by
  refine ⟨fun row hrow => ⟨row, hrow, rfl, .inl rfl⟩, fun hcap row hrow => ?_⟩
  obtain ⟨old, hold, rfl⟩ := (mem_updateWhere).mp hrow
  split
  · rename_i htok
    obtain rfl : old = lease := s.leases.eq_of_key_eq hold hlease (of_decide_eq_true htok)
    exact hexp
  · exact hcap old hold

theorem countGrant {grant : Grant} (h : VaultLink.countGrant now grant s = .ok s') :
    Prolongs s s' := by
  obtain ⟨-, rfl⟩ := countGrant_ok h
  refine ⟨fun row hrow => ?_, fun hcap => hcap⟩
  obtain ⟨old, hold, rfl⟩ := (mem_updateWhere).mp hrow
  split
  · rename_i hsel
    have hunct : old.id = grant.id ∧ old.counted = false := by simpa using hsel
    exact ⟨old, hold, rfl, .inr hunct.2⟩
  · exact ⟨old, hold, rfl, .inl rfl⟩

theorem statements (h : LeaseStatements s s') : Prolongs s s' := by
  induction h with
  | refl => exact .refl s
  | tail _ hsta ih =>
    refine ih.trans ?_
    cases hsta with
    | deleteLeases => exact .of_subset (fun _ h => h) fun _ h => (mem_deleteWhere.mp h).1
    | deleteGrants => exact .deleteGrantsWhere _ _
    | countGrant _ _ hcount => exact .countGrant hcount
    | renewLease hlease hexp => exact .renewLease hlease hexp _
    | setGrantExpiry hgr hcounted => exact .setGrantExpiry hgr hcounted _
    | audits => exact .of_subset (fun _ h => h) fun _ h => h

end Prolongs

end Statements

section Transactions

variable {now : Instant} {key : TransferKey} {unlockToken : Option String} {token : String}
  {s s' : Store}

/-- A begin that finds its transfer counted serves a grant that has not expired. -/
theorem begin_alreadyCounted
    (h : beginAuthorizedTransferLease now key unlockToken token s = .ok (s', .alreadyCounted)) :
    ∃ grant ∈ s.grants, (∀ lease ∈ s'.leases, lease.tokenHash = token → lease.grantId = grant.id) ∧
      now < grant.expiresAt := by
  cases beginsLease h with
  | counted hacc hlease =>
    obtain ⟨grant, hgr, rfl, -, hlive⟩ := transferAccessState_existingGrant _ _ _ _ hacc
    refine ⟨grant, (mem_cleanup_grants.mp hgr).1, fun lease hstored htok => ?_, hlive⟩
    obtain ⟨-, leases, hins, rfl⟩ := insertLease_inserts hlease
    obtain rfl | hold := (mem_insert? hins).mp hstored
    · rfl
    · exact absurd htok ((insert?_some hins).2 lease hold)

/-- A begin may insert one grant, when the transfer is available. -/
theorem begin_prolongs {outcome : TransferLeaseBeginOutcome}
    (h : beginAuthorizedTransferLease now key unlockToken token s = .ok (s', outcome)) :
    (∀ row ∈ s'.grants, StemsFrom s row ∨
      transferAccessState key unlockToken now (cleanupTransferState now s) = .available ∧
        row.id = nextRowid ((cleanupTransferState now s).grants.rows.map Grant.id)) ∧
    (LeasesCapped s → LeasesCapped s') := by
  have hclean := Prolongs.statements (s := s) (cleanup_statements .refl now)
  have hkept (hs : Prolongs s s') : (∀ row ∈ s'.grants, StemsFrom s row ∨
      transferAccessState key unlockToken now (cleanupTransferState now s) = .available ∧
        row.id = nextRowid ((cleanupTransferState now s).grants.rows.map Grant.id)) ∧
      (LeasesCapped s → LeasesCapped s') := ⟨fun row hrow => .inl (hs.grants row hrow), hs.leases⟩
  cases beginsLease h with
  | unauthorized => exact hkept (.refl s)
  | limitReached | shareUnavailable => exact hkept hclean
  | counted _ hlease => exact hkept (hclean.trans (.insertLease hlease))
  | joined hacc hlease =>
    obtain ⟨grant, hgr, rfl, hunct, -⟩ := transferAccessState_existingGrant _ _ _ _ hacc
    exact hkept ((hclean.trans (.setGrantExpiry hgr hunct _)).trans (.insertLease hlease))
  | granted hacc hgr hlease =>
    obtain ⟨-, -, grants, hins, rfl⟩ := insertGrant_row hgr
    have hleased := Prolongs.insertLease hlease
    refine ⟨fun row hrow => ?_, fun hcap => hleased.leases (hclean.leases hcap)⟩
    obtain ⟨-, leases, -, rfl⟩ := insertLease_inserts hlease
    obtain rfl | hrow := (mem_insert? hins).mp hrow
    · exact .inr ⟨hacc, rfl⟩
    · exact .inl (hclean.grants row hrow)

end Transactions

section Runs

variable {s : Store} {x : Execution}

/-- Every transaction leaves rows that stem from the rows before it, or inserts a grant. -/
theorem after_prolongs (s : Store) (x : Execution) :
    (∀ row ∈ (x.after s).grants, StemsFrom s row ∨ x.insertedGrant s = some row.id) ∧
      (LeasesCapped s → LeasesCapped (x.after s)) := by
  have hkept (h : Prolongs s (x.after s)) :
      (∀ row ∈ (x.after s).grants, StemsFrom s row ∨ x.insertedGrant s = some row.id) ∧
        (LeasesCapped s → LeasesCapped (x.after s)) :=
    ⟨fun row hrow => .inl (h.grants row hrow), h.leases⟩
  by_cases hlease : x.call.servesLease = true
  · obtain ⟨call, now, clock⟩ := x
    cases call with
    | beginLease key unlockToken token =>
      simp only [after, TransferCall.execute, insertedGrant]
      cases hbeg : beginAuthorizedTransferLease now key unlockToken token s with
      | error error => exact ⟨fun row hrow => .inl ⟨row, hrow, rfl, .inl rfl⟩, fun h => h⟩
      | ok result =>
        obtain ⟨hgrants, hleases⟩ := begin_prolongs hbeg
        refine ⟨fun row hrow => (hgrants row hrow).imp_right ?_, hleases⟩
        rintro ⟨hacc, hid⟩
        simp only [hacc, hid]
    | completeLease token => exact hkept (.statements (complete_statements now token s))
    | cancelLease token => exact hkept (.statements (cancel_statements now token s))
    | heartbeatLease token => exact hkept (.statements (heartbeat_statements now token s))
    | _ => cases hlease
  · by_cases hdel : ∃ id, x.call = .deleteShare id
    · obtain ⟨id, hcall⟩ := hdel
      refine hkept ?_
      rw [after, hcall]
      exact Prolongs.trans (.deleteGrantsWhere _ _) (.of_subset (fun _ h => h) fun _ h => h)
    · have htransfers := execute_transfers x.now s x.call (by simpa using hlease)
        fun id hid => hdel ⟨id, hid⟩
      refine hkept (.of_subset (fun row hrow => ?_) fun lease hlease => ?_)
      · exact htransfers.grants_eq ▸ hrow
      · exact htransfers.leases_eq ▸ hlease

/-- The transaction deletes the grant: what is stored under its id afterwards, if anything, is a
grant that the transaction has inserted. -/
def DropsGrant (grant : Grant) (s : Store) (x : Execution) : Prop :=
  ∀ row ∈ (x.after s).grants, row.id = grant.id → x.insertedGrant s = some grant.id

/-- A counted grant stays as it is or is deleted. -/
theorem counted_stays {grant : Grant} (hgr : grant ∈ s.grants) (hcounted : grant.counted = true)
    (x : Execution) : grant ∈ (x.after s).grants ∨ DropsGrant grant s x := by
  by_cases hstays : grant ∈ (x.after s).grants
  · exact .inl hstays
  · refine .inr fun row hrow hid => ?_
    obtain ⟨old, hold, holdId, hsame⟩ | hinsd := (after_prolongs s x).1 row hrow
    · obtain rfl : old = grant := s.grants.eq_of_key_eq hold hgr (holdId.trans hid)
      obtain rfl | hunct := hsame
      · exact absurd hrow hstays
      · rw [hcounted] at hunct
        cases hunct
    · rw [hinsd, hid]

/-- Over any stretch of a run a counted grant stays as it is until it is deleted. -/
theorem counted_stays_throughout {grant : Grant} (hgr : grant ∈ s.grants)
    (hcounted : grant.counted = true) (between : List Execution) :
    grant ∈ (state after s between).grants ∨
      ∃ before drop rest, between = before ++ drop :: rest ∧
        DropsGrant grant (state after s before) drop := by
  induction between generalizing s with
  | nil => exact .inl hgr
  | cons x between ih =>
    obtain hstays | hdrops := counted_stays hgr hcounted x
    · obtain hend | ⟨before, drop, rest, rfl, hdrops⟩ := ih hstays
      · exact .inl hend
      · exact .inr ⟨x :: before, drop, rest, rfl, hdrops⟩
    · exact .inr ⟨[], x, between, rfl, hdrops⟩

/-- From the transaction that counts a grant on its row is fixed until the grant is deleted, and
a begin finds it counted only before the expiry it has had since. No lease is valid for longer
than the maximum lifetime. -/
theorem counted_expiry_fixed (events : List ServerEvent) :
    (∀ earlier count between later,
      transactions .initial events = earlier ++ count :: (between ++ later) →
      ∀ grant ∈ count.newlyCounted (state after .empty earlier),
        (∃ before drop rest, between = before ++ drop :: rest ∧ DropsGrant grant
          (state after .empty (earlier ++ count :: before)) drop) ∨
        grant ∈ (state after .empty (earlier ++ count :: between)).grants ∧
        ∀ key unlockToken token now s',
          beginAuthorizedTransferLease now key unlockToken token
            (state after .empty (earlier ++ count :: between)) =
              .ok (s', .alreadyCounted) →
          (∃ lease ∈ s'.leases, lease.tokenHash = token ∧ lease.grantId = grant.id) →
          now < grant.expiresAt) ∧
    ∀ earlier later, transactions .initial events = earlier ++ later →
      ∀ lease ∈ (state after .empty earlier).leases,
        lease.expiresAt ≤ lease.createdAt + transferLeaseMaxLifetime := by
  constructor
  · intro earlier count between later _ grant hcount
    obtain ⟨hstored, hsel⟩ := List.mem_filter.mp hcount
    have hcounted : grant.counted = true := by
      simp only [Bool.and_eq_true] at hsel
      exact hsel.1.1
    have hsplit : ∀ stretch, state after .empty (earlier ++ count :: stretch) =
        state after (count.after (state after .empty earlier))
          stretch := fun stretch => by simp
    obtain hstays | hdrops := counted_stays_throughout hstored hcounted between
    · refine .inr ⟨by rwa [hsplit], ?_⟩
      rintro key unlockToken token now s' hbeg ⟨lease, hlease, htok, hgrantId⟩
      obtain ⟨found, hfound, hserves, hlive⟩ := begin_alreadyCounted hbeg
      have hid : found.id = grant.id := (hserves lease hlease htok).symm.trans hgrantId
      rw [hsplit] at hfound
      obtain rfl : found = grant := eq_of_key_eq _ hfound hstays hid
      exact hlive
    · obtain ⟨before, drop, rest, hbet, hdrops⟩ := hdrops
      exact .inl ⟨before, drop, rest, hbet, by rwa [hsplit]⟩
  · intro earlier later _
    exact state_invariant (fun s x h => (after_prolongs s x).2 h)
      (fun lease hlease => absurd hlease (not_mem_empty lease)) earlier

/-- The row with which the transfer of `resumedRun` is counted. -/
def resumedGrant : Grant := ⟨1, "client", 1, "file", "download", true, 0, seconds 900⟩

theorem counted_expiry_fixed_resumed :
    resumedGrant ∈ (run resumedRun).store.grants ∧
      returned (· = .alreadyCounted) (beginAuthorizedTransferLease (seconds 600) fileTransfer none
        "second" (state after .empty
          ((transactions .initial resumedRun).take 3))) = true := by
  refine ⟨?_, by decide⟩
  obtain ⟨before, drop, rest, hbet, hdrops⟩ | ⟨hstays, -⟩ :=
    (counted_expiry_fixed resumedRun).1
      ((transactions .initial resumedRun).take 2)
      ⟨.completeLease "first", 0, 0⟩
      [⟨.beginLease fileTransfer none "second", seconds 600, seconds 600⟩] [] rfl resumedGrant
      (by decide)
  · obtain ⟨rfl, rfl, rfl⟩ : before = [] ∧
        drop = ⟨.beginLease fileTransfer none "second", seconds 600, seconds 600⟩ ∧ rest = [] := by
      cases before with
      | nil => simpa [eq_comm] using hbet
      | cons first before => simp at hbet
    exact absurd (hdrops resumedGrant (by decide) rfl) (by decide)
  · exact hstays

end Runs

end VaultLink
