import Mathlib.Data.Set.Function
import VaultLink.DownloadLimit
import VaultLink.GrantRows
import VaultLink.ShareRows

/-!
# The ledger of counted transfers

Grants are counted by completions and by capped heartbeats, several leases of one grant race to
do so, and both grants and shares disappear while their ids are handed out again. The ledger
numbers every grant and every share ever made and writes down each change of a grant from
uncounted to counted, read off the stored rows. Against it the counters are exact: no grant
appears twice, a stored share's counter is the number of its entries, and the monthly totals of
an action add up to the entries of that action.
-/
namespace VaultLink

open TransferCall
open TransferServer
open Execution
open KeyedTable

section Ledger

/-- A grant at the moment it was counted: its number and its share's among all ever made. -/
structure CountedGrant where
  serial : ℕ
  share : ℕ
  action : String

/-- A store with the numbers of its grants and shares and all counted grants so far. -/
structure Ledger where
  store : Store
  grantsMade : ℕ
  sharesMade : ℕ
  grantSerial : ℕ → ℕ
  shareSerial : ℕ → ℕ
  counted : List CountedGrant

/-- The id of the grant a transaction inserts, if any. -/
def Execution.insertedGrant (s : Store) (x : Execution) : Option ℕ :=
  match x.call with
  | .beginLease key unlockToken leaseToken =>
    match beginAuthorizedTransferLease x.now key unlockToken leaseToken s,
        transferAccessState key unlockToken x.now (cleanupTransferState x.now s) with
    | .ok _, .available =>
      some (nextRowid ((cleanupTransferState x.now s).grants.rows.map Grant.id))
    | _, _ => none
  | _ => none

/-- The id of the share a transaction creates, if any. -/
def Execution.createdShare (s : Store) (x : Execution) : Option ℕ :=
  match x.call with
  | .createShare new detail =>
    match createShare x.now new detail s with
    | .ok (_, id) => some id
    | .error _ => none
  | _ => none

/-- The rows a transaction changes from uncounted to counted. A row inserted under the id of a
deleted one is another grant. -/
def Execution.newlyCounted (s : Store) (x : Execution) : List Grant :=
  (x.after s).grants.rows.filter fun grant => grant.counted &&
    s.grants.any (fun old => old.id = grant.id && !old.counted) &&
    x.insertedGrant s ≠ some grant.id

namespace Ledger

def initial : Ledger := ⟨.empty, 0, 0, fun _ => 0, fun _ => 0, []⟩

/-- The numbers after a row was inserted under `id`, if any was. -/
def number (serial : ℕ → ℕ) (next : ℕ) : Option ℕ → ℕ → ℕ
  | none => serial
  | some id => Function.update serial id next

def record (ledger : Ledger) (x : Execution) : Ledger :=
  let inserted := x.insertedGrant ledger.store
  let created := x.createdShare ledger.store
  let grantSerial := number ledger.grantSerial ledger.grantsMade inserted
  let shareSerial := number ledger.shareSerial ledger.sharesMade created
  { store := x.after ledger.store
    grantsMade := ledger.grantsMade + inserted.toList.length
    sharesMade := ledger.sharesMade + created.toList.length
    grantSerial
    shareSerial
    counted := ledger.counted ++ (x.newlyCounted ledger.store).map fun grant =>
      ⟨grantSerial grant.id, shareSerial grant.shareId, grant.action⟩ }

/-- The ledger of a run. -/
def ofRun (events : List ServerEvent) : Ledger :=
  (transactions .initial events).foldl record initial

theorem record_store (ledger : Ledger) (history : List Execution) :
    (history.foldl record ledger).store = History.state after ledger.store history := by
  induction history generalizing ledger with
  | nil => rfl
  | cons x history ih => exact ih _

theorem ofRun_store (events : List ServerEvent) :
    (ofRun events).store = (run events).store := by
  rw [run_store, ofRun, record_store]
  rfl

end Ledger

/-- The grants of a share that were ever counted. -/
def countedOfShare (counted : List CountedGrant) (share : ℕ) : ℕ :=
  counted.countP fun entry => entry.share = share

/-- The grants of an action that were ever counted. -/
def countedOfAction (counted : List CountedGrant) (action : String) : ℕ :=
  counted.countP fun entry => entry.action = action

/-- `transfer_monthly_counts` summed over all months of an action. -/
def Store.monthlyTotal (s : Store) (action : String) : ℕ :=
  s.monthlyCounts.sum (fun row => row.action = action) MonthlyCount.count

/-- Whether a completion returns `Counted` or a heartbeat `CappedAndCounted`. -/
def Execution.returnsCounted (s : Store) (x : Execution) : Bool :=
  match x.call with
  | .completeLease token =>
    match completeTransferLeaseAndAudit x.now token s with
    | .ok (_, outcome) => outcome = .counted
    | .error _ => false
  | .heartbeatLease token =>
    match heartbeatTransferLeaseAndAudit x.now token s with
    | .ok (_, outcome) => outcome = .cappedAndCounted
    | .error _ => false
  | _ => false

end Ledger

section Steps

/-- The grants, counters and totals of `s'` are those of `s`, or fewer. -/
structure CountsNothing (s s' : Store) : Prop where
  grants : ∀ grant' ∈ s'.grants, ∃ grant ∈ s.grants, grant.SameAs grant'
  shares : ∀ share' ∈ s'.shares, ∃ share ∈ s.shares, share'.id = share.id ∧
    share'.downloadCount = share.downloadCount
  monthlyCounts_eq : s'.monthlyCounts = s.monthlyCounts

theorem KeepsGrants.countsNothing {s s' : Store} (h : KeepsGrants s s') : CountsNothing s s' :=
  ⟨h.grants, fun share hsh => ⟨share, h.shares_eq ▸ hsh, rfl, rfl⟩, h.monthlyCounts_eq⟩

/-- What a transaction does to the things the ledger is about. -/
inductive LedgerStep (s : Store) (x : Execution) : Prop
  | quiet (hinsd : x.insertedGrant s = none) (hcreated : x.createdShare s = none)
      (h : CountsNothing s (x.after s))
  | inserts (grant : Grant) (hinsd : x.insertedGrant s = some grant.id)
      (hcreated : x.createdShare s = none) (h : InsertsGrant s (x.after s) grant)
  | creates (row : Share) (hinsd : x.insertedGrant s = none)
      (hcreated : x.createdShare s = some row.id) (hnew : row.downloadCount = 0)
      (hins : s.shares.insert? row = some (x.after s).shares)
      (hgrants : (x.after s).grants = s.grants)
      (hmon : (x.after s).monthlyCounts = s.monthlyCounts)
  | counts (grant : Grant) (hinsd : x.insertedGrant s = none)
      (hcreated : x.createdShare s = none) (h : CountsGrant x.now s (x.after s) grant)

variable {s : Store}

/-- Outside the lease transactions grants are only deleted. -/
theorem execute_grants (now : Instant) (s : Store) (call : TransferCall)
    (hlease : call.servesLease = false) :
    (∀ grant ∈ (call.execute now s).grants, grant ∈ s.grants) ∧
      (call.execute now s).monthlyCounts = s.monthlyCounts := by
  by_cases hdel : ∃ id, call = .deleteShare id
  · obtain ⟨id, rfl⟩ := hdel
    exact ⟨fun grant hgr => (mem_deleteWhere.mp hgr).1, rfl⟩
  · have hkeeps := execute_transfers now s call hlease (not_exists.mp hdel)
    exact ⟨fun grant hgr => hkeeps.grants_eq ▸ hgr, hkeeps.monthlyCounts_eq⟩

/-- Outside the lease transactions counters only disappear, with their shares, or start at
zero. -/
theorem execute_counts (now : Instant) (s : Store) (call : TransferCall)
    (hlease : call.servesLease = false) (hcreate : ∀ new detail, call ≠ .createShare new detail) :
    CountsNothing s (call.execute now s) := by
  obtain ⟨hgrants, hmon⟩ := execute_grants now s call hlease
  refine ⟨fun grant hgr => ⟨grant, hgrants grant hgr, .refl grant⟩, ?_, hmon⟩
  intro share' hsh'
  have hfind' : (call.execute now s).shares.find? share'.id = some share' :=
    find?_eq_some_iff.mpr ⟨hsh', rfl⟩
  cases hfind : s.shares.find? share'.id with
  | none =>
    obtain ⟨-, new, detail, -, hcall, -⟩ := execute_share_new now s call hfind hfind'
    exact absurd hcall (hcreate new detail)
  | some share =>
    obtain ⟨hsh, hid⟩ := find?_some hfind
    refine ⟨share, hsh, hid.symm, ?_⟩
    rcases execute_share now s call hfind with hdel | ⟨found, hfound, hstep⟩
    · rw [hdel] at hsh'
      have hoth := (mem_deleteWhere.mp hsh').2
      simp at hoth
    · cases hfind'.symm.trans hfound
      exact hstep.count_eq hlease

/-- A rolled back transaction does nothing to the ledger. -/
theorem LedgerStep.of_after_eq {x : Execution} (hinsd : x.insertedGrant s = none)
    (hcreated : x.createdShare s = none) (h : x.after s = s) : LedgerStep s x := by
  refine .quiet hinsd hcreated ?_
  rw [h]
  exact (KeepsGrants.refl s).countsNothing

theorem ledgerStep_begin (now clock : Instant) (key : TransferKey) (unlockToken : Option String)
    (token : String) : LedgerStep s ⟨.beginLease key unlockToken token, now, clock⟩ := by
  cases hres : beginAuthorizedTransferLease now key unlockToken token s with
  | error =>
    refine .of_after_eq ?_ rfl ?_
    · simp only [insertedGrant, hres]
    · simp only [after, execute, hres, committed]
  | ok result =>
    obtain ⟨s', outcome⟩ := result
    have haft : after s ⟨.beginLease key unlockToken token, now, clock⟩ = s' := by
      simp only [after, execute, hres, committed]
    rcases begin_grants hres with ⟨hacc, hkeeps⟩ | ⟨hacc, grant, hinserts, hid⟩
    · refine .quiet ?_ rfl (haft ▸ hkeeps.countsNothing)
      simp only [insertedGrant, hres, transferAccessState_cleanup]
      split
      · rename_i havailable
        exact absurd havailable hacc
      · rfl
    · refine .inserts grant ?_ rfl (haft ▸ hinserts)
      simp only [insertedGrant, hres, transferAccessState_cleanup, hacc, hid]

/-- A transaction that counts one grant or none. -/
theorem LedgerStep.of_counting {α : Type} {x : Execution} {result : Except DbError (Store × α)}
    (hinsd : x.insertedGrant s = none) (hcreated : x.createdShare s = none)
    (haft : x.after s = committed s result) (h : ∀ s' outcome, result = .ok (s', outcome) →
      KeepsGrants s s' ∨ ∃ grant, CountsGrant x.now s s' grant) : LedgerStep s x := by
  cases result with
  | error => exact .of_after_eq hinsd hcreated haft
  | ok result =>
    obtain hkeeps | ⟨grant, hcounts⟩ := h result.1 result.2 rfl
    · exact .quiet hinsd hcreated (haft ▸ hkeeps.countsNothing)
    · exact .counts grant hinsd hcreated (haft ▸ hcounts)

theorem ledgerStep_createShare (now clock : Instant) (new : NewShare) (detail : Option String) :
    LedgerStep s ⟨.createShare new detail, now, clock⟩ := by
  cases hres : createShare now new detail s with
  | error =>
    refine .of_after_eq rfl ?_ ?_
    · simp only [createdShare, hres]
    · simp only [after, execute, hres, committed]
  | ok result =>
    obtain ⟨s', id⟩ := result
    obtain ⟨row, shares, audit, hins, rfl, rfl, -, hcount, -⟩ := createShare_inserts hres
    have haft : after s ⟨.createShare new detail, now, clock⟩ =
        { s with shares, audit } := by
      simp only [after, execute, hres, committed]
    refine .creates row rfl ?_ hcount ?_ ?_ ?_
    · simp only [createdShare, hres]
    · rw [haft, hins]
    · rw [haft]
    · rw [haft]

theorem ledgerStep (s : Store) (x : Execution) : LedgerStep s x := by
  rcases x with ⟨call, now, clock⟩
  cases call with
  | beginLease key unlockToken token => exact ledgerStep_begin now clock key unlockToken token
  | completeLease =>
    exact .of_counting rfl rfl rfl fun _ _ h => (complete_grants h).imp And.right And.right
  | heartbeatLease =>
    exact .of_counting rfl rfl rfl fun _ _ h => (heartbeat_grants h).imp And.right And.right
  | createShare new detail => exact ledgerStep_createShare now clock new detail
  | cancelLease =>
    refine .quiet rfl rfl (committed_inv (P := CountsNothing s) (KeepsGrants.refl s).countsNothing
      fun s' outcome h => ?_)
    exact (cancel_grants h).countsNothing
  | beginReservation | extendReservation | commitReservation | cancelReservation | deleteShare
  | renamePaths | deactivatePaths | setShareActive | setSharePassword | updateShareControls
  | createUnlockSession => exact .quiet rfl rfl (execute_counts _ s _ rfl (by simp))

end Steps

section Totals

variable {s s' : Store} {action : String}

theorem auditedAction_of_ok {row : AuditAction}
    (h : requiredTransferAuditAction action = .ok row) :
    (action = "download" || action = "zip_download" || action = "preview") = true := by
  unfold requiredTransferAuditAction at h
  split_ifs at h <;> simp_all

/-- Counting a transfer of an audited action adds one to that action's total. -/
theorem monthlyTotal_increment {row : AuditAction}
    (h : requiredTransferAuditAction action = .ok row) (month : ℤ × ℤ) (other : String)
    (hmon : s'.monthlyCounts = (incrementTransferMonthlyCount month action s).monthlyCounts) :
    s'.monthlyTotal other = s.monthlyTotal other + if action = other then 1 else 0 := by
  unfold Store.monthlyTotal
  rw [hmon, incrementTransferMonthlyCount, if_pos (auditedAction_of_ok h)]
  cases hins : s.monthlyCounts.insert? ⟨month, action, 1⟩ with
  | some =>
    rw [sum_insert? hins]
    simp
  | none =>
    obtain ⟨found, hfound, hkey⟩ := exists_key_of_insert?_none hins
    have hsame : found.action = action := congrArg Prod.snd hkey
    have hwhere : (fun row : MonthlyCount => (row.month = month && row.action = action : Bool)) =
        fun row => decide ((row.month, row.action) = (found.month, found.action)) := by
      funext row
      rw [hkey]
      simp [Prod.mk.injEq]
    have hsum := sum_updateKey (t := s.monthlyCounts) (r := found)
      (f := fun row => { row with count := row.count + 1 }) (q := fun row => row.action = other)
      (w := MonthlyCount.count) (by intros; rfl) hfound rfl
    simp only [hwhere]
    by_cases hoth : action = other
    · simp only [hsame, hoth, decide_true, if_true] at hsum ⊢
      omega
    · simp only [hsame, hoth, decide_false, Bool.false_eq_true, if_false] at hsum ⊢
      omega

end Totals

section Numbering

/-- Distinct numbers below `next` for the ids in use. -/
structure Numbered (ids : Set ℕ) (serial : ℕ → ℕ) (next : ℕ) : Prop where
  lt : ∀ id ∈ ids, serial id < next
  inj : Set.InjOn serial ids

variable {ids ids' : Set ℕ} {serial : ℕ → ℕ} {next : ℕ}

theorem Numbered.mono (h : Numbered ids serial next) (hsub : ids' ⊆ ids) :
    Numbered ids' serial next :=
  ⟨fun id hid => h.lt id (hsub hid), Set.InjOn.mono hsub h.inj⟩

/-- The next number goes to an id that may have been in use before. -/
theorem Numbered.update (h : Numbered ids serial next) {id : ℕ} (hsub : ids' ⊆ insert id ids) :
    Numbered ids' (Function.update serial id next) (next + 1) := by
  have hold : ∀ other ∈ ids', other ≠ id →
      other ∈ ids ∧ Function.update serial id next other = serial other := fun other hmem hne =>
    ⟨(hsub hmem).resolve_left hne, Function.update_of_ne hne next serial⟩
  constructor
  · intro other hmem
    by_cases hne : other = id
    · rw [hne, Function.update_self]
      omega
    · obtain ⟨hids, heq⟩ := hold other hmem hne
      have := h.lt other hids
      omega
  · intro other hmem other' hmem' hser
    by_cases hne : other = id <;> by_cases hne' : other' = id
    · rw [hne, hne']
    · obtain ⟨hids, heq⟩ := hold other' hmem' hne'
      have := h.lt other' hids
      rw [hne, Function.update_self, heq] at hser
      omega
    · obtain ⟨hids, heq⟩ := hold other hmem hne
      have := h.lt other hids
      rw [hne', Function.update_self, heq] at hser
      omega
    · obtain ⟨hids, heq⟩ := hold other hmem hne
      obtain ⟨hids', heq'⟩ := hold other' hmem' hne'
      exact h.inj hids hids' (by rw [← heq, ← heq', hser])

end Numbering

section Exactness

def Store.grantIds (s : Store) : Set ℕ := {id | ∃ grant ∈ s.grants, grant.id = id}

def Store.shareIds (s : Store) : Set ℕ := {id | ∃ share ∈ s.shares, share.id = id}

/-- The ledger agrees with the rows of its store. -/
structure LedgerInv (l : Ledger) : Prop where
  limit : DownloadLimitInv l.store
  grants : Numbered l.store.grantIds l.grantSerial l.grantsMade
  grant_counted : ∀ grant ∈ l.store.grants, grant.counted = true ↔
    l.grantSerial grant.id ∈ l.counted.map CountedGrant.serial
  nodup : (l.counted.map CountedGrant.serial).Nodup
  entry_lt : ∀ entry ∈ l.counted, entry.serial < l.grantsMade ∧ entry.share < l.sharesMade
  shares : Numbered l.store.shareIds l.shareSerial l.sharesMade
  share_count : ∀ share ∈ l.store.shares,
    share.downloadCount = countedOfShare l.counted (l.shareSerial share.id)
  months : ∀ action, l.store.monthlyTotal action = countedOfAction l.counted action

theorem LedgerInv.initial : LedgerInv .initial where
  limit := DownloadLimitInv.empty
  grants := ⟨fun _ ⟨grant, hgr, _⟩ => absurd hgr (not_mem_empty grant),
    fun _ ⟨grant, hgr, _⟩ => absurd hgr (not_mem_empty grant)⟩
  grant_counted := fun grant hgr => absurd hgr (not_mem_empty grant)
  nodup := List.nodup_nil
  entry_lt := by nofun
  shares := ⟨fun _ ⟨share, hsh, _⟩ => absurd hsh (not_mem_empty share),
    fun _ ⟨share, hsh, _⟩ => absurd hsh (not_mem_empty share)⟩
  share_count := fun share hsh => absurd hsh (not_mem_empty share)
  months := fun _ => rfl

variable {l : Ledger} {x : Execution}

/-- Nothing is newly counted when every counted grant was counted before. -/
theorem newlyCounted_eq_nil {s : Store}
    (h : ∀ grant ∈ (x.after s).grants, grant.counted = true →
      ∃ old ∈ s.grants, old.id = grant.id ∧ old.counted = true) : x.newlyCounted s = [] := by
  refine List.filter_eq_nil_iff.mpr fun grant hgr hnew => ?_
  simp only [Bool.and_eq_true, any_iff, decide_eq_true_eq, Bool.not_eq_true'] at hnew
  obtain ⟨⟨hcounted, uncounted, hunct, hid, hnot⟩, -⟩ := hnew
  obtain ⟨old, hold, hid', hwas⟩ := h grant hgr hcounted
  have hsame : old = uncounted := s.grants.eq_of_key_eq hold hunct (hid'.trans hid.symm)
  rw [hsame, hnot] at hwas
  cases hwas

theorem Grant.SameAs.counted_before {s : Store} {grant : Grant}
    (h : ∃ old ∈ s.grants, old.SameAs grant) (hcounted : grant.counted = true) :
    ∃ old ∈ s.grants, old.id = grant.id ∧ old.counted = true := by
  obtain ⟨old, hold, hid, -, -, hsame⟩ := h
  exact ⟨old, hold, hid.symm, hsame ▸ hcounted⟩

theorem LedgerInv.quiet (hinv : LedgerInv l) (hinsd : x.insertedGrant l.store = none)
    (hcreated : x.createdShare l.store = none) (h : CountsNothing l.store (x.after l.store)) :
    LedgerInv (l.record x) := by
  have hnone : x.newlyCounted l.store = [] :=
    newlyCounted_eq_nil fun grant hgr => Grant.SameAs.counted_before (h.grants grant hgr)
  have hrecord : l.record x = { l with store := x.after l.store } := by
    simp [Ledger.record, hinsd, hcreated, hnone, Ledger.number]
  rw [hrecord]
  refine
    { limit := hinv.limit.execute x.now l.store x.call
      grants := hinv.grants.mono ?_
      grant_counted := ?_
      nodup := hinv.nodup
      entry_lt := hinv.entry_lt
      shares := hinv.shares.mono ?_
      share_count := ?_
      months := ?_ }
  · rintro id ⟨grant, hgr, rfl⟩
    obtain ⟨old, hold, hid, -⟩ := h.grants grant hgr
    exact ⟨old, hold, hid.symm⟩
  · intro grant hgr
    obtain ⟨old, hold, hid, -, -, hsame⟩ := h.grants grant hgr
    rw [hid, hsame]
    exact hinv.grant_counted old hold
  · rintro id ⟨share, hsh, rfl⟩
    obtain ⟨old, hold, hid, -⟩ := h.shares share hsh
    exact ⟨old, hold, hid.symm⟩
  · intro share hsh
    obtain ⟨old, hold, hid, hcount⟩ := h.shares share hsh
    rw [hid, hcount]
    exact hinv.share_count old hold
  · intro action
    rw [← hinv.months action, Store.monthlyTotal, Store.monthlyTotal, h.monthlyCounts_eq]

theorem LedgerInv.inserts (hinv : LedgerInv l) {grant : Grant}
    (hinsd : x.insertedGrant l.store = some grant.id)
    (hcreated : x.createdShare l.store = none)
    (h : InsertsGrant l.store (x.after l.store) grant) : LedgerInv (l.record x) := by
  have hnone : x.newlyCounted l.store = [] := by
    refine newlyCounted_eq_nil fun grant' hgr' hcounted => ?_
    rcases h.grants grant' hgr' with rfl | ⟨-, hold⟩
    · rw [h.uncounted] at hcounted
      cases hcounted
    · exact Grant.SameAs.counted_before hold hcounted
  have hrecord : l.record x = { l with
      store := x.after l.store
      grantsMade := l.grantsMade + 1
      grantSerial := Function.update l.grantSerial grant.id l.grantsMade } := by
    simp [Ledger.record, hinsd, hcreated, hnone, Ledger.number]
  rw [hrecord]
  refine
    { limit := hinv.limit.execute x.now l.store x.call
      grants := hinv.grants.update ?_
      grant_counted := ?_
      nodup := hinv.nodup
      entry_lt := ?_
      shares := hinv.shares.mono ?_
      share_count := ?_
      months := ?_ }
  · rintro id ⟨grant', hgr', rfl⟩
    rcases h.grants grant' hgr' with rfl | ⟨-, old, hold, hid, -⟩
    · exact Or.inl rfl
    · exact Or.inr ⟨old, hold, hid.symm⟩
  · intro grant' hgr'
    dsimp only
    rcases h.grants grant' hgr' with rfl | ⟨hne, old, hold, hid, -, -, hsame⟩
    · -- the new number is above every number in the ledger
      rw [Function.update_self, h.uncounted]
      refine ⟨by nofun, fun hmem => ?_⟩
      obtain ⟨entry, hent, hser⟩ := List.mem_map.mp hmem
      have := (hinv.entry_lt entry hent).1
      omega
    · rw [Function.update_of_ne hne, hid, hsame]
      exact hinv.grant_counted old hold
  · intro entry hent
    obtain ⟨hser, hsh⟩ := hinv.entry_lt entry hent
    exact ⟨by dsimp only; omega, hsh⟩
  · rintro id ⟨share, hsh, rfl⟩
    exact ⟨share, h.shares_eq ▸ hsh, rfl⟩
  · intro share hsh
    exact hinv.share_count share (h.shares_eq ▸ hsh)
  · intro action
    rw [← hinv.months action, Store.monthlyTotal, Store.monthlyTotal, h.monthlyCounts_eq]

theorem LedgerInv.creates (hinv : LedgerInv l) {row : Share}
    (hinsd : x.insertedGrant l.store = none)
    (hcreated : x.createdShare l.store = some row.id) (hnew : row.downloadCount = 0)
    (hins : l.store.shares.insert? row = some (x.after l.store).shares)
    (hgrants : (x.after l.store).grants = l.store.grants)
    (hmon : (x.after l.store).monthlyCounts = l.store.monthlyCounts) :
    LedgerInv (l.record x) := by
  have hnone : x.newlyCounted l.store = [] :=
    newlyCounted_eq_nil fun grant hgr hcounted => ⟨grant, hgrants ▸ hgr, rfl, hcounted⟩
  have hrecord : l.record x = { l with
      store := x.after l.store
      sharesMade := l.sharesMade + 1
      shareSerial := Function.update l.shareSerial row.id l.sharesMade } := by
    simp [Ledger.record, hinsd, hcreated, hnone, Ledger.number]
  rw [hrecord]
  refine
    { limit := hinv.limit.execute x.now l.store x.call
      grants := hinv.grants.mono ?_
      grant_counted := fun grant hgr => hinv.grant_counted grant (hgrants ▸ hgr)
      nodup := hinv.nodup
      entry_lt := ?_
      shares := hinv.shares.update ?_
      share_count := ?_
      months := ?_ }
  · rintro id ⟨grant, hgr, rfl⟩
    exact ⟨grant, hgrants ▸ hgr, rfl⟩
  · intro entry hent
    obtain ⟨hser, hsh⟩ := hinv.entry_lt entry hent
    exact ⟨hser, by dsimp only; omega⟩
  · rintro id ⟨share, hsh, rfl⟩
    rcases (mem_insert? hins).mp hsh with rfl | hold
    · exact Or.inl rfl
    · exact Or.inr ⟨share, hold, rfl⟩
  · intro share hsh
    dsimp only
    rcases (mem_insert? hins).mp hsh with rfl | hold
    · -- no entry of the ledger belongs to the new share
      rw [Function.update_self, hnew, eq_comm, countedOfShare, List.countP_eq_zero]
      intro entry hent hsame
      have := (hinv.entry_lt entry hent).2
      simp only [decide_eq_true_eq] at hsame
      omega
    · rw [Function.update_of_ne ((insert?_some hins).2 share hold)]
      exact hinv.share_count share hold
  · intro action
    rw [← hinv.months action, Store.monthlyTotal, Store.monthlyTotal, hmon]

/-- The one row a counting transaction changes. -/
theorem CountsGrant.newlyCounted {s : Store} {grant : Grant} (hinsd : x.insertedGrant s = none)
    (h : CountsGrant x.now s (x.after s) grant) :
    ∃ grant', x.newlyCounted s = [grant'] ∧ grant'.id = grant.id ∧
      grant'.shareId = grant.shareId ∧ grant'.action = grant.action := by
  obtain ⟨old, hold, hid, hshId, hactn, hsame⟩ := h.mem
  obtain ⟨grant', hgr', hid'⟩ := h.stays
  obtain ⟨old', hold', hidOld, hshareOld, hactionOld, hcounted⟩ := h.grants grant' hgr'
  have hone : old' = old :=
    s.grants.eq_of_key_eq hold' hold (by rw [← hidOld, hid', hid])
  subst hone
  refine ⟨grant', filter_eq_singleton hgr' ?_ ?_, hid',
    hshareOld.trans hshId.symm, hactionOld.trans hactn.symm⟩
  · have hunct : old'.counted = false := hsame.symm.trans h.uncounted
    simp only [hcounted, hid', decide_true, Bool.or_true, Bool.true_and, hinsd, ne_eq,
      reduceCtorEq, not_false_eq_true, Bool.and_true, any_iff]
    exact ⟨old', hold, by simp [hid, hunct]⟩
  · intro other hoth hnew
    simp only [Bool.and_eq_true, any_iff, decide_eq_true_eq, Bool.not_eq_true'] at hnew
    obtain ⟨⟨hcounted', was, hwas, hwasId, hwasNot⟩, -⟩ := hnew
    obtain ⟨before, hbef, hbeforeId, -, -, hbeforeCounted⟩ := h.grants other hoth
    have hsameRow : before = was :=
      s.grants.eq_of_key_eq hbef hwas (hbeforeId.symm.trans hwasId.symm)
    rw [hcounted', hsameRow, hwasNot] at hbeforeCounted
    have hothId : other.id = grant.id := by simpa using hbeforeCounted.symm
    exact eq_of_key_eq _ hoth hgr' (hothId.trans hid'.symm)

theorem countedOfShare_append (counted : List CountedGrant) (entry : CountedGrant) (share : ℕ) :
    countedOfShare (counted ++ [entry]) share =
      countedOfShare counted share + if entry.share = share then 1 else 0 := by
  simp [countedOfShare, List.countP_append, List.countP_singleton]

theorem LedgerInv.counts (hinv : LedgerInv l) {grant : Grant}
    (hinsd : x.insertedGrant l.store = none) (hcreated : x.createdShare l.store = none)
    (h : CountsGrant x.now l.store (x.after l.store) grant) : LedgerInv (l.record x) := by
  obtain ⟨grant', hnew, hid', hsh', hactn'⟩ := CountsGrant.newlyCounted hinsd h
  have hrecord : l.record x = { l with
      store := x.after l.store
      counted := l.counted ++
        [⟨l.grantSerial grant.id, l.shareSerial grant.shareId, grant.action⟩] } := by
    simp [Ledger.record, hinsd, hcreated, hnew, Ledger.number, hid', hsh', hactn']
  obtain ⟨old, hold, hid, -, -, hsame⟩ := h.mem
  have hmemId : grant.id ∈ l.store.grantIds := ⟨old, hold, hid.symm⟩
  obtain ⟨stored, hstored, hstoredId⟩ := h.stored
  rw [hrecord]
  refine
    { limit := hinv.limit.execute x.now l.store x.call
      grants := hinv.grants.mono ?_
      grant_counted := ?_
      nodup := ?_
      entry_lt := ?_
      shares := hinv.shares.mono ?_
      share_count := ?_
      months := ?_ }
  · rintro id ⟨row, hrow, rfl⟩
    obtain ⟨before, hbef, hbeforeId, -⟩ := h.grants row hrow
    exact ⟨before, hbef, hbeforeId.symm⟩
  · intro row hrow
    obtain ⟨before, hbef, hbeforeId, -, -, hcounted⟩ := h.grants row hrow
    have hrowId : row.id ∈ l.store.grantIds := ⟨before, hbef, hbeforeId.symm⟩
    have hser : l.grantSerial row.id = l.grantSerial grant.id ↔ row.id = grant.id :=
      ⟨fun h => hinv.grants.inj hrowId hmemId h, fun h => by rw [h]⟩
    rw [hcounted]
    simp only [Bool.or_eq_true, decide_eq_true_eq, List.map_append, List.mem_append, List.map_cons,
      List.map_nil, List.mem_singleton, hser]
    rw [hinv.grant_counted before hbef, hbeforeId]
  · -- the grant was uncounted, so its number is not in the ledger yet
    have hfr : l.grantSerial grant.id ∉ l.counted.map CountedGrant.serial := by
      intro hmem
      rw [hid] at hmem
      have hwas := (hinv.grant_counted old hold).mpr hmem
      rw [← hsame, h.uncounted] at hwas
      cases hwas
    rw [List.map_append]
    exact List.nodup_append.mpr ⟨hinv.nodup, by simp, by simpa using hfr⟩
  · intro entry hent
    rcases List.mem_append.mp hent with hent | hent
    · exact hinv.entry_lt entry hent
    · rw [List.mem_singleton.mp hent]
      exact ⟨hinv.grants.lt _ hmemId, hinv.shares.lt _ ⟨stored, hstored, hstoredId⟩⟩
  · rintro id ⟨share, hsh, rfl⟩
    rw [h.shares_eq] at hsh
    obtain ⟨before, hbef, rfl⟩ := (mem_updateWhere).mp hsh
    refine ⟨before, hbef, ?_⟩
    split <;> rfl
  · intro share hsh
    rw [h.shares_eq] at hsh
    obtain ⟨before, hbef, rfl⟩ := (mem_updateWhere).mp hsh
    have hcount := hinv.share_count before hbef
    by_cases hthis : before.id = grant.shareId
    · simp only [hthis, decide_true, if_true, countedOfShare_append] at hcount ⊢
      omega
    · have hoth : l.shareSerial grant.shareId ≠ l.shareSerial before.id := fun hser =>
        hthis (hinv.shares.inj ⟨stored, hstored, hstoredId⟩ ⟨before, hbef, rfl⟩ hser).symm
      simp only [hthis, decide_false, Bool.false_eq_true, if_false, countedOfShare_append, hoth]
      omega
  · intro action
    obtain ⟨required, _, hreq, -, -⟩ := h.audit_eq
    rw [monthlyTotal_increment hreq _ action h.monthlyCounts_eq, hinv.months action]
    simp [countedOfAction, List.countP_append]

theorem LedgerInv.record (hinv : LedgerInv l) (x : Execution) : LedgerInv (l.record x) := by
  cases ledgerStep l.store x with
  | quiet hinsd hcreated h => exact hinv.quiet hinsd hcreated h
  | inserts grant hinsd hcreated h => exact hinv.inserts hinsd hcreated h
  | creates row hinsd hcreated hnew hins hgrants hmon =>
    exact hinv.creates hinsd hcreated hnew hins hgrants hmon
  | counts grant hinsd hcreated h => exact hinv.counts hinsd hcreated h

theorem LedgerInv.ofRun (events : List ServerEvent) : LedgerInv (Ledger.ofRun events) := by
  suffices h : ∀ (history : List Execution) (l : Ledger), LedgerInv l →
      LedgerInv (history.foldl Ledger.record l) from h _ _ LedgerInv.initial
  intro history
  induction history with
  | nil => exact fun l hinv => hinv
  | cons x history ih => exact fun l hinv => ih _ (hinv.record x)

end Exactness

section Audit

variable {s s' : Store}

theorem isTransfer_of_required {action : String} {required : AuditAction} {row : AuditRow}
    (h : requiredTransferAuditAction action = .ok required) (hrow : row.action = required) :
    row.isTransfer = true := by
  unfold requiredTransferAuditAction at h
  unfold AuditRow.isTransfer
  split_ifs at h <;> cases h <;> rw [hrow] <;> rfl

/-- `s'` has one more transfer row in its audit log if `counted`, and else the same log. -/
def AuditsTransfer (counted : Bool) (s s' : Store) : Prop :=
  ∃ rows, s'.audit = s.audit ++ rows ∧
    if counted then ∃ row, rows = [row] ∧ row.isTransfer = true else rows = []

theorem AuditsTransfer.of_eq (h : s'.audit = s.audit) : AuditsTransfer false s s' :=
  ⟨[], by rw [h, List.append_nil], rfl⟩

theorem CountsGrant.audits {now : Instant} {grant : Grant} (h : CountsGrant now s s' grant) :
    AuditsTransfer true s s' := by
  obtain ⟨action, row, hreq, hrow, haudit⟩ := h.audit_eq
  exact ⟨[row], haudit, row, rfl, isTransfer_of_required hreq hrow⟩

/-- A lease transaction writes one transfer row when it returns that it counted, and none
otherwise. -/
theorem execute_audit (s : Store) (x : Execution) (hlease : x.call.servesLease = true) :
    AuditsTransfer (x.returnsCounted s) s (x.after s) := by
  rcases x with ⟨call, now, clock⟩
  cases call with
  | beginLease =>
    refine committed_inv (P := AuditsTransfer false s) (.of_eq rfl) fun s' outcome h => ?_
    rcases begin_grants h with ⟨-, hkeeps⟩ | ⟨-, grant, hinserts, -⟩
    · exact .of_eq hkeeps.audit_eq
    · exact .of_eq hinserts.audit_eq
  | cancelLease =>
    exact committed_inv (P := AuditsTransfer false s) (.of_eq rfl) fun s' outcome h =>
      .of_eq (cancel_grants h).audit_eq
  | completeLease token =>
    simp only [after, returnsCounted, execute]
    cases hres : completeTransferLeaseAndAudit now token s with
    | error => exact .of_eq rfl
    | ok result =>
      obtain ⟨s', outcome⟩ := result
      rcases complete_grants hres with ⟨hnot, hkeeps⟩ | ⟨rfl, grant, hcounts⟩
      · simp only [hnot, decide_false]
        exact .of_eq hkeeps.audit_eq
      · exact hcounts.audits
  | heartbeatLease token =>
    simp only [after, returnsCounted, execute]
    cases hres : heartbeatTransferLeaseAndAudit now token s with
    | error => exact .of_eq rfl
    | ok result =>
      obtain ⟨s', outcome⟩ := result
      rcases heartbeat_grants hres with ⟨hnot, hkeeps⟩ | ⟨rfl, grant, hcounts⟩
      · simp only [hnot, decide_false]
        exact .of_eq hkeeps.audit_eq
      · exact hcounts.audits
  | _ => cases hlease

end Audit

section Runs

/-- In every run no grant is counted twice, the counter of a stored share is the number of its
grants ever counted, the monthly totals of an action add up to the grants of that action ever
counted, and a lease transaction writes a transfer row exactly when it returns that it counted. -/
theorem transfers_counted_once (events : List ServerEvent) :
    ((Ledger.ofRun events).counted.map CountedGrant.serial).Nodup ∧
    (∀ share ∈ (run events).store.shares, share.downloadCount =
      countedOfShare (Ledger.ofRun events).counted ((Ledger.ofRun events).shareSerial share.id)) ∧
    (∀ action, (run events).store.monthlyTotal action =
      countedOfAction (Ledger.ofRun events).counted action) ∧
    ∀ earlier x later, transactions .initial events = earlier ++ x :: later →
      x.call.servesLease = true →
      AuditsTransfer (x.returnsCounted (History.state after .empty earlier))
        (History.state after .empty earlier)
        (x.after (History.state after .empty earlier)) := by
  have hinv := LedgerInv.ofRun events
  have hstore := Ledger.ofRun_store events
  refine ⟨hinv.nodup, ?_, ?_, fun earlier x later _ hlease => execute_audit _ x hlease⟩
  · intro share hsh
    exact hinv.share_count share (hstore ▸ hsh)
  · intro action
    rw [← hstore]
    exact hinv.months action

/-- Two leases of one transfer, both completed. -/
def twoLeasesRun : List ServerEvent :=
  [.arrive (.createShare downloadShare none) 0, .execute 0 0,
    .arrive (.beginLease fileTransfer none "first") 0, .execute 0 0,
    .arrive (.beginLease fileTransfer none "second") 0, .execute 0 0,
    .arrive (.completeLease "first") 1, .execute 0 1,
    .arrive (.completeLease "second") 1, .execute 0 1]

theorem transfers_counted_once_twoLeases :
    (run twoLeasesRun).store.monthlyTotal "download" = 1 ∧
    ∀ share ∈ (run twoLeasesRun).store.shares, share.downloadCount = 1 := by
  obtain ⟨-, hshares, hmon, -⟩ := transfers_counted_once twoLeasesRun
  constructor
  · rw [hmon]
    decide +kernel
  · intro share hsh
    rw [hshares share hsh]
    have hone : ∀ share ∈ (run twoLeasesRun).store.shares.rows,
        countedOfShare (Ledger.ofRun twoLeasesRun).counted
          ((Ledger.ofRun twoLeasesRun).shareSerial share.id) = 1 := by decide +kernel
    exact hone share hsh

end Runs

end VaultLink
