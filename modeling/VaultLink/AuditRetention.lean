import VaultLink.KeyedTable

/-!
# Audit retention

The cleanup counts the audit rows once and works the excess off in transactions of at most a
thousand rows, between which other requests append rows of any priority. Nobody else deletes
audit rows, so the table stays at least as far above the cap as there is left to delete: every
batch finds as many rows as it asks for, and they are the ones that come first by priority and
id at that time.
-/
namespace VaultLink

open KeyedTable

section Statements

/-- What the retention statements read of an audit row. -/
structure AuditRecord where
  id : ℤ
  priority : ℤ

abbrev AuditTable := KeyedTable AuditRecord.id

/-- `priority >= AuditPriority::Security.as_i64()`. -/
def AuditRecord.security (row : AuditRecord) : Bool := 100 ≤ row.priority

/-- `ORDER BY priority ASC,id ASC`. -/
def AuditRecord.before (row other : AuditRecord) : Bool :=
  row.priority < other.priority || (row.priority = other.priority && row.id ≤ other.id)

/-- `SELECT id FROM audit ORDER BY priority ASC,id ASC LIMIT ?1`. -/
def selectOldest (limit : ℕ) (t : AuditTable) : List ℤ :=
  ((t.rows.mergeSort AuditRecord.before).take limit).map AuditRecord.id

/-- A batch: the table it found, the rows its `DELETE` returned and the table it left. -/
structure RetentionBatch where
  found : AuditTable
  deleted : List AuditRecord
  left : AuditTable

def deleteOldest (limit : ℕ) (t : AuditTable) : RetentionBatch where
  found := t
  deleted := t.rows.filter fun row => row.id ∈ selectOldest limit t
  left := t.deleteWhere fun row => row.id ∈ selectOldest limit t

variable {row other : AuditRecord} {t : AuditTable} {limit : ℕ}

theorem mem_deleted : row ∈ (deleteOldest limit t).deleted ↔
    row ∈ (t.rows.mergeSort AuditRecord.before).take limit := by
  simp only [deleteOldest, selectOldest, List.mem_filter, List.mem_map, decide_eq_true_eq]
  constructor
  · rintro ⟨hrow, selected, hsel, hid⟩
    have hmem := List.mem_mergeSort.mp (List.mem_of_mem_take hsel)
    rwa [← t.eq_of_key_eq hmem hrow hid]
  · intro h
    exact ⟨List.mem_mergeSort.mp (List.mem_of_mem_take h), row, h, rfl⟩

theorem deleted_perm (limit : ℕ) (t : AuditTable) : (deleteOldest limit t).deleted.Perm
    ((t.rows.mergeSort AuditRecord.before).take limit) := by
  have hrows : t.rows.Nodup := List.Nodup.of_map _ t.keys_nodup
  have hsor := (List.mergeSort_perm t.rows AuditRecord.before).nodup_iff.mpr hrows
  refine (List.perm_ext_iff_of_nodup (hrows.filter _) (hsor.sublist (List.take_sublist _ _))).mpr ?_
  exact fun row => mem_deleted

theorem length_deleted (limit : ℕ) (t : AuditTable) :
    (deleteOldest limit t).deleted.length = min limit t.rows.length := by
  rw [(deleted_perm limit t).length_eq, List.length_take, List.length_mergeSort]

theorem length_left (limit : ℕ) (t : AuditTable) :
    (deleteOldest limit t).left.rows.length + min limit t.rows.length = t.rows.length := by
  have hsplit := List.length_eq_length_filter_add (l := t.rows) fun row =>
    row.id ∈ selectOldest limit t
  have hlen := length_deleted limit t
  simp only [deleteOldest, deleteWhere] at hlen ⊢
  omega

/-- A batch deletes rows that stand before all the rows it leaves. -/
structure RetentionBatch.TakesOldest (batch : RetentionBatch) : Prop where
  nodup : batch.deleted.Nodup
  mem_found : ∀ row, row ∈ batch.found ↔ row ∈ batch.deleted ∨ row ∈ batch.left
  gone : ∀ row ∈ batch.deleted, row ∉ batch.left
  before : ∀ row ∈ batch.deleted, ∀ kept ∈ batch.left, row.before kept = true
  security : ∀ row ∈ batch.deleted, row.security = true → ∀ kept ∈ batch.left, kept.security = true

theorem deleteOldest_takesOldest (limit : ℕ) (t : AuditTable) :
    (deleteOldest limit t).TakesOldest := by
  have hbef : ∀ row ∈ (deleteOldest limit t).deleted, ∀ kept ∈ (deleteOldest limit t).left,
      row.before kept = true := by
    intro row hrow kept hkept
    have hsor : (t.rows.mergeSort AuditRecord.before).Pairwise fun row other =>
        row.before other = true := by
      refine List.pairwise_mergeSort ?_ ?_ t.rows
      · intro a b c hab hbc
        simp only [AuditRecord.before, Bool.or_eq_true, Bool.and_eq_true, decide_eq_true_eq] at *
        omega
      · intro a b
        simp only [AuditRecord.before, Bool.or_eq_true, Bool.and_eq_true, decide_eq_true_eq]
        omega
    rw [← List.take_append_drop limit (t.rows.mergeSort _)] at hsor
    refine (List.pairwise_append.mp hsor).2.2 row (mem_deleted.mp hrow) kept ?_
    obtain ⟨hmem, hspared⟩ := mem_deleteWhere.mp hkept
    have hsome : kept ∈ t.rows.mergeSort AuditRecord.before := List.mem_mergeSort.mpr hmem
    rw [← List.take_append_drop limit (t.rows.mergeSort _), List.mem_append] at hsome
    refine hsome.resolve_left fun htaken => ?_
    exact absurd (List.mem_map_of_mem htaken) (of_decide_eq_false hspared)
  refine ⟨List.Nodup.filter _ (.of_map _ t.keys_nodup), ?_, ?_, hbef, ?_⟩
  · intro row
    have hleft : row ∈ (deleteOldest limit t).left ↔ _ := mem_deleteWhere
    rw [hleft, deleteOldest, List.mem_filter, ← mem_def, ← and_or_left]
    exact (and_iff_left (Bool.eq_false_or_eq_true _)).symm
  · intro row hrow hleft
    have hspared := (mem_deleteWhere.mp hleft).2
    simp [(List.mem_filter.mp hrow).2] at hspared
  · intro row hrow hsecurity kept hkept
    have := hbef row hrow kept hkept
    simp only [AuditRecord.before, AuditRecord.security, Bool.or_eq_true, Bool.and_eq_true,
      decide_eq_true_eq] at *
    omega

end Statements

section Cleanup

variable {ε : Type}

/-- The rows that writers insert before a batch; a row whose id is taken is refused. -/
def appendRecords (records : List AuditRecord) (t : AuditTable) : AuditTable :=
  records.foldl (fun t record => (t.insert? record).getD t) t

structure AuditRetentionOutcome where
  routineDeleted : ℕ
  securityDeleted : ℕ
deriving DecidableEq

/-- The returned priorities are counted by class. No sum exceeds the count that was read, so the
saturating additions of the source are plain ones. -/
def AuditRetentionOutcome.add (outcome : AuditRetentionOutcome) (deleted : List AuditRecord) :
    AuditRetentionOutcome :=
  ⟨outcome.routineDeleted + deleted.countP fun row => !row.security,
    outcome.securityDeleted + deleted.countP AuditRecord.security⟩

/-- A cleanup: its batches, its result and the table its last transaction left. -/
structure RetentionRun (ε : Type) where
  batches : List RetentionBatch
  result : Except ε AuditRetentionOutcome
  table : AuditTable

def RetentionRun.deleted (run : RetentionRun ε) : List AuditRecord :=
  run.batches.flatMap RetentionBatch.deleted

variable (writers : ℕ → List AuditRecord) (faults : ℕ → Option ε)

/-- The loop over batches. Before a batch the writers append rows, and one of its statements may
fail, which rolls it back and ends the cleanup. -/
def cleanupBatches (step remaining : ℕ) (outcome : AuditRetentionOutcome) (t : AuditTable) :
    RetentionRun ε :=
  if remaining = 0 then ⟨[], .ok outcome, t⟩
  else match faults step with
  | some e => ⟨[], .error e, t⟩
  | none =>
    let batch := deleteOldest (min remaining 1000) (appendRecords (writers step) t)
    if batch.deleted.length = 0 then ⟨[batch], .ok outcome, batch.left⟩
    else
      let rest := cleanupBatches (step + 1) (remaining - batch.deleted.length)
        (outcome.add batch.deleted) batch.left
      ⟨batch :: rest.batches, rest.result, rest.table⟩
termination_by remaining
decreasing_by exact Nat.sub_lt (by omega) (Nat.pos_of_ne_zero ‹_›)

def maxAuditRows : ℕ := 100000

/-- `cleanup_audit_retention`; `none` of `faults 0` is a successful count. -/
def cleanupAuditRetention (t : AuditTable) : RetentionRun ε :=
  match faults 0 with
  | some e => ⟨[], .error e, t⟩
  | none => cleanupBatches writers faults 1 (t.rows.length - maxAuditRows) ⟨0, 0⟩ t

/-- Each batch finds what was left before it and what the writers have appended to that. -/
def BatchesFrom : ℕ → AuditTable → List RetentionBatch → AuditTable → Prop
  | _, t, [], final => final = t
  | step, t, batch :: rest, final =>
    batch.found = appendRecords (writers step) t ∧ BatchesFrom (step + 1) batch.left rest final

theorem length_le_appendRecords (records : List AuditRecord) (t : AuditTable) :
    t.rows.length ≤ (appendRecords records t).rows.length := by
  induction records generalizing t with
  | nil => exact le_rfl
  | cons record records ih =>
    refine Nat.le_trans ?_ (ih ((t.insert? record).getD t))
    cases hins : t.insert? record with
    | none => exact le_rfl
    | some u => simp [(insert?_some hins).1]

variable {writers faults}

theorem cleanupBatches_from {step remaining : ℕ} {outcome : AuditRetentionOutcome}
    {t : AuditTable} :
    BatchesFrom writers step t (cleanupBatches writers faults step remaining outcome t).batches
      (cleanupBatches writers faults step remaining outcome t).table := by
  fun_induction cleanupBatches writers faults step remaining outcome t with
  | case1 | case2 => exact rfl
  | case3 => exact ⟨rfl, rfl⟩
  | case4 step remaining outcome t hrem _ batch hsome rest ih => exact ⟨rfl, ih⟩

theorem cleanupBatches_takesOldest {step remaining : ℕ} {outcome : AuditRetentionOutcome}
    {t : AuditTable} : ∀ batch ∈ (cleanupBatches writers faults step remaining outcome t).batches,
      batch.TakesOldest := by
  fun_induction cleanupBatches writers faults step remaining outcome t with
  | case1 | case2 => simp
  | case3 => simpa using deleteOldest_takesOldest _ _
  | case4 => simpa using ⟨deleteOldest_takesOldest _ _, by assumption⟩

/-- The table never comes closer to the cap than what is left to delete, so no batch comes back
empty. -/
theorem cleanupBatches_exact {step remaining : ℕ} {outcome final : AuditRetentionOutcome}
    {t : AuditTable} (hexcess : remaining ≤ t.rows.length)
    (h : (cleanupBatches writers faults step remaining outcome t).result = .ok final) :
    (cleanupBatches writers faults step remaining outcome t).deleted.length = remaining ∧
      final = outcome.add (cleanupBatches writers faults step remaining outcome t).deleted := by
  fun_induction cleanupBatches writers faults step remaining outcome t with
  | case1 outcome =>
    cases h
    exact ⟨rfl, rfl⟩
  | case2 => cases h
  | case3 step remaining outcome t hrem _ batch hemp =>
    have hlen := length_deleted (min remaining 1000) (appendRecords (writers step) t)
    have hgrown := length_le_appendRecords (writers step) t
    change batch.deleted.length = _ at hlen
    omega
  | case4 step remaining outcome t hrem _ batch hsome rest ih =>
    have hlen := length_deleted (min remaining 1000) (appendRecords (writers step) t)
    have hleft := length_left (min remaining 1000) (appendRecords (writers step) t)
    have hgrown := length_le_appendRecords (writers step) t
    change batch.deleted.length = _ at hlen
    change batch.left.rows.length + _ = _ at hleft
    obtain ⟨hdeld, hfinal⟩ := ih (by omega) h
    change rest.deleted.length = _ at hdeld
    have hrun : RetentionRun.deleted ⟨batch :: rest.batches, rest.result, rest.table⟩ =
        batch.deleted ++ rest.deleted := List.flatMap_cons
    rw [hrun, List.length_append, hfinal]
    refine ⟨by omega, ?_⟩
    simp only [AuditRetentionOutcome.add, List.countP_append, Nat.add_assoc]
    rfl

theorem cleanupBatches_succeeds (hfaults : ∀ step, faults step = none) {step remaining : ℕ}
    {outcome : AuditRetentionOutcome} {t : AuditTable} :
    ∃ final, (cleanupBatches writers faults step remaining outcome t).result = .ok final := by
  fun_induction cleanupBatches writers faults step remaining outcome t with
  | case1 | case3 => exact ⟨_, rfl⟩
  | case2 => simp_all
  | case4 => assumption

variable (writers faults)

/-- Whatever the writers append and wherever a statement fails: every batch finds the table as the
one before it left it, with the rows appended since, and deletes the rows that stand first in it,
so no security row while a routine row stays. A cleanup that ends without
a failure has deleted exactly the excess it has counted, and reports the deleted rows by class; it
does so whenever no statement fails. -/
theorem audit_retention_is_exact (t : AuditTable) :
    let run := cleanupAuditRetention writers faults t
    BatchesFrom writers 1 t run.batches run.table ∧ (∀ batch ∈ run.batches, batch.TakesOldest) ∧
    (∀ outcome, run.result = .ok outcome →
      run.deleted.length = t.rows.length - maxAuditRows ∧
      outcome = ⟨run.deleted.countP fun row => !row.security,
        run.deleted.countP AuditRecord.security⟩) ∧
    ((∀ step, faults step = none) → ∃ outcome, run.result = .ok outcome) := by
  unfold cleanupAuditRetention
  cases hcount : faults 0 with
  | some e => exact ⟨rfl, by simp, by nofun, fun h => by simp [h] at hcount⟩
  | none =>
    refine ⟨cleanupBatches_from, cleanupBatches_takesOldest, fun outcome h => ?_,
      fun hfaults => cleanupBatches_succeeds hfaults⟩
    obtain ⟨hdeld, hout⟩ := cleanupBatches_exact (Nat.sub_le _ _) h
    exact ⟨hdeld, hout.trans (by simp [AuditRetentionOutcome.add])⟩

end Cleanup

end VaultLink
