import Mathlib.Data.List.MinMax
import VaultLink.Histories
import VaultLink.Schema

/-!
# The cache of directory snapshots

Records expire, are replaced and are evicted, and each removal takes its bytes off one running
total with saturating arithmetic. `saturated` remembers whether such a subtraction has ever
lost something. The total is exact as long as it has not, and it never has.
-/
namespace VaultLink

open History

section Model

structure DirectorySnapshotKey where
  scope : Text
  directory : Text
  sort : Text
  direction : Text
  scanLimit : ℕ
  storageGeneration : ℕ
deriving DecidableEq

/-- A snapshot, by its number and the bytes it is accounted with. -/
structure DirectorySnapshot where
  id : ℕ
  accountedBytes : ℕ
deriving DecidableEq

/-- An entry of the cache. A value `none` is `DirectoryCacheLookup::Bypass`. -/
structure CacheRecord where
  key : DirectorySnapshotKey
  capturedAt : ℤ
  lastUsed : ℕ
  value : Option DirectorySnapshot
  accountedBytes : ℕ
deriving DecidableEq

/-- The limits of a cache, and the sizes that `record_overhead` adds up. -/
structure CacheLimits where
  ttl : ℕ
  maximumSnapshotBytes : ℕ
  maximumTotalBytes : ℕ
  recordSize : ℕ
  /-- 32 MiB in the server. -/
  maximum_lt : maximumTotalBytes < 2 ^ 64 - 1

structure CacheState where
  records : KeyedTable CacheRecord.key
  totalBytes : ℕ
  clock : ℕ
  saturated : Bool

namespace CacheState

def initial : CacheState := ⟨∅, 0, 0, false⟩

def remove (s : CacheState) (key : DirectorySnapshotKey) : CacheState :=
  match s.records.find? key with
  | none => s
  | some record =>
    { s with
      records := s.records.deleteWhere fun r => r.key = key
      totalBytes := s.totalBytes - record.accountedBytes
      saturated := s.saturated || s.totalBytes < record.accountedBytes }

variable (limits : CacheLimits) (now : DirectorySnapshotKey → ℤ)

/-- `elapsed() >= ttl`; the clock is read anew for each record. -/
def expired (record : CacheRecord) : Bool :=
  limits.ttl ≤ (now record.key - record.capturedAt).toNat

def pruneExpired (s : CacheState) : CacheState :=
  ((s.records.rows.filter (expired limits now)).map CacheRecord.key).foldl remove s

def tick (s : CacheState) : CacheState := { s with clock := (s.clock + 1) % 2 ^ 64 }

def cached (s : CacheState) (key : DirectorySnapshotKey) :
    CacheState × Option (Option DirectorySnapshot) :=
  let s := (s.pruneExpired limits now).tick
  ({ s with
      records := s.records.updateWhere (·.key = key) fun r => { r with lastUsed := s.clock } },
    (s.records.find? key).map CacheRecord.value)

theorem length_remove_lt {s : CacheState} {r : CacheRecord} (h : r ∈ s.records) :
    (s.remove r.key).records.rows.length < s.records.rows.length := by
  rw [remove, KeyedTable.find?_eq_some_iff.mpr ⟨h, rfl⟩]
  exact List.length_filter_lt_length_iff_exists.mpr ⟨r, h, by simp⟩

/-- The loop of `insert`, with the records it evicts. Records with equal `lastUsed`, which need
a clock that has wrapped around, may stand in any order. -/
def evict (bytes : ℕ) (s : CacheState) : List CacheRecord × CacheState :=
  if saturatingAddU64 s.totalBytes bytes ≤ limits.maximumTotalBytes then ([], s)
  else match _h : s.records.rows.argmin CacheRecord.lastUsed with
    | none => ([], s)
    | some oldest =>
      let (evicted, kept) := evict bytes (s.remove oldest.key)
      (oldest :: evicted, kept)
termination_by s.records.rows.length
decreasing_by exact length_remove_lt (List.argmin_mem _h)

def recordOverhead (key : DirectorySnapshotKey) : ℕ :=
  saturatingAddU64 (saturatingAddU64 limits.recordSize (utf8Bytes key.scope).length)
    (utf8Bytes key.directory).length

def accounted (key : DirectorySnapshotKey) (snapshot : Option DirectorySnapshot) : ℕ :=
  saturatingAddU64 (recordOverhead limits key) (snapshot.elim 0 DirectorySnapshot.accountedBytes)

/-- The evictions of an insertion, after expired records and the replaced one have gone. -/
def makeRoom (s : CacheState) (key : DirectorySnapshotKey) (bytes : ℕ) :
    List CacheRecord × CacheState :=
  ((s.pruneExpired limits now).remove key).evict limits bytes

def store (s : CacheState) (record : CacheRecord) : CacheState :=
  { s with
    totalBytes := saturatingAddU64 s.totalBytes record.accountedBytes
    records := s.records.upsert record }

def insert (s : CacheState) (key : DirectorySnapshotKey) (loaded : Option DirectorySnapshot)
    (capturedAt : ℤ) : CacheState × Option DirectorySnapshot :=
  let snapshot := loaded.filter (·.accountedBytes ≤ limits.maximumSnapshotBytes)
  let bytes := accounted limits key snapshot
  if limits.maximumTotalBytes < bytes then (s, snapshot)
  else
    let s := (s.makeRoom limits now key bytes).2.tick
    (s.store ⟨key, capturedAt, s.clock, snapshot, bytes⟩, snapshot)

end CacheState

inductive CacheCall
  | cached (now : DirectorySnapshotKey → ℤ) (key : DirectorySnapshotKey)
  | insert (now : DirectorySnapshotKey → ℤ) (key : DirectorySnapshotKey)
    (loaded : Option DirectorySnapshot) (capturedAt : ℤ)

def CacheState.step (limits : CacheLimits) (s : CacheState) : CacheCall → CacheState
  | .cached now key => (s.cached limits now key).1
  | .insert now key loaded capturedAt => (s.insert limits now key loaded capturedAt).1

end Model

section Accounting

/-- The bytes of all records. -/
def CacheState.stored (s : CacheState) : ℕ :=
  s.records.sum (fun _ => true) CacheRecord.accountedBytes

/-- The running total is exact, and no subtraction from it has saturated. -/
structure CacheState.Balanced (s : CacheState) : Prop where
  total : s.totalBytes = s.stored
  exact : s.saturated = false

/-- What stood in the cache when each record was evicted was this record, those evicted after it
and those kept: too much beside the new record, and nothing used less recently. -/
def EvictedInOrder (limits : CacheLimits) (bytes : ℕ) (kept : CacheState) :
    List CacheRecord → Prop
  | [] => True
  | r :: later =>
    (limits.maximumTotalBytes <
        bytes + kept.stored + ((r :: later).map CacheRecord.accountedBytes).sum ∧
      ∀ r', r' ∈ later ∨ r' ∈ kept.records → r.lastUsed ≤ r'.lastUsed) ∧
    EvictedInOrder limits bytes kept later

/-- Records `before` have been divided into the evicted ones and those kept, which leave room
for `bytes` more. -/
structure MadeRoom (limits : CacheLimits) (bytes : ℕ) (before : CacheRecord → Prop)
    (evicted : List CacheRecord) (kept : CacheState) : Prop where
  balanced : kept.Balanced
  fits : bytes + kept.stored ≤ limits.maximumTotalBytes
  divides : ∀ r, r ∈ evicted ∨ r ∈ kept.records ↔ before r
  inOrder : EvictedInOrder limits bytes kept evicted

namespace CacheState

variable {limits : CacheLimits} {now : DirectorySnapshotKey → ℤ} {s : CacheState}
  {key : DirectorySnapshotKey} {r : CacheRecord}

theorem mem_remove : r ∈ (s.remove key).records ↔ r ∈ s.records ∧ r.key ≠ key := by
  unfold remove
  split
  · rename_i hnone
    have := KeyedTable.find?_eq_none_iff.mp hnone r
    tauto
  · simp

/-- Removing a stored record takes exactly its bytes off the total. -/
theorem Balanced.remove_mem (h : s.Balanced) (hr : r ∈ s.records) :
    (s.remove r.key).Balanced ∧ s.stored = (s.remove r.key).stored + r.accountedBytes := by
  have hsplit : s.stored = (s.remove r.key).stored + r.accountedBytes := by
    rw [stored, KeyedTable.sum_split_key hr]
    simp [stored, remove, KeyedTable.find?_eq_some_iff.mpr ⟨hr, rfl⟩, KeyedTable.sum_deleteWhere]
  have htot := h.total
  refine ⟨⟨?_, ?_⟩, hsplit⟩
  · have : (s.remove r.key).totalBytes = s.totalBytes - r.accountedBytes := by
      simp [remove, KeyedTable.find?_eq_some_iff.mpr ⟨hr, rfl⟩]
    omega
  · simp [remove, KeyedTable.find?_eq_some_iff.mpr ⟨hr, rfl⟩, h.exact]
    omega

theorem Balanced.remove (key : DirectorySnapshotKey) (h : s.Balanced) :
    (s.remove key).Balanced ∧ (s.remove key).stored ≤ s.stored := by
  cases hfind : s.records.find? key with
  | none => simpa [CacheState.remove, hfind] using h
  | some r =>
    obtain ⟨hr, rfl⟩ := KeyedTable.find?_some hfind
    have := h.remove_mem hr
    exact ⟨this.1, by omega⟩

theorem Balanced.removeAll (keys : List DirectorySnapshotKey) (h : s.Balanced) :
    (keys.foldl CacheState.remove s).Balanced ∧
      (keys.foldl CacheState.remove s).stored ≤ s.stored := by
  induction keys generalizing s with
  | nil => exact ⟨h, le_rfl⟩
  | cons key keys ih =>
    have hkey := h.remove key
    have hrest := ih hkey.1
    exact ⟨hrest.1, hrest.2.trans hkey.2⟩

theorem mem_removeAll (keys : List DirectorySnapshotKey) :
    r ∈ (keys.foldl remove s).records ↔ r ∈ s.records ∧ r.key ∉ keys := by
  induction keys generalizing s with
  | nil => simp
  | cons key keys ih =>
    rw [List.foldl_cons, ih, mem_remove, List.mem_cons]
    tauto

/-- Pruning leaves the records that have not expired. -/
theorem mem_pruneExpired : r ∈ (s.pruneExpired limits now).records ↔
    r ∈ s.records ∧ expired limits now r = false := by
  rw [pruneExpired, mem_removeAll]
  refine and_congr_right fun hr => ?_
  simp only [List.mem_map, List.mem_filter, not_exists, not_and]
  constructor
  · intro h
    simpa using fun hexp => h r ⟨hr, hexp⟩ rfl
  · intro h r' hr' hkey
    rw [s.records.eq_of_key_eq hr'.1 hr hkey, h] at hr'
    exact absurd hr'.2 (by simp)

theorem evict_madeRoom {bytes : ℕ} (hfit : bytes ≤ limits.maximumTotalBytes) (h : s.Balanced) :
    MadeRoom limits bytes (· ∈ s.records) (s.evict limits bytes).1 (s.evict limits bytes).2 ∧
      s.stored = (s.evict limits bytes).2.stored +
        ((s.evict limits bytes).1.map CacheRecord.accountedBytes).sum := by
  have hmax := limits.maximum_lt
  have htot := h.total
  fun_induction evict limits bytes s with
  | case1 s hroom =>
    unfold saturatingAddU64 at hroom
    exact ⟨⟨h, by dsimp only; omega, by simp, trivial⟩, by simp⟩
  | case2 s hroom hnone =>
    have : s.stored = 0 := by simp [stored, KeyedTable.sum, List.argmin_eq_none.mp hnone]
    unfold saturatingAddU64 at hroom
    omega
  | case3 s hroom oldest hmin evicted kept heq ih =>
    have hmem : oldest ∈ s.records := List.argmin_mem hmin
    obtain ⟨hbal, hsto⟩ := h.remove_mem hmem
    have hrest := ih hbal hbal.total
    rw [heq] at hrest
    dsimp only at hrest ⊢
    obtain ⟨⟨hkept, hle, hrows, hord⟩, hsum⟩ := hrest
    unfold saturatingAddU64 at hroom
    refine ⟨⟨hkept, hle, fun r => ?_, ⟨by simp; omega, fun r hr => ?_⟩, hord⟩, by simp; omega⟩
    · rw [List.mem_cons, or_assoc, hrows, mem_remove]
      by_cases hkey : r.key = oldest.key
      · simp only [hkey, ne_eq, not_true, and_false, or_false]
        exact ⟨fun h => h ▸ hmem, fun hr => s.records.eq_of_key_eq hr hmem hkey⟩
      · have : r ≠ oldest := fun h => hkey (by rw [h])
        tauto
    · exact List.le_of_mem_argmin (mem_remove.mp ((hrows r).mp hr)).1 hmin

section Calls

variable (limits now)

theorem Balanced.pruneExpired (h : s.Balanced) : (s.pruneExpired limits now).Balanced ∧
    (s.pruneExpired limits now).stored ≤ s.stored :=
  h.removeAll _

/-- A lookup changes only when records were last used. -/
theorem stored_cached (s : CacheState) (key : DirectorySnapshotKey) :
    (s.cached limits now key).1.stored = (s.pruneExpired limits now).stored := by
  simp only [stored, cached, tick, KeyedTable.sum, KeyedTable.updateWhere, List.filter_true,
    List.map_map]
  congr 1
  refine List.map_congr_left fun r _ => ?_
  rw [Function.comp_apply]
  split <;> rfl

variable {limits} in
theorem makeRoom_madeRoom (key : DirectorySnapshotKey) {bytes : ℕ}
    (hfit : bytes ≤ limits.maximumTotalBytes) (h : s.Balanced) :
    MadeRoom limits bytes
      (fun r => r ∈ s.records ∧ expired limits now r = false ∧ r.key ≠ key)
      (s.makeRoom limits now key bytes).1 (s.makeRoom limits now key bytes).2 := by
  obtain ⟨hbal, hle, hrows, hord⟩ :=
    (evict_madeRoom hfit ((h.pruneExpired limits now).1.remove key).1).1
  refine ⟨hbal, hle, fun r => ?_, hord⟩
  rw [makeRoom, hrows, mem_remove, mem_pruneExpired, and_assoc]

end Calls

/-- The invariant of the cache. -/
def Sound (limits : CacheLimits) (s : CacheState) : Prop :=
  s.Balanced ∧ s.stored ≤ limits.maximumTotalBytes

/-- A record is stored beside those under other keys. -/
theorem mem_store {r' : CacheRecord} (hfree : ∀ r' ∈ s.records, r'.key ≠ r.key) :
    r' ∈ (s.store r).records ↔ r' ∈ s.records ∨ r' = r := by
  have := hfree r'
  simp only [store, KeyedTable.mem_upsert]
  tauto

theorem Sound.store (h : s.Balanced) (hfree : ∀ r' ∈ s.records, r'.key ≠ r.key)
    (hfit : r.accountedBytes + s.stored ≤ limits.maximumTotalBytes) :
    (s.store r).Sound limits := by
  have hrows : s.records.rows.filter (fun r' => r'.key ≠ r.key) = s.records.rows :=
    List.filter_eq_self.mpr fun r' hr' => by simpa using hfree r' hr'
  have hsto : (s.store r).stored = r.accountedBytes + s.stored := by
    simp only [stored, CacheState.store, KeyedTable.sum, KeyedTable.upsert, hrows,
      List.filter_true, List.map_cons, List.sum_cons]
  have htot := h.total
  have hmax := limits.maximum_lt
  have hnew : (s.store r).totalBytes = min (s.totalBytes + r.accountedBytes) (2 ^ 64 - 1) := rfl
  exact ⟨⟨by omega, h.exact⟩, by omega⟩

theorem Sound.step (h : s.Sound limits) (call : CacheCall) : (s.step limits call).Sound limits := by
  obtain ⟨hbal, hle⟩ := h
  cases call with
  | cached now key =>
    obtain ⟨hpru, hsto⟩ := hbal.pruneExpired limits now
    have heq := stored_cached limits now s key
    exact ⟨⟨hpru.total.trans heq.symm, hpru.exact⟩, heq.trans_le (hsto.trans hle)⟩
  | insert now key loaded capturedAt =>
    simp only [CacheState.step, insert]
    split
    · exact ⟨hbal, hle⟩
    · rename_i hfit
      have hroom := makeRoom_madeRoom now key (Nat.le_of_not_lt hfit) hbal
      exact Sound.store ⟨hroom.balanced.total, hroom.balanced.exact⟩
        (fun r hr => ((hroom.divides r).mp (.inr hr)).2.2) hroom.fits

end CacheState

end Accounting

/-- After any calls the total is exact and within its limit, and no subtraction has saturated. A
snapshot that a lookup returns is younger than `ttl`. An insertion that would not fit alone changes
nothing; any other leaves the new record and of the rest all but what has expired, what it replaces
and what it must evict, the least recently used first. -/
theorem directory_cache_keeps_total (limits : CacheLimits) (calls : List CacheCall) :
    let s := state (CacheState.step limits) .initial calls
    (s.totalBytes = s.stored ∧ s.totalBytes ≤ limits.maximumTotalBytes ∧ s.saturated = false) ∧
      (∀ now key snapshot, (s.cached limits now key).2 = some (some snapshot) →
        ∃ r ∈ s.records, r.key = key ∧ r.value = some snapshot ∧
          (now key - r.capturedAt).toNat < limits.ttl) ∧
      ∀ now key loaded capturedAt,
        let snapshot := loaded.filter (·.accountedBytes ≤ limits.maximumSnapshotBytes)
        let bytes := CacheState.accounted limits key snapshot
        let after := (s.insert limits now key loaded capturedAt).1
        (limits.maximumTotalBytes < bytes → after = s) ∧
        (bytes ≤ limits.maximumTotalBytes → ∃ evicted kept,
          MadeRoom limits bytes
            (fun r => r ∈ s.records ∧ CacheState.expired limits now r = false ∧ r.key ≠ key)
            evicted kept ∧
          ∀ r, r ∈ after.records ↔
            r ∈ kept.records ∨ r = ⟨key, capturedAt, after.clock, snapshot, bytes⟩) := by
  intro s
  obtain ⟨hbal, hle⟩ : s.Sound limits :=
    state_invariant (fun _ call h => h.step call) ⟨⟨rfl, rfl⟩, Nat.zero_le _⟩ calls
  refine ⟨⟨hbal.total, hbal.total.trans_le hle, hbal.exact⟩, ?_, ?_⟩
  · intro now key snapshot hret
    obtain ⟨r, hfind, hval⟩ := Option.map_eq_some_iff.mp hret
    obtain ⟨hr, rfl⟩ := KeyedTable.find?_some hfind
    obtain ⟨hmem, hexp⟩ := CacheState.mem_pruneExpired.mp hr
    exact ⟨r, hmem, rfl, hval, by simpa [CacheState.expired] using hexp⟩
  · intro now key loaded capturedAt snapshot bytes after
    refine ⟨fun hlarge => ?_, fun hfit => ?_⟩
    · simp only [after, CacheState.insert, snapshot, bytes, if_pos hlarge]
    · have hroom := CacheState.makeRoom_madeRoom now key hfit hbal
      refine ⟨_, _, hroom, fun r => ?_⟩
      simp only [after, CacheState.insert, snapshot, bytes, if_neg (Nat.not_lt.mpr hfit)]
      exact CacheState.mem_store fun r' hr' => ((hroom.divides r').mp (.inr hr')).2.2

end VaultLink
