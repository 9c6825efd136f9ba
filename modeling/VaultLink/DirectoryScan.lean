import VaultLink.PathConsistency

/-!
# Scanning a directory

A scan goes over the items of a directory in the order the kernel gives them. Items that must
not be shown are filtered, but count against the budget of the scan. Callers read in batches
until the directory or their budget is exhausted, and look one item further to tell the two
apart. Together this is the same as reading as many items as the budget allows, whatever the
size of the batches.
-/
namespace VaultLink

section Items

/-- `secure_fs::Entry`, with the modification time in nanoseconds since the Unix epoch. -/
structure DirectoryEntry where
  name : Text
  isDir : Bool
  len : ℕ
  modified : Option ℤ

inductive DirectoryScanItem
  | visible (entry : DirectoryEntry)
  | filtered

inductive NodeKind
  | directory
  | regular
  | special
deriving DecidableEq

structure Metadata where
  kind : NodeKind
  len : ℕ
  modified : Option ℤ

/-- What opening a child and reading its metadata gives; `EXDEV` and `ELOOP` are rejections. -/
inductive OpenedChild
  | found (metadata : Metadata)
  | rejected
  | failed (error : IoError)

/-- An item of `std::fs::ReadDir`, without a name if that is not UTF-8. -/
structure DirectoryItem where
  name : Option Text
  child : OpenedChild

def isFilteredName (name : Text) : Bool :=
  isInternalStorageName name || PrivateNames.isUploadFragmentName name ||
    PrivateNames.isDeletionTombstoneName name

def visibleEntry (name : Text) (metadata : Metadata) : DirectoryScanItem :=
  if isFilteredName name then .filtered
  else match validateRelative name with
    | none => .filtered
    | some components =>
      if components.length ≠ 1 || metadata.kind = .special then .filtered
      else .visible ⟨name, metadata.kind = .directory, metadata.len, metadata.modified⟩

/-- `DirectoryScan::next`, for an item there is. -/
def DirectoryItem.next (item : DirectoryItem) : Except IoError DirectoryScanItem :=
  match item.name with
  | none => .ok .filtered
  | some name =>
    if isFilteredName name || (validateRelative name).isNone then .ok .filtered
    else match item.child with
      | .rejected => .ok .filtered
      | .failed error => .error error
      | .found metadata => .ok (visibleEntry name metadata)

def DirectoryScanItem.intoEntry : DirectoryScanItem → Option DirectoryEntry
  | .visible entry => some entry
  | .filtered => none

theorem visibleEntry_name {name : Text} {metadata : Metadata} {entry : DirectoryEntry}
    (h : visibleEntry name metadata = .visible entry) : entry.name = name := by
  unfold visibleEntry at h
  split at h
  · cases h
  · split at h
    · cases h
    · split at h
      · cases h
      · cases h
        rfl

theorem DirectoryItem.next_name {item : DirectoryItem} {entry : DirectoryEntry}
    (h : item.next = .ok (.visible entry)) : item.name = some entry.name := by
  unfold DirectoryItem.next at h
  split at h
  · cases h
  · rename_i name hname
    split at h
    · cases h
    · split at h
      · cases h
      · cases h
      · rw [hname, visibleEntry_name (Except.ok.inj h)]

end Items

section Batches

/-- What is left of a `std::fs::ReadDir`. -/
abbrev ReadDir := List (Except IoError DirectoryItem)

def itemName : Except IoError DirectoryItem → Option Text
  | .ok item => item.name
  | .error _ => none

/-- The names of the items, as far as they have one. -/
def ReadDir.names (scan : ReadDir) : List Text := scan.filterMap itemName

structure DirectoryScanBatch where
  entries : List DirectoryEntry
  scanned : ℕ
  complete : Bool

/-- The loop of `run_batch`. -/
def runBatchLoop (maxEntries : ℕ) :
    ReadDir → DirectoryScanBatch → Except IoError (DirectoryScanBatch × ReadDir)
  | [], batch =>
    if batch.scanned < maxEntries then .ok ({ batch with complete := true }, [])
    else .ok (batch, [])
  | item :: rest, batch =>
    if batch.scanned < maxEntries then
      match item.bind DirectoryItem.next with
      | .error error => .error error
      | .ok item =>
        runBatchLoop maxEntries rest
          { batch with
            entries := batch.entries ++ item.intoEntry.toList
            scanned := batch.scanned + 1 }
    else .ok (batch, item :: rest)

def runBatch (maxEntries : ℕ) (scan : ReadDir) : Except IoError (DirectoryScanBatch × ReadDir) :=
  if maxEntries = 0 then .error ⟨.invalidInput, "directory scan batch size must be positive"⟩
  else runBatchLoop maxEntries scan ⟨[], 0, false⟩

/-- The items were read without an error. -/
def ReadDir.Reads (scan : ReadDir) (items : List DirectoryScanItem) : Prop :=
  scan.map (·.bind DirectoryItem.next) = items.map .ok

def visibleEntries (items : List DirectoryScanItem) : List DirectoryEntry :=
  items.filterMap DirectoryScanItem.intoEntry

@[simp] theorem visibleEntries_cons (item : DirectoryScanItem) (items : List DirectoryScanItem) :
    visibleEntries (item :: items) = item.intoEntry.toList ++ visibleEntries items := by
  cases item <;> rfl

@[simp] theorem visibleEntries_append (items items' : List DirectoryScanItem) :
    visibleEntries (items ++ items') = visibleEntries items ++ visibleEntries items' :=
  List.filterMap_append

def itemEntry (item : Except IoError DirectoryItem) : Option DirectoryEntry :=
  (item.bind DirectoryItem.next).toOption.bind DirectoryScanItem.intoEntry

/-- The entries that scanning reports. -/
def ReadDir.entries (scan : ReadDir) : List DirectoryEntry := scan.filterMap itemEntry

variable {scan rest : ReadDir} {items : List DirectoryScanItem} {maxEntries : ℕ}
  {batch batch' : DirectoryScanBatch}

variable (h : scan.Reads items)

include h

theorem ReadDir.Reads.length_eq : items.length = scan.length := by
  simpa using (congrArg List.length h).symm

theorem ReadDir.Reads.take (n : ℕ) : ReadDir.Reads (scan.take n) (items.take n) := by
  unfold ReadDir.Reads
  rw [List.map_take, h, List.map_take]

theorem ReadDir.Reads.drop (n : ℕ) : ReadDir.Reads (scan.drop n) (items.drop n) := by
  unfold ReadDir.Reads
  rw [List.map_drop, h, List.map_drop]

theorem ReadDir.Reads.append {later : ReadDir} {items' : List DirectoryScanItem}
    (h' : later.Reads items') : ReadDir.Reads (scan ++ later) (items ++ items') := by
  unfold ReadDir.Reads
  rw [List.map_append, h, h', List.map_append]

theorem ReadDir.Reads.unique {items' : List DirectoryScanItem} (h' : scan.Reads items') :
    items = items' :=
  List.map_injective_iff.mpr (fun _ _ => Except.ok.inj) (h.symm.trans h')

theorem ReadDir.Reads.entries_eq : scan.entries = visibleEntries items := by
  induction scan generalizing items with
  | nil =>
    obtain rfl : items = [] := List.length_eq_zero_iff.mp h.length_eq
    rfl
  | cons item scan ih =>
    cases items with
    | nil => cases h
    | cons read items =>
      obtain ⟨hread, hits⟩ : item.bind DirectoryItem.next = .ok read ∧
        ReadDir.Reads scan items := List.cons.inj h
      rw [visibleEntries_cons, ← ih hits, ReadDir.entries, List.filterMap_cons, itemEntry, hread]
      cases read <;> rfl

omit h

theorem itemEntry_name {item : Except IoError DirectoryItem} {entry : DirectoryEntry}
    (h : itemEntry item = some entry) : itemName item = some entry.name := by
  cases item with
  | error => cases h
  | ok item =>
    cases hnext : item.next with
    | error => simp [itemEntry, Except.bind, hnext, Except.toOption] at h
    | ok read =>
      cases read with
      | filtered =>
        simp [itemEntry, Except.bind, hnext, Except.toOption, DirectoryScanItem.intoEntry] at h
      | visible =>
        simp only [itemEntry, Except.bind, hnext, Except.toOption, DirectoryScanItem.intoEntry,
          Option.bind_some, Option.some.injEq] at h
        subst h
        exact DirectoryItem.next_name hnext

/-- The reported entries have names of the directory. -/
theorem ReadDir.entries_sublist (scan : ReadDir) :
    (scan.entries.map DirectoryEntry.name).Sublist scan.names := by
  unfold ReadDir.entries ReadDir.names
  induction scan with
  | nil => exact .slnil
  | cons item scan ih =>
    rw [List.filterMap_cons, List.filterMap_cons]
    cases hent : itemEntry item with
    | none =>
      cases itemName item with
      | none => exact ih
      | some name => exact ih.cons name
    | some entry =>
      rw [itemEntry_name hent]
      exact ih.cons_cons entry.name

/-- What a batch of readable items gives. -/
theorem runBatchLoop_of_reads
    (h : ReadDir.Reads (scan.take (maxEntries - batch.scanned)) items)
    (hscanned : batch.scanned ≤ maxEntries) :
    runBatchLoop maxEntries scan batch =
      .ok (⟨batch.entries ++ visibleEntries items, batch.scanned + items.length,
          batch.complete || decide (scan.length < maxEntries - batch.scanned)⟩,
        scan.drop (maxEntries - batch.scanned)) := by
  induction scan generalizing batch items with
  | nil =>
    obtain rfl : items = [] := List.length_eq_zero_iff.mp (by simpa using h.length_eq)
    by_cases hroom : batch.scanned < maxEntries
    · simp [runBatchLoop, visibleEntries, hroom, Nat.sub_pos_of_lt hroom]
    · simp [runBatchLoop, visibleEntries, hroom,
        Nat.sub_eq_zero_of_le (Nat.le_of_not_lt hroom)]
  | cons item scan ih =>
    by_cases hroom : batch.scanned < maxEntries
    · have hstep : maxEntries - batch.scanned = maxEntries - (batch.scanned + 1) + 1 := by omega
      rw [hstep, List.take_succ_cons] at h
      cases items with
      | nil => cases h
      | cons read items =>
        obtain ⟨hread, hits⟩ : item.bind DirectoryItem.next = .ok read ∧
          ReadDir.Reads (scan.take (maxEntries - (batch.scanned + 1))) items := List.cons.inj h
        rw [runBatchLoop, if_pos hroom, hread]
        refine Eq.trans (ih hits hroom) ?_
        rw [hstep]
        simp [Nat.add_assoc, Nat.add_comm 1]
    · have hfull : maxEntries - batch.scanned = 0 := by omega
      rw [hfull] at h
      obtain rfl : items = [] := List.length_eq_zero_iff.mp (by simpa using h.length_eq)
      simp [runBatchLoop, visibleEntries, hroom, hfull]

/-- A batch is read only if all its items are. -/
theorem reads_of_runBatchLoop (h : runBatchLoop maxEntries scan batch = .ok (batch', rest))
    (hscanned : batch.scanned ≤ maxEntries) :
    ∃ items, ReadDir.Reads (scan.take (maxEntries - batch.scanned)) items := by
  induction scan generalizing batch with
  | nil => exact ⟨[], by simp [ReadDir.Reads]⟩
  | cons item scan ih =>
    rw [runBatchLoop] at h
    split at h
    · rename_i hroom
      split at h
      · cases h
      · rename_i read hread
        obtain ⟨items, hits⟩ := ih h hroom
        have hstep : maxEntries - batch.scanned = maxEntries - (batch.scanned + 1) + 1 := by omega
        rw [hstep]
        exact ⟨read :: items, congrArg₂ List.cons hread hits⟩
    · have hfull : maxEntries - batch.scanned = 0 := by omega
      rw [hfull]
      exact ⟨[], rfl⟩

/-- A batch of positive size succeeds exactly if its items can be read. -/
theorem runBatch_ok_iff (hpos : 0 < maxEntries) :
    runBatch maxEntries scan = .ok (batch, rest) ↔
      ∃ items, ReadDir.Reads (scan.take maxEntries) items ∧
        batch = ⟨visibleEntries items, items.length, decide (scan.length < maxEntries)⟩ ∧
        rest = scan.drop maxEntries := by
  rw [runBatch, if_neg hpos.ne']
  constructor
  · intro h
    obtain ⟨items, hits⟩ := reads_of_runBatchLoop h hpos.le
    rw [runBatchLoop_of_reads hits hpos.le] at h
    cases h
    exact ⟨items, hits, by simp, rfl⟩
  · rintro ⟨items, hits, rfl, rfl⟩
    refine Eq.trans (runBatchLoop_of_reads hits hpos.le) ?_
    simp

theorem runBatch_rest_lt (h : runBatch maxEntries scan = .ok (batch, rest))
    (hmore : batch.complete = false) : rest.length < scan.length := by
  have hpos : 0 < maxEntries := by
    by_contra hzero
    rw [runBatch, if_pos (by omega)] at h
    cases h
  obtain ⟨items, -, rfl, rfl⟩ := (runBatch_ok_iff hpos).mp h
  have hlen : maxEntries ≤ scan.length := by simpa using hmore
  rw [List.length_drop]
  omega

end Batches

section Budget

variable {σ ε : Type} {inject : IoError → ε} {visit : σ → DirectoryEntry → Except ε σ}
  {limit size scanned scanned' : ℕ} {state state' : σ} {scan : ReadDir} {truncated : Bool}

/-- The loop that all callers of `run_batch` share: batches of at most `size` items until the
directory ends or `limit` items were scanned, and then one item more. It returns what the visits
made of the entries, the number of scanned items and whether there was another one. The sum of
the scanned items stays below the limit, so that it does not saturate. -/
def scanBounded (inject : IoError → ε) (visit : σ → DirectoryEntry → Except ε σ) (limit size : ℕ)
    (scanned : ℕ) (state : σ) (scan : ReadDir) : Except ε (σ × ℕ × Bool) :=
  let remaining := limit - scanned
  if remaining = 0 then
    match runBatch 1 scan with
    | .error error => .error (inject error)
    | .ok (sentinel, _) => .ok (state, scanned, sentinel.scanned ≠ 0 || !sentinel.complete)
  else
    match _ : runBatch (min remaining size) scan with
    | .error error => .error (inject error)
    | .ok (batch, rest) =>
      match batch.entries.foldlM visit state with
      | .error error => .error error
      | .ok state =>
        if _ : batch.complete then .ok (state, scanned + batch.scanned, false)
        else scanBounded inject visit limit size (scanned + batch.scanned) state rest
termination_by scan.length
decreasing_by exact runBatch_rest_lt ‹_› (eq_false_of_ne_true ‹_›)

/-- The first `count` items of the directory are visited; the one after them is readable too. -/
def Visits (visit : σ → DirectoryEntry → Except ε σ) (count : ℕ) (scan : ReadDir)
    (state state' : σ) : Prop :=
  ∃ items, ReadDir.Reads (scan.take (count + 1)) items ∧
    (visibleEntries (items.take count)).foldlM visit state = .ok state'

theorem visits_zero : Visits visit 0 scan state state' ↔
    (∃ items, ReadDir.Reads (scan.take 1) items) ∧ state' = state := by
  constructor
  · rintro ⟨items, hits, hst⟩
    exact ⟨⟨items, hits⟩, (Except.ok.inj hst).symm⟩
  · rintro ⟨⟨items, hits⟩, rfl⟩
    exact ⟨items, hits, rfl⟩

/-- A whole directory is visited at once. -/
theorem visits_of_length_lt {count : ℕ} (hlen : scan.length ≤ count) :
    Visits visit count scan state state' ↔ ∃ items, scan.Reads items ∧
      (visibleEntries items).foldlM visit state = .ok state' := by
  unfold Visits
  rw [List.take_of_length_le (by omega)]
  refine exists_congr fun items => and_congr_right fun hits => ?_
  rw [List.take_of_length_le (by rw [hits.length_eq]; exact hlen)]

/-- The items of a first batch are visited, and then the others. -/
theorem visits_batch {count first : ℕ} (hfirst : first ≤ count) (hlen : first ≤ scan.length) :
    Visits visit count scan state state' ↔ ∃ items middle, ReadDir.Reads (scan.take first) items ∧
      (visibleEntries items).foldlM visit state = .ok middle ∧
      Visits visit (count - first) (scan.drop first) middle state' := by
  have htake : scan.take (count + 1) =
      scan.take first ++ (scan.drop first).take (count - first + 1) := by
    rw [← List.take_add]
    congr 1
    omega
  constructor
  · rintro ⟨items, hits, hst⟩
    have hcount : items.take count =
        items.take first ++ (items.drop first).take (count - first) := by
      rw [← List.take_add]
      congr 1
      omega
    rw [hcount, visibleEntries_append, List.foldlM_append] at hst
    obtain ⟨middle, hmiddle, hst⟩ := except_bind_eq_ok.mp hst
    refine ⟨items.take first, middle, ?_, hmiddle, items.drop first, ?_, hst⟩
    · have hread := hits.take first
      rwa [List.take_take, Nat.min_eq_left (by omega)] at hread
    · have hread := hits.drop first
      rwa [List.drop_take, Nat.sub_add_comm hfirst] at hread
  · rintro ⟨items, middle, hits, hmiddle, items', hits', hst⟩
    refine ⟨items ++ items', htake ▸ hits.append hits', ?_⟩
    have hitemsLength : items.length = first := by
      rw [hits.length_eq, List.length_take, Nat.min_eq_left hlen]
    have hsplit : (items ++ items').take count = items ++ items'.take (count - first) := by
      rw [List.take_append, List.take_of_length_le (by omega), hitemsLength]
    rw [hsplit, visibleEntries_append, List.foldlM_append, hmiddle]
    exact hst

theorem scanBounded_exhausted (hrem : limit - scanned = 0) :
    scanBounded inject visit limit size scanned state scan = .ok (state', scanned', truncated) ↔
      Visits visit 0 scan state state' ∧ scanned' = scanned ∧
        truncated = decide (0 < scan.length) := by
  rw [scanBounded, visits_zero, if_pos hrem]
  cases hbatch : runBatch 1 scan with
  | error =>
    refine ⟨nofun, ?_⟩
    rintro ⟨⟨⟨items, hits⟩, -⟩, -⟩
    cases hbatch.symm.trans ((runBatch_ok_iff Nat.one_pos).mpr ⟨items, hits, rfl, rfl⟩)
  | ok result =>
    obtain ⟨batch, rest⟩ := result
    obtain ⟨items, hits, rfl, -⟩ := (runBatch_ok_iff Nat.one_pos).mp hbatch
    have hmore : (decide (items.length ≠ 0) || !decide (scan.length < 1)) =
        decide (0 < scan.length) := by
      rw [hits.length_eq, List.length_take]
      cases scan <;> simp
    dsimp only
    rw [hmore]
    constructor
    · intro h
      cases h
      exact ⟨⟨⟨items, hits⟩, rfl⟩, rfl, rfl⟩
    · rintro ⟨⟨-, rfl⟩, rfl, rfl⟩
      rfl

/-- The batches do not matter: the scan reads as many items as its budget allows. -/
theorem scanBounded_ok_iff (hsize : 0 < size) :
    scanBounded inject visit limit size scanned state scan = .ok (state', scanned', truncated) ↔
      Visits visit (limit - scanned) scan state state' ∧
        scanned' = scanned + min scan.length (limit - scanned) ∧
        truncated = decide (limit - scanned < scan.length) := by
  induction hlen : scan.length using Nat.strong_induction_on generalizing scan scanned state with
  | _ length ih =>
  subst hlen
  by_cases hrem : limit - scanned = 0
  · rw [scanBounded_exhausted hrem, hrem, Nat.min_zero, Nat.add_zero]
  have hbatchSize : 0 < min (limit - scanned) size := by omega
  rw [scanBounded, if_neg hrem]
  split
  · -- the batch fails
    rename_i error hbatch
    refine ⟨nofun, ?_⟩
    rintro ⟨⟨items, hits, -⟩, -⟩
    have hread := hits.take (min (limit - scanned) size)
    rw [List.take_take, Nat.min_eq_left (by omega)] at hread
    cases hbatch.symm.trans ((runBatch_ok_iff hbatchSize).mpr ⟨_, hread, rfl, rfl⟩)
  · rename_i batch rest hbatch
    obtain ⟨items, hits, rfl, rfl⟩ := (runBatch_ok_iff hbatchSize).mp hbatch
    by_cases hcomplete : scan.length < min (limit - scanned) size
    · -- the directory ends within the batch
      rw [visits_of_length_lt (by omega)]
      rw [List.take_of_length_le hcomplete.le] at hits
      have hall : scanned + items.length = scanned + min scan.length (limit - scanned) := by
        rw [hits.length_eq]
        omega
      have hend : false = decide (limit - scanned < scan.length) := by
        rw [eq_comm, decide_eq_false_iff_not]
        omega
      cases hvisit : (visibleEntries items).foldlM visit state with
      | error =>
        refine ⟨nofun, ?_⟩
        rintro ⟨⟨items', hits', hst⟩, -⟩
        cases hits.unique hits'
        cases hvisit.symm.trans hst
      | ok =>
        simp only [decide_eq_true hcomplete, dite_true, Except.ok.injEq, Prod.mk.injEq, ← hall,
          ← hend]
        constructor
        · rintro ⟨rfl, rfl, rfl⟩
          exact ⟨⟨items, hits, hvisit⟩, rfl, rfl⟩
        · rintro ⟨⟨items', hits', hst⟩, rfl, rfl⟩
          cases hits.unique hits'
          exact ⟨Except.ok.inj (hvisit.symm.trans hst), rfl, rfl⟩
    · -- another round follows
      have hfirst : items.length = min (limit - scanned) size := by
        rw [hits.length_eq, List.length_take]
        omega
      rw [visits_batch (min_le_left _ size) (by omega)]
      cases hvisit : (visibleEntries items).foldlM visit state with
      | error =>
        refine ⟨nofun, ?_⟩
        rintro ⟨⟨items', middle, hits', hmiddle, -⟩, -⟩
        cases hits.unique hits'
        cases hvisit.symm.trans hmiddle
      | ok middle =>
        simp only [decide_eq_false hcomplete, Bool.false_eq_true, dite_false]
        have hrest : (scan.drop (min (limit - scanned) size)).length < scan.length := by
          rw [List.length_drop]
          omega
        rw [ih _ hrest rfl, hfirst, List.length_drop]
        have hbudget : limit - (scanned + min (limit - scanned) size) =
            limit - scanned - min (limit - scanned) size := by omega
        have hcount : scanned + min (limit - scanned) size +
            min (scan.length - min (limit - scanned) size)
              (limit - scanned - min (limit - scanned) size) =
              scanned + min scan.length (limit - scanned) := by omega
        have hmore : limit - scanned - min (limit - scanned) size <
            scan.length - min (limit - scanned) size ↔ limit - scanned < scan.length := by omega
        rw [hbudget, hcount, decide_eq_decide.mpr hmore]
        refine and_congr_left fun _ => ?_
        constructor
        · exact fun h => ⟨items, middle, hits, hvisit, h⟩
        · rintro ⟨items', middle', hits', hmiddle, h⟩
          cases hits.unique hits'
          cases hvisit.symm.trans hmiddle
          exact h

theorem foldlM_error {P : ε → Prop} {entries : List DirectoryEntry} {error : ε}
    (hvisit : ∀ state entry error, visit state entry = .error error → P error)
    (h : entries.foldlM visit state = .error error) : P error := by
  induction entries generalizing state with
  | nil => cases h
  | cons entry entries ih =>
    rw [List.foldlM_cons] at h
    cases hent : visit state entry with
    | error =>
      rw [hent] at h
      cases h
      exact hvisit state entry _ hent
    | ok =>
      rw [hent] at h
      exact ih h

/-- A scan fails as its reads or its visits do. -/
theorem scanBounded_error {P : ε → Prop} {error : ε} (hinject : ∀ error, P (inject error))
    (hvisit : ∀ state entry error, visit state entry = .error error → P error)
    (h : scanBounded inject visit limit size scanned state scan = .error error) : P error := by
  induction hlen : scan.length using Nat.strong_induction_on generalizing scan scanned state with
  | _ length ih =>
  subst hlen
  rw [scanBounded] at h
  split at h
  · split at h
    · cases h
      exact hinject _
    · cases h
  split at h
  · cases h
    exact hinject _
  rename_i batch rest hbatch
  split at h
  · rename_i failure hfold
    cases h
    exact foldlM_error hvisit hfold
  split at h
  · cases h
  rename_i hcomplete
  exact ih _ (runBatch_rest_lt hbatch (by simpa using hcomplete)) h rfl

end Budget

end VaultLink
