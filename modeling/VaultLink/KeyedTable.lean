import Mathlib.Data.List.Nodup
import Mathlib.Data.List.Count
import Mathlib.Algebra.BigOperators.Group.List.Basic
import Mathlib.Algebra.Order.BigOperators.Group.List
import Mathlib.Algebra.GroupWithZero.Nat
import Mathlib.Algebra.Order.Group.Nat

/-!
# Keyed tables

A relational table whose primary key is enforced by its type: the rows are a list
and no two of them share a key. The statements a program runs against such a table
are a guarded insert, an update and a delete of the rows that match a condition,
and aggregate reads (a count or a sum over matching rows). An update that keeps the
key of every row, and any delete, stay inside the type; an insert can only fail on
a key that is already present.
-/
namespace VaultLink

/-- Rows of type `ρ` identified by `key`; the primary key is part of the type. -/
structure KeyedTable {ρ κ : Type} (key : ρ → κ) where
  rows : List ρ
  keys_nodup : (rows.map key).Nodup

namespace KeyedTable

variable {ρ κ : Type} {key : ρ → κ}

instance : Membership ρ (KeyedTable key) := ⟨fun t r => r ∈ t.rows⟩

theorem mem_def {t : KeyedTable key} {r : ρ} : r ∈ t ↔ r ∈ t.rows := Iff.rfl

instance [DecidableEq ρ] (r : ρ) (t : KeyedTable key) : Decidable (r ∈ t) :=
  inferInstanceAs (Decidable (r ∈ t.rows))

instance : EmptyCollection (KeyedTable key) := ⟨⟨[], List.nodup_nil⟩⟩

@[simp] theorem not_mem_empty (r : ρ) : r ∉ (∅ : KeyedTable key) := List.not_mem_nil

instance [DecidableEq ρ] : DecidableEq (KeyedTable key) := fun t u =>
  decidable_of_iff (t.rows = u.rows) (by cases t; cases u; simp)

/-- Two rows of one table with the same key are the same row. -/
theorem eq_of_key_eq (t : KeyedTable key) {r r' : ρ} (hr : r ∈ t) (hr' : r' ∈ t)
    (h : key r = key r') : r = r' :=
  List.inj_on_of_nodup_map t.keys_nodup hr hr' h

section Statements

/-- The row stored under a key, if any. -/
def find? [DecidableEq κ] (t : KeyedTable key) (k : κ) : Option ρ :=
  t.rows.find? fun r => key r = k

/-- `INSERT`: refused when the key is taken. -/
def insert? [DecidableEq κ] (t : KeyedTable key) (r : ρ) : Option (KeyedTable key) :=
  if h : key r ∈ t.rows.map key then none
  else some ⟨r :: t.rows, by simpa using ⟨by simpa using h, t.keys_nodup⟩⟩

/-- One `INSERT` after another. -/
def insertAll? [DecidableEq κ] (t : KeyedTable key) : List ρ → Option (KeyedTable key)
  | [] => some t
  | r :: rows => (t.insert? r).bind fun u => u.insertAll? rows

/-- `UPDATE … WHERE p` for an assignment that leaves the key alone. -/
def updateWhere (t : KeyedTable key) (p : ρ → Bool) (f : ρ → ρ)
    (hf : ∀ r, key (f r) = key r := by intro _; rfl) : KeyedTable key :=
  ⟨t.rows.map fun r => if p r then f r else r, by
    have hkey : (key ∘ fun r => if p r then f r else r) = key := by
      funext r
      by_cases hp : p r <;> simp [hp, hf]
    rw [List.map_map, hkey]
    exact t.keys_nodup⟩

/-- `DELETE … WHERE p`. -/
def deleteWhere (t : KeyedTable key) (p : ρ → Bool) : KeyedTable key :=
  ⟨t.rows.filter fun r => !p r, t.keys_nodup.sublist (List.filter_sublist.map key)⟩

/-- `UPDATE` of the row stored under `k` that may give it another key; refused when the new
key is taken. -/
def rekey? [DecidableEq κ] (t : KeyedTable key) (k : κ) (f : ρ → ρ) : Option (KeyedTable key) :=
  match t.find? k with
  | none => some t
  | some r => (t.deleteWhere fun r' => key r' = k).insert? (f r)

/-- `INSERT … ON CONFLICT(key) DO UPDATE` of every column. -/
def upsert [DecidableEq κ] (t : KeyedTable key) (r : ρ) : KeyedTable key :=
  ⟨r :: (t.rows.filter fun r' => key r' ≠ key r), by
    refine List.nodup_cons.mpr ⟨?_, t.keys_nodup.sublist (List.filter_sublist.map key)⟩
    intro hmem
    obtain ⟨r', hr', hkey⟩ := List.mem_map.mp hmem
    exact of_decide_eq_true (List.mem_filter.mp hr').2 hkey⟩

/-- `SELECT COUNT(*) … WHERE p`, also the number of rows a statement affects. -/
def count (t : KeyedTable key) (p : ρ → Bool) : ℕ := t.rows.countP p

/-- `SELECT SUM(f) … WHERE p`, with an empty sum read as zero. -/
def sum (t : KeyedTable key) (p : ρ → Bool) (f : ρ → ℕ) : ℕ := ((t.rows.filter p).map f).sum

/-- `SELECT EXISTS(… WHERE p)`. -/
def any (t : KeyedTable key) (p : ρ → Bool) : Bool := t.rows.any p

end Statements

variable {t u : KeyedTable key} {r r' : ρ} {k : κ} {p q : ρ → Bool} {f : ρ → ρ}

section Membership

theorem find?_some [DecidableEq κ] (h : t.find? k = some r) : r ∈ t ∧ key r = k :=
  ⟨List.mem_of_find?_eq_some h, by simpa using List.find?_some h⟩

theorem find?_eq_some_iff [DecidableEq κ] : t.find? k = some r ↔ r ∈ t ∧ key r = k := by
  refine ⟨find?_some, ?_⟩
  rintro ⟨hr, rfl⟩
  cases hfind : t.find? (key r) with
  | none => exact absurd (List.find?_eq_none.mp hfind r hr) (by simp)
  | some r' =>
    obtain ⟨hr', hkey⟩ := find?_some hfind
    rw [t.eq_of_key_eq hr' hr hkey]

theorem find?_eq_none_iff [DecidableEq κ] : t.find? k = none ↔ ∀ r ∈ t, key r ≠ k := by
  simp [find?, mem_def]

@[simp] theorem any_iff : t.any p = true ↔ ∃ r ∈ t, p r = true := by
  simp [any, mem_def]

/-- An accepted insert adds one row whose key was free. -/
theorem insert?_some [DecidableEq κ] (h : t.insert? r = some u) :
    u.rows = r :: t.rows ∧ ∀ r' ∈ t, key r' ≠ key r := by
  unfold insert? at h
  split at h
  · cases h
  · rename_i hfree
    cases h
    exact ⟨rfl, fun r' hr' hkey => hfree (List.mem_map.mpr ⟨r', hr', hkey⟩)⟩

theorem insert?_isSome [DecidableEq κ] (h : ∀ r' ∈ t, key r' ≠ key r) :
    ∃ u, t.insert? r = some u := by
  have hfree : key r ∉ t.rows.map key := by
    intro hmem
    obtain ⟨r', hr', hkey⟩ := List.mem_map.mp hmem
    exact h r' hr' hkey
  exact ⟨_, dif_neg hfree⟩

/-- A refused insert found its key taken. -/
theorem exists_key_of_insert?_none [DecidableEq κ] (h : t.insert? r = none) :
    ∃ r' ∈ t, key r' = key r := by
  by_contra hfree
  obtain ⟨u, hu⟩ := insert?_isSome (t := t) (r := r) fun r' hr' hkey => hfree ⟨r', hr', hkey⟩
  rw [h] at hu
  cases hu

theorem mem_insert? [DecidableEq κ] (h : t.insert? r = some u) :
    r' ∈ u ↔ r' = r ∨ r' ∈ t := by
  rw [mem_def, (insert?_some h).1, List.mem_cons, mem_def]

theorem forall_mem_insert? [DecidableEq κ] {P : ρ → Prop} (h : t.insert? r = some u) :
    (∀ r' ∈ u, P r') ↔ P r ∧ ∀ r' ∈ t, P r' := by
  simp only [mem_insert? h, forall_eq_or_imp]

theorem mem_insertAll? [DecidableEq κ] {rows : List ρ} (h : t.insertAll? rows = some u) :
    r ∈ u ↔ r ∈ rows ∨ r ∈ t := by
  induction rows generalizing t with
  | nil =>
    cases h
    simp
  | cons first rows ih =>
    obtain ⟨t', ht', hrest⟩ := Option.bind_eq_some_iff.mp h
    rw [ih hrest, mem_insert? ht', List.mem_cons]
    tauto

@[simp] theorem mem_deleteWhere : r ∈ t.deleteWhere p ↔ r ∈ t ∧ p r = false := by
  simp [deleteWhere, mem_def]

theorem mem_updateWhere (hf : ∀ r, key (f r) = key r := by intros; rfl) :
    r ∈ t.updateWhere p f hf ↔ ∃ r' ∈ t, (if p r' then f r' else r') = r := by
  simp [updateWhere, mem_def]

theorem mem_rekey? [DecidableEq κ] (hr : r ∈ t) (h : t.rekey? (key r) f = some u) :
    r' ∈ u ↔ r' = f r ∨ r' ∈ t ∧ key r' ≠ key r := by
  rw [rekey?, find?_eq_some_iff.mpr ⟨hr, rfl⟩] at h
  rw [mem_insert? h, mem_deleteWhere]
  simp

theorem mem_upsert [DecidableEq κ] : r' ∈ t.upsert r ↔ r' = r ∨ r' ∈ t ∧ key r' ≠ key r := by
  simp [upsert, mem_def]

end Membership

section Counting

theorem count_insert? [DecidableEq κ] (h : t.insert? r = some u) (q : ρ → Bool) :
    u.count q = t.count q + if q r then 1 else 0 := by
  rw [count, (insert?_some h).1, List.countP_cons, count]

theorem count_deleteWhere_le (t : KeyedTable key) (p q : ρ → Bool) :
    (t.deleteWhere p).count q ≤ t.count q :=
  List.filter_sublist.countP_le

theorem count_eq_zero (h : ∀ r ∈ t, q r = false) : t.count q = 0 :=
  List.countP_eq_zero.mpr fun r hr => by simp [h r hr]

/-- Conditions that agree on the rows of the table select the same number of them. -/
theorem count_congr (h : ∀ r ∈ t, p r = q r) : t.count p = t.count q :=
  List.countP_congr fun r hr => by rw [h r hr]

/-- An update that does not change whether a row matches leaves a count alone. -/
theorem count_updateWhere_of_eq (hf : ∀ r, key (f r) = key r)
    (h : ∀ r ∈ t, p r = true → q (f r) = q r) : (t.updateWhere p f hf).count q = t.count q := by
  rw [count, updateWhere, List.countP_map]
  refine List.countP_congr fun r hr => ?_
  by_cases hp : p r = true
  · simp [hp, h r hr hp]
  · simp [hp]

/-- An update that takes every row it touches out of a count lowers the count by the number
of rows it touches. -/
theorem count_updateWhere_leave (hf : ∀ r, key (f r) = key r)
    (h : ∀ r ∈ t, p r = true → q r = true ∧ q (f r) = false) :
    (t.updateWhere p f hf).count q + t.count p = t.count q := by
  have hlist : ∀ rows : List ρ, (∀ r ∈ rows, p r = true → q r = true ∧ q (f r) = false) →
      (rows.map fun r => if p r then f r else r).countP q + rows.countP p = rows.countP q := by
    intro rows
    induction rows with
    | nil => intro _; rfl
    | cons r rows ih =>
      intro hrows
      have htail := ih fun r' hr' => hrows r' (List.mem_cons_of_mem r hr')
      simp only [List.map_cons, List.countP_cons]
      by_cases hp : p r = true
      · obtain ⟨hq, hfq⟩ := hrows r List.mem_cons_self hp
        simp only [hp, if_true, hq, hfq, Bool.false_eq_true, if_false]
        omega
      · simp only [hp, Bool.false_eq_true, if_false]
        omega
  exact hlist t.rows h

end Counting

section Sums

variable {w : ρ → ℕ}

theorem count_eq_sum (t : KeyedTable key) (q : ρ → Bool) : t.count q = t.sum q fun _ => 1 := by
  simp [count, sum, List.countP_eq_length_filter]

theorem sum_insert? [DecidableEq κ] (h : t.insert? r = some u) (q : ρ → Bool) (w : ρ → ℕ) :
    u.sum q w = t.sum q w + if q r then w r else 0 := by
  rw [sum, (insert?_some h).1, List.filter_cons]
  split
  · simp [sum, Nat.add_comm]
  · simp [sum]

theorem sum_eq_zero (h : ∀ r ∈ t, q r = false) : t.sum q w = 0 := by
  have hnil : t.rows.filter q = [] := List.filter_eq_nil_iff.mpr fun r hr => by simp [h r hr]
  simp [sum, hnil]

theorem sum_deleteWhere_le (t : KeyedTable key) (p q : ρ → Bool) (w : ρ → ℕ) :
    (t.deleteWhere p).sum q w ≤ t.sum q w :=
  ((List.filter_sublist.filter q).map w).sum_le_sum fun _ _ => Nat.zero_le _

theorem sum_deleteWhere (t : KeyedTable key) (p q : ρ → Bool) (w : ρ → ℕ) :
    (t.deleteWhere p).sum q w = t.sum (fun r => q r && !p r) w := by
  simp only [sum, deleteWhere, List.filter_filter]

/-- The row of one key contributes separately from all others. -/
theorem sum_split_key [DecidableEq κ] (hr : r ∈ t) (q : ρ → Bool) (w : ρ → ℕ) :
    t.sum q w = t.sum (fun r' => q r' && key r' ≠ key r) w + if q r then w r else 0 := by
  have hlist : ∀ rows : List ρ, (rows.map key).Nodup → r ∈ rows →
      ((rows.filter q).map w).sum =
        ((rows.filter fun r' => q r' && key r' ≠ key r).map w).sum + if q r then w r else 0 := by
    intro rows
    induction rows with
    | nil => intro _ hmem; cases hmem
    | cons a rows ih =>
      intro hnod hmem
      obtain ⟨hfr, hnod⟩ := List.nodup_cons.mp hnod
      rcases List.mem_cons.mp hmem with rfl | hmem
      · have hrest : rows.filter (fun r' => q r' && key r' ≠ key r) = rows.filter q := by
          refine List.filter_congr fun r' hr' => ?_
          have hne : key r' ≠ key r := fun heq => hfr (List.mem_map.mpr ⟨r', hr', heq⟩)
          simp [hne]
        rw [List.filter_cons, List.filter_cons, hrest]
        by_cases hq : q r = true
        · simp [hq, Nat.add_comm]
        · simp [hq]
      · have htail := ih hnod hmem
        have hne : key a ≠ key r := fun heq => hfr (heq ▸ List.mem_map_of_mem hmem)
        rw [List.filter_cons, List.filter_cons]
        by_cases hq : q a = true
        · simp only [hq, hne, ne_eq, not_false_eq_true, decide_true, Bool.and_self, if_true,
            List.map_cons, List.sum_cons, htail]
          omega
        · simp only [hq, Bool.false_and, Bool.false_eq_true, if_false, htail]
  exact hlist t.rows t.keys_nodup hr

theorem count_split_key [DecidableEq κ] (hr : r ∈ t) (q : ρ → Bool) :
    t.count q = t.count (fun r' => q r' && key r' ≠ key r) + if q r then 1 else 0 := by
  rw [count_eq_sum, count_eq_sum, sum_split_key hr]

/-- Updating one row leaves the sum over all other rows alone. -/
theorem sum_updateKey_of_ne [DecidableEq κ] (hf : ∀ r, key (f r) = key r) (k : κ) (q : ρ → Bool)
    (w : ρ → ℕ) :
    (t.updateWhere (fun r => key r = k) f hf).sum (fun r => q r && key r ≠ k) w =
      t.sum (fun r => q r && key r ≠ k) w := by
  simp only [sum, updateWhere, List.filter_map, List.map_map]
  have hfilter : t.rows.filter ((fun r => q r && key r ≠ k) ∘
      fun r => if key r = k then f r else r) = t.rows.filter fun r => q r && key r ≠ k := by
    refine List.filter_congr fun r _ => ?_
    by_cases hk : key r = k
    · simp [hk, hf]
    · simp [hk]
  simp only [decide_eq_true_eq]
  rw [hfilter]
  congr 1
  refine List.map_congr_left fun r hr => ?_
  have hk : key r ≠ k := of_decide_eq_true (Bool.and_eq_true_iff.mp (List.mem_filter.mp hr).2).2
  simp [hk]

/-- Updating one row moves a sum by the change of that row. -/
theorem sum_updateKey [DecidableEq κ] (hf : ∀ r, key (f r) = key r) (hr : r ∈ t)
    (hq : q (f r) = q r) :
    (t.updateWhere (fun r' => key r' = key r) f hf).sum q w + (if q r then w r else 0) =
      t.sum q w + if q r then w (f r) else 0 := by
  have hnew : f r ∈ t.updateWhere (fun r' => key r' = key r) f hf :=
    (mem_updateWhere hf).mpr ⟨r, hr, by simp⟩
  have haft := sum_split_key hnew q w
  have hrest := sum_updateKey_of_ne (t := t) hf (key r) q w
  rw [hf, hrest, hq] at haft
  have hbef := sum_split_key hr q w
  omega

end Sums

section Singletons

/-- A condition that holds of one row selects that row. -/
theorem filter_eq_singleton (hr : r ∈ t) (hp : p r = true)
    (hone : ∀ r' ∈ t, p r' = true → r' = r) : t.rows.filter p = [r] := by
  have hnod : (t.rows.filter p).Nodup := t.keys_nodup.of_map.filter p
  have hmem : ∀ r', r' ∈ t.rows.filter p ↔ r' = r := by
    intro r'
    rw [List.mem_filter]
    constructor
    · rintro ⟨hr', hp'⟩
      exact hone r' hr' hp'
    · rintro rfl
      exact ⟨hr, hp⟩
  exact List.perm_singleton.mp ((List.perm_ext_iff_of_nodup hnod (List.nodup_singleton r)).mpr
    fun r' => by rw [hmem, List.mem_singleton])

theorem count_eq_one (hr : r ∈ t) (hp : p r = true) (hone : ∀ r' ∈ t, p r' = true → r' = r) :
    t.count p = 1 := by
  rw [count, List.countP_eq_length_filter, filter_eq_singleton hr hp hone, List.length_singleton]

end Singletons

section Lookup

theorem find?_insert? [DecidableEq κ] (h : t.insert? r = some u) (k : κ) :
    u.find? k = if key r = k then some r else t.find? k := by
  rw [find?, (insert?_some h).1, List.find?_cons]
  by_cases hk : key r = k <;> simp [hk, find?]

theorem find?_deleteWhere [DecidableEq κ] (t : KeyedTable key) (p : ρ → Bool) (k : κ) :
    (t.deleteWhere p).find? k = (t.find? k).filter fun r => !p r := by
  cases hfind : t.find? k with
  | none =>
    rw [Option.filter_none, find?_eq_none_iff]
    intro r hr
    exact find?_eq_none_iff.mp hfind r (mem_deleteWhere.mp hr).1
  | some r =>
    obtain ⟨hr, hk⟩ := find?_some hfind
    cases hp : p r with
    | false =>
      rw [Option.filter_some, hp]
      exact find?_eq_some_iff.mpr ⟨mem_deleteWhere.mpr ⟨hr, hp⟩, hk⟩
    | true =>
      rw [Option.filter_some, hp]
      refine find?_eq_none_iff.mpr fun r' hr' hk' => ?_
      obtain ⟨hmem, hp'⟩ := mem_deleteWhere.mp hr'
      rw [t.eq_of_key_eq hmem hr (hk'.trans hk.symm), hp] at hp'
      cases hp'

theorem find?_updateWhere [DecidableEq κ] {hf : ∀ r, key (f r) = key r} (k : κ) :
    (t.updateWhere p f hf).find? k = (t.find? k).map fun r => if p r then f r else r := by
  have hkey : ∀ r, key (if p r then f r else r) = key r := by
    intro r
    split
    · exact hf r
    · rfl
  cases hfind : t.find? k with
  | none =>
    refine find?_eq_none_iff.mpr fun r hr => ?_
    obtain ⟨r₀, hr₀, rfl⟩ := (mem_updateWhere hf).mp hr
    rw [hkey]
    exact find?_eq_none_iff.mp hfind r₀ hr₀
  | some r =>
    obtain ⟨hr, hk⟩ := find?_some hfind
    exact find?_eq_some_iff.mpr ⟨(mem_updateWhere hf).mpr ⟨r, hr, rfl⟩, (hkey r).trans hk⟩

theorem find?_upsert [DecidableEq κ] (t : KeyedTable key) (r : ρ) (k : κ) :
    (t.upsert r).find? k = if key r = k then some r else t.find? k := by
  by_cases hk : key r = k
  · rw [if_pos hk]
    exact find?_eq_some_iff.mpr ⟨mem_upsert.mpr (.inl rfl), hk⟩
  · rw [if_neg hk]
    cases hfind : t.find? k with
    | none =>
      refine find?_eq_none_iff.mpr fun r' hr' hk' => ?_
      obtain rfl | ⟨hmem, _⟩ := mem_upsert.mp hr'
      · exact hk hk'
      · exact find?_eq_none_iff.mp hfind r' hmem hk'
    | some r' =>
      obtain ⟨hmem, hk'⟩ := find?_some hfind
      exact find?_eq_some_iff.mpr
        ⟨mem_upsert.mpr (.inr ⟨hmem, fun h => hk (h.symm.trans hk')⟩), hk'⟩

/-- The row takes the place of the one with its key, if there is one. -/
theorem length_upsert_le [DecidableEq κ] (t : KeyedTable key) (r : ρ) :
    (t.upsert r).rows.length ≤
      t.rows.length + if (t.find? (key r)).isNone then 1 else 0 := by
  have hrows : (t.upsert r).rows = r :: t.rows.filter fun r' => key r' ≠ key r := rfl
  rw [hrows, List.length_cons]
  cases hfind : t.find? (key r) with
  | none =>
    have hle := List.length_filter_le (fun r' => decide (key r' ≠ key r)) t.rows
    simpa using hle
  | some r' =>
    obtain ⟨hmem, hk⟩ := find?_some hfind
    have hlt : (t.rows.filter fun r' => key r' ≠ key r).length < t.rows.length :=
      List.length_filter_lt_length_iff_exists.mpr ⟨r', hmem, by simp [hk]⟩
    exact hlt

end Lookup

end KeyedTable

end VaultLink
