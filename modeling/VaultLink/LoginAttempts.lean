import VaultLink.LoginLimiter
import VaultLink.SlidingWindow
import Mathlib.Data.List.GetD
import Mathlib.Data.List.Induction

/-!
# What a call of the limiter does

Everything before the recording of an attempt only drops expired attempts (`Pruned`). The
choice of the targets gives each key its own history, if it has one or its bucket is empty,
and its bucket otherwise (`Chosen`); recording then adds one attempt to each target and
leaves the other histories alone.
-/
namespace VaultLink

open KeyedTable
open SlidingWindow

namespace LoginLimiter

section Pruning

variable {limiter : LoginLimiter} {now : ℕ} {key : String}

/-- A history that is kept, pruned, or dropped because nothing of it is left. -/
inductive Expires (limiter : LoginLimiter) (now : ℕ) :
    Option (List ℕ) → Option (List ℕ) → Prop
  | kept (history : Option (List ℕ)) : Expires limiter now history history
  | pruned (attempts : List ℕ) :
    Expires limiter now (some attempts) (some (fresh limiter.window now attempts))
  | dropped (attempts : List ℕ) (h : fresh limiter.window now attempts = []) :
    Expires limiter now (some attempts) none

namespace Expires

variable {history history' history'' : Option (List ℕ)}

theorem trans (h : Expires limiter now history history')
    (h' : Expires limiter now history' history'') : Expires limiter now history history'' := by
  cases h with
  | kept => exact h'
  | pruned attempts =>
    cases h' with
    | kept => exact .pruned attempts
    | pruned =>
      rw [fresh_fresh]
      exact .pruned attempts
    | dropped _ hemp =>
      rw [fresh_fresh] at hemp
      exact .dropped attempts hemp
  | dropped attempts hemp =>
    cases h' with
    | kept => exact .dropped attempts hemp

/-- No unexpired attempt is lost. -/
theorem fresh_sublist (h : Expires limiter now history history') :
    (fresh limiter.window now (history.getD [])).Sublist (history'.getD []) := by
  cases h with
  | kept => exact SlidingWindow.fresh_sublist _ _ _
  | pruned => exact List.Sublist.refl _
  | dropped attempts hemp =>
    rw [Option.getD_some, hemp]
    exact List.nil_sublist _

/-- No attempt is added. -/
theorem sublist (h : Expires limiter now history history') :
    (history'.getD []).Sublist (history.getD []) := by
  cases h with
  | kept => exact List.Sublist.refl _
  | pruned => exact SlidingWindow.fresh_sublist _ _ _
  | dropped => exact List.nil_sublist _

theorem eq_none (h : Expires limiter now none history') : history' = none := by
  cases h with
  | kept => rfl

end Expires

theorem expires_expireBucket (history : Option (List ℕ)) :
    Expires limiter now history (limiter.expireBucket now history) := by
  cases history with
  | none => exact .kept none
  | some attempts =>
    rw [expireBucket]
    split
    · rename_i hemp
      exact .dropped attempts (List.isEmpty_iff.mp hemp)
    · exact .pruned attempts

/-- The history of a key in the primary map. -/
def historyOf (entries : KeyedTable KeyHistory.key) (key : String) : Option (List ℕ) :=
  (entries.find? key).map KeyHistory.attempts

theorem historyOf_pruneKey (entries : KeyedTable KeyHistory.key) (pruned : String) :
    Expires limiter now (historyOf entries key)
      (historyOf (limiter.pruneKey now entries pruned) key) := by
  rw [historyOf, historyOf, pruneKey, find?_updateWhere]
  cases entries.find? key with
  | none => exact .kept none
  | some history =>
    by_cases hkey : history.key = pruned
    · simpa [hkey, pruneHistory, fresh] using Expires.pruned history.attempts
    · simpa [hkey] using Expires.kept (some history.attempts)

theorem historyOf_removeEmpty (entries : KeyedTable KeyHistory.key) (removed : String) :
    Expires limiter now (historyOf entries key) (historyOf (removeEmpty entries removed) key) := by
  rw [historyOf, historyOf, removeEmpty, find?_deleteWhere]
  cases entries.find? key with
  | none => exact .kept none
  | some history =>
    rw [Option.filter_some]
    split
    · exact .kept _
    · rename_i hremoved
      refine .dropped history.attempts ?_
      simp only [Bool.not_eq_true', Bool.not_eq_false, Bool.and_eq_true] at hremoved
      rw [List.isEmpty_iff.mp hremoved.2]
      rfl

theorem historyOf_cleanupExpired (state : LimiterState) :
    Expires limiter now (historyOf state.entries key)
      (historyOf (limiter.cleanupExpired now state).entries key) := by
  rw [historyOf, historyOf, cleanupExpired, find?_deleteWhere,
    find?_updateWhere]
  cases state.entries.find? key with
  | none => exact .kept none
  | some history =>
    simp only [Option.map_some, if_true, Option.filter_some]
    split
    · exact .pruned history.attempts
    · rename_i hemp
      exact .dropped history.attempts (by simpa [pruneHistory, fresh] using hemp)

/-- The primary map has only lost expired attempts. -/
structure EntriesPruned (limiter : LoginLimiter) (now : ℕ)
    (entries entries' : KeyedTable KeyHistory.key) : Prop where
  history : ∀ key, Expires limiter now (historyOf entries key) (historyOf entries' key)
  size : entries'.rows.length ≤ entries.rows.length

theorem EntriesPruned.trans {entries entries' entries'' : KeyedTable KeyHistory.key}
    (h : EntriesPruned limiter now entries entries')
    (h' : EntriesPruned limiter now entries' entries'') :
    EntriesPruned limiter now entries entries'' :=
  ⟨fun key => (h.history key).trans (h'.history key), h'.size.trans h.size⟩

theorem EntriesPruned.foldl
    {step : KeyedTable KeyHistory.key → String → KeyedTable KeyHistory.key}
    (hstep : ∀ entries key, EntriesPruned limiter now entries (step entries key))
    (keys : List String) (entries : KeyedTable KeyHistory.key) :
    EntriesPruned limiter now entries (keys.foldl step entries) := by
  induction keys generalizing entries with
  | nil => exact ⟨fun _ => .kept _, le_rfl⟩
  | cons key keys ih => exact (hstep entries key).trans (ih (step entries key))

theorem entriesPruned_pruneKey (entries : KeyedTable KeyHistory.key) (key : String) :
    EntriesPruned limiter now entries (limiter.pruneKey now entries key) :=
  ⟨fun _ => historyOf_pruneKey entries key, by simp [pruneKey, updateWhere]⟩

theorem entriesPruned_removeEmpty (entries : KeyedTable KeyHistory.key) (key : String) :
    EntriesPruned limiter now entries (removeEmpty entries key) :=
  ⟨fun _ => historyOf_removeEmpty entries key, List.length_filter_le _ _⟩

/-- The state has only lost expired attempts. -/
structure Pruned (limiter : LoginLimiter) (now : ℕ) (state state' : LimiterState) : Prop where
  entries : EntriesPruned limiter now state.entries state'.entries
  bucket : ∀ index, Expires limiter now (state.overflow.getD index none)
    (state'.overflow.getD index none)
  buckets : state'.overflow.length = state.overflow.length

theorem pruned_cleanupExpired (state : LimiterState) :
    Pruned limiter now state (limiter.cleanupExpired now state) where
  entries := by
    refine ⟨fun _ => historyOf_cleanupExpired state, ?_⟩
    have hle := List.length_filter_le (fun history : KeyHistory => !history.attempts.isEmpty)
      (state.entries.updateWhere (fun _ => true) fun history =>
        { history with attempts := limiter.pruneHistory now history.attempts }).rows
    simpa [cleanupExpired, deleteWhere, updateWhere] using hle
  bucket := by
    intro index
    have hmap : (limiter.cleanupExpired now state).overflow.getD index none =
        limiter.expireBucket now (state.overflow.getD index none) :=
      List.getD_map state.overflow none (limiter.expireBucket now)
    rw [hmap]
    exact expires_expireBucket _
  buckets := by simp [cleanupExpired]

theorem pruned_periodicCleanup (state : LimiterState) :
    Pruned limiter now state (limiter.periodicCleanup now state) := by
  rw [periodicCleanup]
  split
  · exact ⟨(pruned_cleanupExpired _).entries, (pruned_cleanupExpired _).bucket,
      (pruned_cleanupExpired _).buckets⟩
  · exact ⟨⟨fun _ => .kept _, le_rfl⟩, fun _ => .kept _, rfl⟩

end Pruning

section Choice

variable {limiter : LoginLimiter} {now : ℕ} {entries : KeyedTable KeyHistory.key} {key : String}
  {targets : AttemptTargets} {before : List (Option (List ℕ))}

theorem getD_set (buckets : List (Option (List ℕ))) (index index' : ℕ)
    (history : Option (List ℕ)) :
    (buckets.set index history).getD index' none =
      if index = index' ∧ index < buckets.length then history else buckets.getD index' none := by
  rw [List.getD_eq_getElem?_getD, List.getElem?_set, List.getD_eq_getElem?_getD]
  by_cases heq : index = index'
  · subst heq
    by_cases hlt : index < buckets.length
    · simp [hlt]
    · simp [hlt]
  · simp [heq]

theorem any_key_iff : entries.any (·.key = key) = true ↔ (historyOf entries key).isSome := by
  rw [any_iff, historyOf, Option.isSome_map]
  constructor
  · rintro ⟨history, hmem, hkey⟩
    rw [find?_eq_some_iff.mpr ⟨hmem, of_decide_eq_true hkey⟩]
    rfl
  · intro hsome
    obtain ⟨history, hfind⟩ := Option.isSome_iff_exists.mp hsome
    obtain ⟨hmem, hkey⟩ := find?_some hfind
    exact ⟨history, hmem, decide_eq_true hkey⟩

/-- What is known once the keys of `handled` have been assigned: each is recorded in its own
history, which it has or for which its bucket is empty, or in its bucket. -/
structure Chosen (limiter : LoginLimiter) (now : ℕ) (entries : KeyedTable KeyHistory.key)
    (before : List (Option (List ℕ))) (slots : ℕ) (handled : List String)
    (targets : AttemptTargets) : Prop where
  length : targets.overflow.length = before.length
  bucket : ∀ index, Expires limiter now (before.getD index none)
    (targets.overflow.getD index none)
  primary : ∀ key ∈ targets.primary, key ∈ handled ∧ ((historyOf entries key).isSome ∨
    targets.overflow.getD (limiter.hash key % before.length) none = none)
  covered : ∀ key ∈ handled, key ∈ targets.primary ∨
    historyOf entries key = none ∧ limiter.hash key % before.length ∈ targets.buckets
  primary_nodup : targets.primary.Nodup
  buckets_nodup : targets.buckets.Nodup
  slots : (targets.primary.filter fun key => (historyOf entries key).isNone).length +
    targets.primarySlots = slots

namespace Chosen

variable {slots : ℕ} {handled : List String}

variable (h : Chosen limiter now entries before slots handled targets)

include h

/-- Expired attempts leave a bucket; an empty one stays empty. -/
theorem expire (index : ℕ) :
    Chosen limiter now entries before slots handled
      { targets with
        overflow := targets.overflow.set index
          (limiter.expireBucket now (targets.overflow.getD index none)) } := by
  have hexp : ∀ index', Expires limiter now (targets.overflow.getD index' none)
      ((targets.overflow.set index
        (limiter.expireBucket now (targets.overflow.getD index none))).getD index' none) := by
    intro index'
    rw [getD_set]
    split
    · rename_i heq
      rw [heq.1]
      exact expires_expireBucket _
    · exact .kept _
  refine { h with
    length := by simpa using h.length
    bucket := fun index' => (h.bucket index').trans (hexp index')
    primary := fun key hkey => ⟨(h.primary key hkey).1, ?_⟩ }
  refine (h.primary key hkey).2.imp_right fun hnone => ?_
  have hexpired := hexp (limiter.hash key % before.length)
  rw [hnone] at hexpired
  exact hexpired.eq_none

theorem addPrimary (hkey : key ∉ handled) {primarySlots : ℕ}
    (hplace : (historyOf entries key).isSome ∨
      targets.overflow.getD (limiter.hash key % before.length) none = none)
    (hslots : (if (historyOf entries key).isNone then 1 else 0) + primarySlots =
      targets.primarySlots) :
    Chosen limiter now entries before slots (handled ++ [key])
      { targets with primary := targets.primary ++ [key], primarySlots } where
  length := h.length
  bucket := h.bucket
  primary := by
    intro key' hkey'
    obtain hold | hnew := List.mem_append.mp hkey'
    · exact ⟨List.mem_append_left _ (h.primary key' hold).1, (h.primary key' hold).2⟩
    · rw [List.mem_singleton.mp hnew]
      exact ⟨by simp, hplace⟩
  covered := by
    intro key' hkey'
    obtain hold | hnew := List.mem_append.mp hkey'
    · exact (h.covered key' hold).imp_left (List.mem_append_left _)
    · exact .inl (List.mem_append_right _ hnew)
  primary_nodup := by
    refine List.nodup_append.mpr ⟨h.primary_nodup, List.nodup_singleton key, ?_⟩
    rintro key' hkey' _ hnew rfl
    rw [List.mem_singleton.mp hnew] at hkey'
    exact hkey (h.primary key hkey').1
  buckets_nodup := h.buckets_nodup
  slots := by
    have hsingle : ([key].filter fun key => (historyOf entries key).isNone).length =
        if (historyOf entries key).isNone then 1 else 0 := by
      rw [List.filter_cons, List.filter_nil]
      split <;> rfl
    have := h.slots
    simp only [List.filter_append, List.length_append, hsingle]
    omega

theorem addBucket (hnone : historyOf entries key = none) :
    Chosen limiter now entries before slots (handled ++ [key])
      { targets with
        buckets :=
          if targets.buckets.contains (limiter.hash key % before.length) then targets.buckets
          else targets.buckets ++ [limiter.hash key % before.length] } where
  length := h.length
  bucket := h.bucket
  primary := fun key' hkey' =>
    ⟨List.mem_append_left _ (h.primary key' hkey').1, (h.primary key' hkey').2⟩
  covered := by
    intro key' hkey'
    dsimp only
    obtain hold | hnew := List.mem_append.mp hkey'
    · refine (h.covered key' hold).imp_right fun hbuc => ⟨hbuc.1, ?_⟩
      split
      · exact hbuc.2
      · exact List.mem_append_left _ hbuc.2
    · rw [List.mem_singleton.mp hnew]
      refine .inr ⟨hnone, ?_⟩
      split
      · rename_i hcon
        exact List.contains_iff_mem.mp hcon
      · simp
  primary_nodup := h.primary_nodup
  buckets_nodup := by
    dsimp only
    split
    · exact h.buckets_nodup
    · rename_i hcon
      refine List.nodup_append.mpr ⟨h.buckets_nodup, List.nodup_singleton _, ?_⟩
      rintro index hidx _ hnew rfl
      rw [List.mem_singleton.mp hnew] at hidx
      exact hcon (List.contains_iff_mem.mpr hidx)
  slots := h.slots

/-- A key takes a slot of the map only when its bucket has no unexpired attempt. -/
theorem chooseTarget (hkey : key ∉ handled) :
    Chosen limiter now entries before slots (handled ++ [key])
      (limiter.chooseTarget now entries targets key) := by
  rw [LoginLimiter.chooseTarget]
  by_cases hany : entries.any (·.key = key) = true
  · rw [if_pos hany]
    have hsome := any_key_iff.mp hany
    refine h.addPrimary hkey (.inl hsome) ?_
    simp [Option.isSome_iff_ne_none.mp hsome]
  · rw [if_neg hany]
    have hnone : historyOf entries key = none := by
      rw [any_key_iff] at hany
      simpa using hany
    have hbuc : limiter.overflowBucket targets.overflow key = limiter.hash key % before.length := by
      rw [overflowBucket, h.length]
    have hexpired := h.expire (limiter.hash key % before.length)
    dsimp only
    rw [hbuc]
    split
    · exact hexpired.addBucket hnone
    · rename_i hfree
      simp only [Bool.or_eq_true, decide_eq_true_eq, not_or, Bool.not_eq_true,
        Option.isSome_eq_false_iff, Option.isNone_iff_eq_none] at hfree
      refine hexpired.addPrimary hkey (.inr hfree.1) ?_
      simp only [hnone, Option.isNone_none, if_true]
      omega

omit h

theorem foldl {keys : List String} (hkeys : keys.Nodup)
    (h : Chosen limiter now entries before slots handled targets)
    (hdisjoint : ∀ key ∈ keys, key ∉ handled) :
    Chosen limiter now entries before slots (handled ++ keys)
      (keys.foldl (limiter.chooseTarget now entries) targets) := by
  induction keys generalizing handled targets with
  | nil => simpa using h
  | cons key keys ih =>
    obtain ⟨hfirst, hkeys⟩ := List.nodup_cons.mp hkeys
    have hnext := h.chooseTarget (hdisjoint key List.mem_cons_self)
    rw [List.foldl_cons, List.append_cons]
    refine ih hkeys hnext fun key' hkey' hmem => ?_
    obtain hold | hnew := List.mem_append.mp hmem
    · exact hdisjoint key' (List.mem_cons_of_mem key hkey') hold
    · rw [List.mem_singleton.mp hnew] at hkey'
      exact hfirst hkey'

theorem start (before : List (Option (List ℕ))) (slots : ℕ) :
    Chosen limiter now entries before slots [] ⟨before, [], [], slots⟩ where
  length := rfl
  bucket := fun _ => .kept _
  primary := fun _ h => absurd h List.not_mem_nil
  covered := fun _ h => absurd h List.not_mem_nil
  primary_nodup := List.nodup_nil
  buckets_nodup := List.nodup_nil
  slots := by simp

end Chosen

/-- The earlier keys do not see the last one. -/
theorem filter_zipIdx_concat (keys : List String) (key : String) :
    (keys.zipIdx.filter fun (key', index) => !((keys ++ [key]).take index).contains key') =
      keys.zipIdx.filter fun (key', index) => !(keys.take index).contains key' := by
  refine List.filter_congr ?_
  rintro ⟨key', index⟩ hmem
  have hidx : index < keys.length := by
    have := List.snd_lt_of_mem_zipIdx hmem
    omega
  dsimp only
  rw [List.take_append_of_le_length (Nat.le_of_lt hidx)]

theorem uniqueKeys_concat (keys : List String) (key : String) :
    uniqueKeys (keys ++ [key]) = uniqueKeys keys ++ if key ∈ keys then [] else [key] := by
  rw [uniqueKeys, List.zipIdx_append, List.filter_append, List.map_append, filter_zipIdx_concat]
  congr 1
  by_cases hmem : key ∈ keys
  · simp [List.zipIdx, hmem]
  · simp [List.zipIdx, hmem]

theorem mem_uniqueKeys {keys : List String} : key ∈ uniqueKeys keys ↔ key ∈ keys := by
  induction keys using List.reverseRecOn with
  | nil => simp [uniqueKeys]
  | append_singleton keys last ih =>
    rw [uniqueKeys_concat, List.mem_append, List.mem_append, ih]
    by_cases hlast : last ∈ keys
    · rw [if_pos hlast, List.mem_singleton]
      refine or_congr_right' fun hkey => ?_
      simp only [List.not_mem_nil, false_iff]
      rintro rfl
      exact hkey hlast
    · rw [if_neg hlast]

theorem nodup_uniqueKeys (keys : List String) : (uniqueKeys keys).Nodup := by
  induction keys using List.reverseRecOn with
  | nil => exact List.nodup_nil
  | append_singleton keys last ih =>
    rw [uniqueKeys_concat]
    by_cases hlast : last ∈ keys
    · rw [if_pos hlast, List.append_nil]
      exact ih
    · rw [if_neg hlast]
      refine List.nodup_append.mpr ⟨ih, List.nodup_singleton last, ?_⟩
      rintro key hkey _ hnew rfl
      rw [List.mem_singleton.mp hnew] at hkey
      exact hlast (mem_uniqueKeys.mp hkey)

/-- Before it records anything, a call prunes the state and chooses the targets. -/
theorem prepare_spec (keys : List String) (state : LimiterState) :
    let prepared := limiter.prepare now keys state
    Pruned limiter now state prepared.1 ∧ ∃ before,
      prepared.1.overflow = prepared.2.overflow ∧ before.length = state.overflow.length ∧
      Chosen limiter now prepared.1.entries before
        (limiter.capacity - prepared.1.entries.rows.length) (uniqueKeys keys) prepared.2 := by
  intro prepared
  have hcleanup := @pruned_periodicCleanup limiter now state
  have hpruned : EntriesPruned limiter now (limiter.periodicCleanup now state).entries
      prepared.1.entries :=
    (EntriesPruned.foldl entriesPruned_pruneKey (uniqueKeys keys) _).trans
      (EntriesPruned.foldl entriesPruned_removeEmpty (uniqueKeys keys) _)
  have hchosen : Chosen limiter now prepared.1.entries (limiter.periodicCleanup now state).overflow
      (limiter.capacity - prepared.1.entries.rows.length) ([] ++ uniqueKeys keys) prepared.2 :=
    (Chosen.start _ _).foldl (nodup_uniqueKeys keys) fun _ _ => List.not_mem_nil
  refine ⟨⟨hcleanup.entries.trans hpruned, fun index => ?_, ?_⟩, _, rfl, hcleanup.buckets,
    hchosen⟩
  · exact (hcleanup.bucket index).trans (hchosen.bucket index)
  · exact hchosen.length.trans hcleanup.buckets

end Choice

section Recording

variable {limiter : LoginLimiter} {now : ℕ} {state : LimiterState} {key : String} {index : ℕ}

/-- The attempts of the history a target stands for. -/
def roomOf (state : LimiterState) : AttemptTarget → List ℕ
  | .primary key => (historyOf state.entries key).getD []
  | .bucket index => (state.overflow.getD index none).getD []

theorem historyOf_record_primary (state : LimiterState) (key key' : String) :
    historyOf (record now state (.primary key)).entries key' =
      if key = key' then some (roomOf state (.primary key) ++ [now])
      else historyOf state.entries key' := by
  rw [historyOf, record, find?_upsert]
  split <;> rfl

theorem bucket_record (state : LimiterState) (index index' : ℕ) :
    (record now state (.bucket index)).overflow.getD index' none =
      if index = index' ∧ index < state.overflow.length then
        some (roomOf state (.bucket index) ++ [now])
      else state.overflow.getD index' none :=
  getD_set _ _ _ _

theorem length_overflow_record (state : LimiterState) (target : AttemptTarget) :
    (record now state target).overflow.length = state.overflow.length := by
  cases target with
  | primary => rfl
  | bucket => simp [record]

/-- Recording one target leaves the others alone. -/
theorem roomOf_record_of_ne {target target' : AttemptTarget} (hne : target ≠ target') :
    roomOf (record now state target) target' = roomOf state target' := by
  cases target with
  | primary key =>
    cases target' with
    | bucket => rfl
    | primary key' =>
      have hkey : key ≠ key' := fun h => hne (congrArg _ h)
      rw [roomOf, historyOf_record_primary, if_neg hkey]
      rfl
  | bucket index =>
    cases target' with
    | primary => rfl
    | bucket index' =>
      have hidx : ¬(index = index' ∧ index < state.overflow.length) := fun h =>
        hne (congrArg _ h.1)
      rw [roomOf, bucket_record, if_neg hidx]
      rfl

theorem roomOf_record_self_le (target : AttemptTarget) :
    (roomOf (record now state target) target).length ≤ (roomOf state target).length + 1 := by
  cases target with
  | primary =>
    rw [roomOf, historyOf_record_primary, if_pos rfl]
    simp
  | bucket =>
    rw [roomOf, bucket_record]
    split
    · simp
    · exact Nat.le_succ _

theorem roomOf_sublist_record (target target' : AttemptTarget) :
    (roomOf state target').Sublist (roomOf (record now state target) target') := by
  by_cases hne : target = target'
  · subst hne
    cases target with
    | primary =>
      rw [roomOf, roomOf, historyOf_record_primary, if_pos rfl]
      exact List.sublist_append_left _ _
    | bucket =>
      rw [roomOf, roomOf, bucket_record]
      split
      · exact List.sublist_append_left _ _
      · exact List.Sublist.refl _
  · rw [roomOf_record_of_ne hne]

/-- A recorded target has the attempt behind those it had. -/
theorem roomOf_record_self {target : AttemptTarget}
    (hrange : ∀ index, target = .bucket index → index < state.overflow.length) :
    roomOf (record now state target) target = roomOf state target ++ [now] := by
  cases target with
  | primary =>
    rw [roomOf, historyOf_record_primary, if_pos rfl]
    rfl
  | bucket index =>
    rw [roomOf, bucket_record, if_pos ⟨rfl, hrange index rfl⟩]
    rfl

theorem roomOf_sublist_foldl (targets : List AttemptTarget) (target : AttemptTarget) :
    (roomOf state target).Sublist (roomOf (targets.foldl (record now) state) target) := by
  induction targets generalizing state with
  | nil => exact List.Sublist.refl _
  | cons first targets ih => exact (roomOf_sublist_record first target).trans ih

theorem roomOf_foldl_of_mem {targets : List AttemptTarget} {target : AttemptTarget}
    (hmem : target ∈ targets)
    (hrange : ∀ index, target = .bucket index → index < state.overflow.length) :
    (roomOf state target ++ [now]).Sublist
      (roomOf (targets.foldl (record now) state) target) := by
  induction targets generalizing state with
  | nil => cases hmem
  | cons first targets ih =>
    rw [List.foldl_cons]
    by_cases hfirst : first = target
    · rw [hfirst, ← roomOf_record_self hrange]
      exact roomOf_sublist_foldl targets target
    · rw [← roomOf_record_of_ne hfirst]
      refine ih ((List.mem_cons.mp hmem).resolve_left fun h => hfirst h.symm) ?_
      rw [length_overflow_record]
      exact hrange

theorem historyOf_foldl_of_not_mem {targets : List AttemptTarget}
    (hmem : .primary key ∉ targets) :
    historyOf (targets.foldl (record now) state).entries key = historyOf state.entries key := by
  induction targets generalizing state with
  | nil => rfl
  | cons first targets ih =>
    obtain ⟨hfirst, hrest⟩ := not_or.mp (mt List.mem_cons.mpr hmem)
    rw [List.foldl_cons, ih hrest]
    cases first with
    | primary =>
      rw [historyOf_record_primary, if_neg]
      rintro rfl
      exact hfirst rfl
    | bucket => rfl

theorem isSome_historyOf_foldl {targets : List AttemptTarget}
    (h : .primary key ∈ targets ∨ (historyOf state.entries key).isSome = true) :
    (historyOf (targets.foldl (record now) state).entries key).isSome = true := by
  induction targets generalizing state with
  | nil => exact h.resolve_left List.not_mem_nil
  | cons first targets ih =>
    refine ih ?_
    obtain hmem | hsome := h
    · refine (List.mem_cons.mp hmem).symm.imp_right ?_
      rintro rfl
      rw [historyOf_record_primary, if_pos rfl]
      rfl
    · refine .inr ?_
      cases first with
      | primary =>
        rw [historyOf_record_primary]
        split
        · rfl
        · exact hsome
      | bucket => exact hsome

theorem length_overflow_foldl (targets : List AttemptTarget) :
    (targets.foldl (record now) state).overflow.length = state.overflow.length := by
  induction targets generalizing state with
  | nil => rfl
  | cons first targets ih => rw [List.foldl_cons, ih, length_overflow_record]

/-- Each target is recorded once, and the other histories stay as they are. -/
theorem room_foldl_le {max : ℕ} {targets : List AttemptTarget} (hnod : targets.Nodup)
    (hroom : ∀ target ∈ targets, (roomOf state target).length < max)
    (hall : ∀ target, (roomOf state target).length ≤ max) (target : AttemptTarget) :
    (roomOf (targets.foldl (record now) state) target).length ≤ max := by
  induction targets generalizing state with
  | nil => exact hall target
  | cons first targets ih =>
    obtain ⟨hfirst, hnod⟩ := List.nodup_cons.mp hnod
    refine ih hnod (fun target' htarget' => ?_) fun target' => ?_
    · have hne : first ≠ target' := by
        rintro rfl
        exact hfirst htarget'
      rw [roomOf_record_of_ne hne]
      exact hroom target' (List.mem_cons_of_mem first htarget')
    · by_cases hne : first = target'
      · subst hne
        have hle := @roomOf_record_self_le now state first
        have hlt := hroom first List.mem_cons_self
        omega
      · rw [roomOf_record_of_ne hne]
        exact hall target'

/-- The target is a key that has no history. -/
def isNewKey (state : LimiterState) : AttemptTarget → Bool
  | .primary key => (historyOf state.entries key).isNone
  | .bucket _ => false

theorem size_record_le (target : AttemptTarget) :
    (record now state target).entries.rows.length ≤
      state.entries.rows.length + if isNewKey state target then 1 else 0 := by
  cases target with
  | primary key =>
    have hnew : isNewKey state (.primary key) = (state.entries.find? key).isNone := by
      rw [isNewKey, historyOf, Option.isNone_map]
    rw [hnew]
    exact state.entries.length_upsert_le ⟨key, roomOf state (.primary key) ++ [now]⟩
  | bucket => exact Nat.le_add_right _ _

/-- The map grows by the keys that are new to it. -/
theorem size_foldl_le (targets : List AttemptTarget) :
    (targets.foldl (record now) state).entries.rows.length ≤
      state.entries.rows.length + targets.countP (isNewKey state) := by
  induction targets generalizing state with
  | nil => exact le_rfl
  | cons first targets ih =>
    have hmono : targets.countP (isNewKey (record now state first)) ≤
        targets.countP (isNewKey state) := by
      refine List.countP_mono_left fun target _ hnew => ?_
      cases target with
      | bucket => exact hnew
      | primary =>
        cases first with
        | bucket => exact hnew
        | primary =>
          rw [isNewKey, historyOf_record_primary] at hnew
          split at hnew
          · cases hnew
          · exact hnew
    have hstep := @size_record_le now state first
    have hrest := @ih (record now state first)
    rw [List.foldl_cons, List.countP_cons]
    omega

end Recording

end LoginLimiter

end VaultLink
