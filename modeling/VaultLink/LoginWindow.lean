import VaultLink.Histories
import VaultLink.LoginAttempts

/-!
# The limiter admits at most `max` attempts per window

The unexpired attempts of a key are in one place: in its own history if it has one, and in
its bucket otherwise. A key leaves its history only when that has no unexpired attempt left,
and moves into one only when its bucket has none. So the limiter is a windowed log for each
key, whatever the other keys do.
-/
namespace VaultLink

open LimiterState
open SlidingWindow

namespace LoginLimiter

section Soundness

variable {limiter : LoginLimiter} {now : ℕ} {state state' : LimiterState} {key : String}

/-- The bounds that hold between operations. -/
structure Sound (limiter : LoginLimiter) (state : LimiterState) : Prop where
  buckets : state.overflow.length = limiter.overflowBuckets
  capacity : state.entries.rows.length ≤ limiter.capacity
  room : ∀ target, (roomOf state target).length ≤ limiter.max

/-- Where the attempts of a key are: in its history, or in its bucket. -/
def located (limiter : LoginLimiter) (key : String) (state : LimiterState) : List ℕ :=
  match historyOf state.entries key with
  | some attempts => attempts
  | none => roomOf state (.bucket (limiter.hash key % limiter.overflowBuckets))

theorem Pruned.room (h : Pruned limiter now state state') (target : AttemptTarget) :
    (roomOf state' target).Sublist (roomOf state target) := by
  cases target with
  | primary key => exact (h.entries.history key).sublist
  | bucket index => exact (h.bucket index).sublist

theorem Pruned.sound (h : Pruned limiter now state state') (hsound : Sound limiter state) :
    Sound limiter state' :=
  ⟨h.buckets.trans hsound.buckets, h.entries.size.trans hsound.capacity,
    fun target => (h.room target).length_le.trans (hsound.room target)⟩

theorem Pruned.located (h : Pruned limiter now state state') (key : String) :
    (fresh limiter.window now (located limiter key state)).Sublist
      (located limiter key state') := by
  have hhis := h.entries.history key
  unfold LoginLimiter.located
  cases hold : historyOf state.entries key with
  | none =>
    rw [hold] at hhis
    rw [hhis.eq_none]
    exact (h.bucket _).fresh_sublist
  | some =>
    rw [hold] at hhis
    dsimp only
    cases hnew : historyOf state'.entries key with
    | none =>
      rw [hnew] at hhis
      cases hhis with
      | dropped _ hemp =>
        rw [hemp]
        exact List.nil_sublist _
    | some =>
      rw [hnew] at hhis
      exact hhis.fresh_sublist

theorem map_truncate_eq_self {history : Option (List ℕ)}
    (h : (history.getD []).length ≤ limiter.max) : history.map limiter.truncate = history := by
  cases history with
  | none => rfl
  | some attempts =>
    have hle : attempts.length ≤ limiter.max := h
    rw [Option.map_some, truncate, Nat.sub_eq_zero_of_le hle, List.drop_zero]

/-- A sound state is not damaged, and has no history that is too long. -/
theorem pruned_recover (hsound : Sound limiter state) :
    Pruned limiter now state (limiter.recover now state) := by
  have hclean := @pruned_cleanupExpired limiter now state
  have hroom := (hclean.sound hsound).room
  rw [recover, if_neg]
  · refine ⟨⟨fun key => ?_, ?_⟩, fun index => ?_, ?_⟩
    · have hmap : historyOf ((limiter.cleanupExpired now state).entries.updateWhere
          (fun _ => true) fun history =>
            { history with attempts := limiter.truncate history.attempts }) key =
          (historyOf (limiter.cleanupExpired now state).entries key).map limiter.truncate := by
        rw [historyOf, historyOf, KeyedTable.find?_updateWhere]
        cases (limiter.cleanupExpired now state).entries.find? key <;> rfl
      dsimp only
      rw [hmap, map_truncate_eq_self (hroom (.primary key))]
      exact hclean.entries.history key
    · simpa [KeyedTable.updateWhere] using hclean.entries.size
    · have hmap : ((limiter.cleanupExpired now state).overflow.map (·.map limiter.truncate)).getD
          index none = ((limiter.cleanupExpired now state).overflow.getD index none).map
            limiter.truncate :=
        List.getD_map _ none (Option.map limiter.truncate)
      dsimp only
      rw [hmap, map_truncate_eq_self (hroom (.bucket index))]
      exact hclean.bucket index
    · simpa using hclean.buckets
  · have hbuckets := hsound.buckets
    have hcap := hsound.capacity
    simp only [ne_eq, Bool.or_eq_true, decide_eq_true_eq, not_or, not_not]
    omega

end Soundness

section Admission

variable {limiter : LoginLimiter} {now : ℕ} {state : LimiterState} {key : String}
  {keys : List String}

/-- The targets of a call that is not refused, and the room they have. -/
structure Ready (limiter : LoginLimiter) (keys : List String) (state : LimiterState)
    (targets : List AttemptTarget) : Prop where
  nodup : targets.Nodup
  room : ∀ target ∈ targets, (roomOf state target).length < limiter.max
  place : ∀ key, .primary key ∈ targets → key ∈ keys ∧ ((historyOf state.entries key).isSome ∨
    roomOf state (.bucket (limiter.hash key % limiter.overflowBuckets)) = [])
  covered : ∀ key ∈ keys, .primary key ∈ targets ∨ historyOf state.entries key = none ∧
    .bucket (limiter.hash key % limiter.overflowBuckets) ∈ targets
  capacity : state.entries.rows.length + targets.countP (isNewKey state) ≤ limiter.capacity

theorem mem_all_primary {targets : AttemptTargets} :
    .primary key ∈ targets.all ↔ key ∈ targets.primary := by
  simp [AttemptTargets.all]

theorem mem_all_bucket {targets : AttemptTargets} {index : ℕ} :
    .bucket index ∈ targets.all ↔ index ∈ targets.buckets := by
  simp [AttemptTargets.all]

theorem nodup_all {targets : AttemptTargets} (hpri : targets.primary.Nodup)
    (hbuckets : targets.buckets.Nodup) : targets.all.Nodup := by
  refine List.nodup_append.mpr ⟨hpri.map fun _ _ => AttemptTarget.primary.inj,
    hbuckets.map fun _ _ => AttemptTarget.bucket.inj, ?_⟩
  rintro target hpri target' hbuc rfl
  obtain ⟨key, _, rfl⟩ := List.mem_map.mp hpri
  obtain ⟨index, _, hidx⟩ := List.mem_map.mp hbuc
  cases hidx

theorem countP_all (targets : AttemptTargets) :
    targets.all.countP (isNewKey state) =
      (targets.primary.filter fun key => (historyOf state.entries key).isNone).length := by
  have hbuckets : (targets.buckets.map AttemptTarget.bucket).countP (isNewKey state) = 0 := by
    refine List.countP_eq_zero.mpr fun target htarget => ?_
    obtain ⟨index, _, rfl⟩ := List.mem_map.mp htarget
    exact Bool.false_ne_true
  rw [AttemptTargets.all, List.countP_append, hbuckets, Nat.add_zero, List.countP_map,
    List.countP_eq_length_filter]
  rfl

theorem room_of_not_exhausted {targets : AttemptTargets} (hmax : 0 < limiter.max)
    (h : limiter.exhausted state targets = false) :
    ∀ target ∈ targets.all, (roomOf state target).length < limiter.max := by
  rw [exhausted, Bool.or_eq_false_iff, List.any_eq_false, List.any_eq_false] at h
  intro target htarget
  cases target with
  | primary key =>
    have hkey := h.1 key (mem_all_primary.mp htarget)
    rw [roomOf, historyOf]
    cases hfind : state.entries.find? key with
    | none => exact hmax
    | some =>
      rw [hfind] at hkey
      simpa using hkey
  | bucket index =>
    have hidx := h.2 index (mem_all_bucket.mp htarget)
    rw [roomOf]
    cases hbuc : state.overflow.getD index none with
    | none => exact hmax
    | some =>
      rw [hbuc] at hidx
      simpa using hidx

theorem ready_of_prepare (hmax : 0 < limiter.max) (hsound : Sound limiter state)
    (hroom : limiter.exhausted (limiter.prepare now keys state).1
      (limiter.prepare now keys state).2 = false) :
    Ready limiter keys (limiter.prepare now keys state).1
      (limiter.prepare now keys state).2.all := by
  obtain ⟨hpruned, before, hoverflow, hbef, hchosen⟩ :=
    @prepare_spec limiter now keys state
  generalize limiter.prepare now keys state = prepared at hroom hpruned hoverflow hchosen ⊢
  obtain ⟨state', targets⟩ := prepared
  have hlen : before.length = limiter.overflowBuckets := hbef.trans hsound.buckets
  refine ⟨nodup_all hchosen.primary_nodup hchosen.buckets_nodup,
    room_of_not_exhausted hmax hroom, fun key hkey => ?_, fun key hkey => ?_, ?_⟩
  · obtain ⟨hhandled, hplace⟩ := hchosen.primary key (mem_all_primary.mp hkey)
    refine ⟨mem_uniqueKeys.mp hhandled, hplace.imp_right fun hnone => ?_⟩
    rw [roomOf, show state'.overflow = targets.overflow from hoverflow, ← hlen, hnone]
    rfl
  · rw [mem_all_primary, mem_all_bucket, ← hlen]
    exact hchosen.covered key (mem_uniqueKeys.mpr hkey)
  · have hslots := hchosen.slots
    have hcap := (hpruned.sound hsound).capacity
    rw [countP_all]
    dsimp only at hslots hcap ⊢
    omega

namespace Ready

variable {targets recorded : List AttemptTarget}

/-- Recording some of the targets keeps the bounds. -/
theorem sound (h : Ready limiter keys state targets) (hsound : Sound limiter state)
    (hrecd : recorded.Sublist targets) :
    Sound limiter (recorded.foldl (record now) state) where
  buckets := (length_overflow_foldl recorded).trans hsound.buckets
  capacity := by
    have hsize := @size_foldl_le now state recorded
    have hcount := hrecd.countP_le (p := isNewKey state)
    have hcap := h.capacity
    omega
  room := room_foldl_le (h.nodup.sublist hrecd)
    (fun target htarget => h.room target (hrecd.subset htarget)) hsound.room

/-- A key that gets a history of its own leaves an empty bucket. -/
theorem located_sublist (h : Ready limiter keys state targets)
    (hrecd : recorded.Sublist targets) (key : String) :
    (located limiter key state).Sublist
      (located limiter key (recorded.foldl (record now) state)) := by
  unfold located
  cases hold : historyOf state.entries key with
  | some =>
    have hroom := @roomOf_sublist_foldl now state recorded (.primary key)
    obtain ⟨attempts', hnew⟩ := Option.isSome_iff_exists.mp
      (@isSome_historyOf_foldl now state key recorded (.inr (by rw [hold]; rfl)))
    rw [roomOf, roomOf, hold, hnew] at hroom
    rw [hnew]
    exact hroom
  | none =>
    by_cases hmem : .primary key ∈ recorded
    · have hemp := (h.place key (hrecd.subset hmem)).2.resolve_left (by simp [hold])
      dsimp only
      rw [hemp]
      exact List.nil_sublist _
    · rw [historyOf_foldl_of_not_mem hmem, hold]
      exact roomOf_sublist_foldl recorded _

/-- The attempt of a key that the call names is behind those it had. -/
theorem located_append (h : Ready limiter keys state targets) (hsound : Sound limiter state)
    (hkey : key ∈ keys) :
    (located limiter key state).length < limiter.max ∧
      (located limiter key state ++ [now]).Sublist
        (located limiter key (targets.foldl (record now) state)) := by
  unfold located
  by_cases hpri : .primary key ∈ targets
  · have hroom := @roomOf_foldl_of_mem now state targets (.primary key) hpri
      (fun _ hbuc => by cases hbuc)
    have hlen := h.room _ hpri
    obtain ⟨attempts', hnew⟩ := Option.isSome_iff_exists.mp
      (@isSome_historyOf_foldl now state key targets (.inl hpri))
    have hlocated : (match historyOf state.entries key with
        | some attempts => attempts
        | none => roomOf state (.bucket (limiter.hash key % limiter.overflowBuckets))) =
        roomOf state (.primary key) := by
      rw [roomOf]
      cases hold : historyOf state.entries key with
      | some => rfl
      | none => exact (h.place key hpri).2.resolve_left (by simp [hold])
    rw [hlocated, hnew]
    refine ⟨hlen, ?_⟩
    rw [show roomOf (targets.foldl (record now) state) (.primary key) = attempts' by
      rw [roomOf, hnew]; rfl] at hroom
    exact hroom
  · obtain ⟨hnone, hbuc⟩ := (h.covered key hkey).resolve_left hpri
    rw [historyOf_foldl_of_not_mem hpri, hnone]
    refine ⟨h.room _ hbuc, roomOf_foldl_of_mem hbuc ?_⟩
    rintro index hidx
    cases hidx
    rw [hsound.buckets]
    exact Nat.mod_lt _ limiter.overflowBuckets_pos

end Ready

theorem pruned_prepare : Pruned limiter now state (limiter.prepare now keys state).1 :=
  (prepare_spec keys state).1

/-- What a call does: nothing, a refusal that only prunes, or an attempt at every target. -/
theorem checkAndRecordAttempts_cases (hmax : 0 < limiter.max) (hwin : 0 < limiter.window)
    (now : ℕ) (keys : List String) (state : LimiterState) :
    (keys = [] ∧ limiter.checkAndRecordAttempts now keys state = (true, state)) ∨
    limiter.checkAndRecordAttempts now keys state =
      (false, (limiter.prepare now keys state).1) ∨
    limiter.exhausted (limiter.prepare now keys state).1
        (limiter.prepare now keys state).2 = false ∧
      limiter.checkAndRecordAttempts now keys state =
        (true, (limiter.prepare now keys state).2.all.foldl (record now)
          (limiter.prepare now keys state).1) := by
  have hlims : ¬(limiter.max = 0 || limiter.window = 0) = true := by
    simp only [Bool.or_eq_true, decide_eq_true_eq]
    omega
  rw [checkAndRecordAttempts, if_neg hlims]
  by_cases hemp : keys = []
  · exact .inl ⟨hemp, by rw [hemp]; rfl⟩
  · rw [if_neg (by simpa using hemp)]
    dsimp only
    cases hexhausted : limiter.exhausted (limiter.prepare now keys state).1
      (limiter.prepare now keys state).2 with
    | true => exact .inr (.inl rfl)
    | false => exact .inr (.inr ⟨rfl, rfl⟩)

theorem historyOf_success (removed : String) :
    historyOf (success removed state).entries key =
      if key = removed then none else historyOf state.entries key := by
  rw [historyOf, success, KeyedTable.find?_deleteWhere, historyOf]
  cases hfind : state.entries.find? key with
  | none => simp
  | some history =>
    have hkey : history.key = key := (KeyedTable.find?_some hfind).2
    by_cases hremoved : key = removed
    · simp [Option.filter_some, hkey, hremoved]
    · simp [Option.filter_some, hkey, hremoved]

theorem sound_success (hsound : Sound limiter state) (removed : String) :
    Sound limiter (success removed state) where
  buckets := hsound.buckets
  capacity := (List.length_filter_le _ _).trans hsound.capacity
  room := by
    intro target
    cases target with
    | bucket index => exact hsound.room (.bucket index)
    | primary key =>
      rw [roomOf, historyOf_success]
      split
      · exact Nat.zero_le _
      · exact hsound.room (.primary key)

variable (hmax : 0 < limiter.max) (hwin : 0 < limiter.window) (hsound : Sound limiter state)

include hmax hwin hsound

theorem sound_next (event : LimiterEvent) : Sound limiter (limiter.next state event) := by
  obtain ⟨now, operation⟩ := event
  cases operation with
  | check keys =>
    unfold next
    dsimp only
    obtain ⟨_, hcheck⟩ | hcheck | ⟨hroom, hcheck⟩ :=
      checkAndRecordAttempts_cases hmax hwin now keys state
    · rw [hcheck]
      exact hsound
    · rw [hcheck]
      exact pruned_prepare.sound hsound
    · rw [hcheck]
      exact (ready_of_prepare hmax hsound hroom).sound (pruned_prepare.sound hsound)
        (List.Sublist.refl _)
  | interruptedCheck keys recorded =>
    unfold next
    dsimp only
    split
    · exact pruned_prepare.sound hsound
    · rename_i hroom
      exact (ready_of_prepare hmax hsound (by simpa using hroom)).sound
        (pruned_prepare.sound hsound) (List.take_sublist _ _)
  | success removed => exact sound_success hsound removed
  | cleanup => exact (pruned_cleanupExpired state).sound hsound
  | recover => exact (pruned_recover hsound).sound hsound

/-- The operation erases the history of the key. -/
def LimiterEvent.forgets (key : String) (event : LimiterEvent) : Bool :=
  match event.operation with
  | .success removed => removed = key
  | _ => false

theorem keeps_next {event : LimiterEvent} (hfor : event.forgets key = false) :
    (fresh limiter.window event.time (located limiter key state)).Sublist
      (located limiter key (limiter.next state event)) := by
  obtain ⟨now, operation⟩ := event
  cases operation with
  | check keys =>
    unfold next
    dsimp only
    obtain ⟨_, hcheck⟩ | hcheck | ⟨hroom, hcheck⟩ :=
      checkAndRecordAttempts_cases hmax hwin now keys state
    · rw [hcheck]
      exact fresh_sublist _ _ _
    · rw [hcheck]
      exact pruned_prepare.located key
    · rw [hcheck]
      exact (pruned_prepare.located key).trans
        ((ready_of_prepare hmax hsound hroom).located_sublist (List.Sublist.refl _) key)
  | interruptedCheck keys recorded =>
    unfold next
    dsimp only
    split
    · exact pruned_prepare.located key
    · rename_i hroom
      exact (pruned_prepare.located key).trans
        ((ready_of_prepare hmax hsound (by simpa using hroom)).located_sublist
          (List.take_sublist _ _) key)
  | success removed =>
    have hne : key ≠ removed := fun h => of_decide_eq_false hfor h.symm
    have hsame : located limiter key (success removed state) = located limiter key state := by
      unfold located
      rw [historyOf_success, if_neg hne]
      rfl
    show (fresh _ _ _).Sublist (located limiter key (success removed state))
    rw [hsame]
    exact fresh_sublist _ _ _
  | cleanup => exact (pruned_cleanupExpired state).located key
  | recover => exact (pruned_recover hsound).located key

theorem admits_next {event : LimiterEvent} (hadm : limiter.admits key state event = true) :
    (fresh limiter.window event.time (located limiter key state)).length < limiter.max ∧
      (fresh limiter.window event.time (located limiter key state) ++ [event.time]).Sublist
        (located limiter key (limiter.next state event)) := by
  obtain ⟨now, operation⟩ := event
  cases operation with
  | check keys =>
    unfold admits at hadm
    rw [Bool.and_eq_true, List.contains_iff_mem] at hadm
    obtain ⟨hkey, hadmitted⟩ := hadm
    unfold next
    dsimp only at hadmitted ⊢
    obtain ⟨hemp, _⟩ | hcheck | ⟨hroom, hcheck⟩ :=
      checkAndRecordAttempts_cases hmax hwin now keys state
    · rw [hemp] at hkey
      cases hkey
    · rw [hcheck] at hadmitted
      cases hadmitted
    · rw [hcheck]
      obtain ⟨hlen, hlocated⟩ := (ready_of_prepare hmax hsound hroom).located_append
        (pruned_prepare.sound hsound) hkey
      have hpruned := (@pruned_prepare limiter now state keys).located key
      exact ⟨Nat.lt_of_le_of_lt hpruned.length_le hlen,
        (hpruned.append (List.Sublist.refl _)).trans hlocated⟩
  | _ => cases hadm

end Admission

section Windows

variable {limiter : LoginLimiter}

/-- The calls of a run that name the key and are admitted at an instant of the stretch. -/
def admissions (limiter : LoginLimiter) (key : String) (stretch : ℕ → Bool) :
    LimiterState → List LimiterEvent → ℕ
  | _, [] => 0
  | state, event :: rest =>
    (if stretch event.time && limiter.admits key state event then 1 else 0) +
      admissions limiter key stretch (limiter.next state event) rest

/-- The limiter as a log of the attempts of one key. -/
def attemptLog (limiter : LoginLimiter) (hmax : 0 < limiter.max) (hwin : 0 < limiter.window)
    (key : String) : WindowedLog LimiterState LimiterEvent where
  next := limiter.next
  time := LimiterEvent.time
  recorded := located limiter key
  admits := limiter.admits key
  forgets := LimiterEvent.forgets key
  valid := Sound limiter
  window := limiter.window
  max := limiter.max
  valid_next := fun _ event hsound => sound_next hmax hwin hsound event
  keeps := fun _ _ hsound hfor => keeps_next hmax hwin hsound hfor
  records := fun _ _ hsound hadm => admits_next hmax hwin hsound hadm

theorem admissions_eq_length (hmax : 0 < limiter.max) (hwin : 0 < limiter.window)
    (key : String) (stretch : ℕ → Bool) (state : LimiterState) (events : List LimiterEvent) :
    limiter.admissions key stretch state events =
      ((limiter.attemptLog hmax hwin key).admitted stretch state events).length := by
  induction events generalizing state with
  | nil => rfl
  | cons event rest ih =>
    rw [admissions, WindowedLog.admitted, ih (limiter.next state event)]
    show (if stretch event.time && limiter.admits key state event then 1 else 0) + _ =
      List.length (if stretch event.time && limiter.admits key state event then _ else _)
    split
    · rw [List.length_cons, Nat.add_comm]
      rfl
    · rw [Nat.zero_add]
      rfl

theorem sound_new (limiter : LoginLimiter) :
    Sound limiter (new limiter.overflowBuckets) where
  buckets := by
    have hpos := limiter.overflowBuckets_pos
    rw [new, List.length_replicate]
    omega
  capacity := Nat.zero_le _
  room := by
    intro target
    cases target with
    | primary => exact Nat.zero_le _
    | bucket => simp [roomOf, new]

theorem admissions_le (hmax : 0 < limiter.max) (hwin : 0 < limiter.window) {key : String}
    {stretch : ℕ → Bool}
    (hconvex : ∀ a b c, a ≤ b → b ≤ c → stretch a = true → stretch c = true → stretch b = true)
    (hspan : ∀ a b, a ≤ b → stretch a = true → stretch b = true → b - a < limiter.window)
    {events : List LimiterEvent} (hodd : events.Pairwise fun e e' => e.time ≤ e'.time)
    (hsuccess : ∀ event ∈ events, stretch event.time = true → event.operation ≠ .success key) :
    limiter.admissions key stretch (new limiter.overflowBuckets) events ≤
      limiter.max := by
  rw [admissions_eq_length hmax hwin]
  refine WindowedLog.length_admitted_le hconvex hspan hodd (fun event hev hin => ?_)
    (sound_new limiter)
  have hne := hsuccess event hev hin
  obtain ⟨time, operation⟩ := event
  cases operation with
  | success => exact decide_eq_false fun h => hne (congrArg _ h)
  | _ => rfl

/-- However the keys are hashed and whatever happens to the limiter, no more than `max` calls
that name a key are admitted in a half-open interval of the length of the window in which the
key has no success. The map stays within its capacity, and a refused call adds no attempt to
any history or bucket. -/
theorem limiter_admits_max_per_window (limiter : LoginLimiter) (hmax : 0 < limiter.max)
    (hwindow : 0 < limiter.window) (events : List LimiterEvent)
    (hordered : events.Pairwise fun e e' => e.time ≤ e'.time) :
    let start := new limiter.overflowBuckets
    let reached := History.state limiter.next start events
    (∀ key since, (∀ event ∈ events, since ≤ event.time → event.time < since + limiter.window →
        event.operation ≠ .success key) →
      limiter.admissions key (fun time => since ≤ time && time < since + limiter.window) start
        events ≤ limiter.max) ∧
    (∀ key since, (∀ event ∈ events, since < event.time → event.time ≤ since + limiter.window →
        event.operation ≠ .success key) →
      limiter.admissions key (fun time => since < time && time ≤ since + limiter.window) start
        events ≤ limiter.max) ∧
    reached.entries.rows.length ≤ limiter.capacity ∧
    ∀ now keys, (limiter.checkAndRecordAttempts now keys reached).1 = false →
      ∀ target, (roomOf (limiter.checkAndRecordAttempts now keys reached).2 target).Sublist
        (roomOf reached target) := by
  intro start reached
  have hsound : Sound limiter reached :=
    History.state_invariant (P := Sound limiter)
      (fun _ event h => sound_next hmax hwindow h event) (sound_new limiter) events
  refine ⟨?_, ?_, hsound.capacity, fun now keys href target => ?_⟩
  pick_goal 3
  · obtain ⟨_, hcheck⟩ | hcheck | ⟨_, hcheck⟩ :=
      checkAndRecordAttempts_cases hmax hwindow now keys reached
    · rw [hcheck] at href
      cases href
    · rw [hcheck]
      exact pruned_prepare.room target
    · rw [hcheck] at href
      cases href
  all_goals
    intro key since hsuccess
    refine admissions_le hmax hwindow ?_ ?_ hordered fun event hev hin => ?_
    · simp only [Bool.and_eq_true, decide_eq_true_eq]
      omega
    · simp only [Bool.and_eq_true, decide_eq_true_eq]
      omega
    · simp only [Bool.and_eq_true, decide_eq_true_eq] at hin
      exact hsuccess event hev hin.1 hin.2

/-- Two attempts per ten instants, a map for one key and one bucket for all others. -/
def tinyLimiter : LoginLimiter := withCapacityAndOverflow 2 10 1 1 String.length

/-- `a` fills the map and `b` shares the bucket; later `b` moves into the map. -/
def movingKeys : List LimiterEvent :=
  [⟨0, .check ["a"]⟩, ⟨1, .check ["b", "a", "b"]⟩, ⟨2, .check ["c"]⟩, ⟨3, .check ["b"]⟩,
    ⟨5, .interruptedCheck ["a"] 1⟩, ⟨5, .recover⟩, ⟨12, .check ["b"]⟩, ⟨13, .success "a"⟩,
    ⟨13, .check ["b"]⟩, ⟨14, .check ["b"]⟩]

theorem limiter_admits_max_per_window_movingKeys :
    tinyLimiter.admissions "b" (fun time => 4 < time && time ≤ 14)
        (new 1) movingKeys = 2 ∧
      tinyLimiter.admissions "b" (fun time => 4 < time && time ≤ 4 + tinyLimiter.window)
        (new 1) movingKeys ≤ 2 := by
  refine ⟨by decide +kernel, ?_⟩
  have h := limiter_admits_max_per_window tinyLimiter (by decide) (by decide) movingKeys
    (by decide)
  refine h.2.1 "b" 4 fun event hev _ _ => ?_
  simp only [movingKeys, List.mem_cons, List.not_mem_nil, or_false] at hev
  obtain rfl | rfl | rfl | rfl | rfl | rfl | rfl | rfl | rfl | rfl := hev <;> simp

end Windows

end LoginLimiter

end VaultLink
