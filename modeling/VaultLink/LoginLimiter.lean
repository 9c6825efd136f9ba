import VaultLink.KeyedTable

/-!
# The login limiter

`LoginLimiter` of `auth.rs`: attempts per key in a map of bounded size, and in buckets that
several keys share once the map is full. Instants are numbers, the hash of the keys is any
function, and a map is a table of its histories.
-/
namespace VaultLink

/-- An entry of the primary map: a key with its `AttemptHistory`. -/
structure KeyHistory where
  key : String
  attempts : List ℕ

structure LimiterState where
  entries : KeyedTable KeyHistory.key
  overflow : List (Option (List ℕ))
  operations : ℕ

def LimiterState.new (overflowBuckets : ℕ) : LimiterState :=
  ⟨∅, List.replicate (max overflowBuckets 1) none, 0⟩

/-- The parameters of a limiter; `with_capacity_and_overflow` makes the two sizes positive. -/
structure LoginLimiter where
  max : ℕ
  window : ℕ
  capacity : ℕ
  overflowBuckets : ℕ
  hash : String → ℕ
  capacity_pos : 0 < capacity
  overflowBuckets_pos : 0 < overflowBuckets

namespace LoginLimiter

def withCapacityAndOverflow (max window capacity overflowBuckets : ℕ) (hash : String → ℕ) :
    LoginLimiter where
  max := max
  window := window
  capacity := Nat.max capacity 1
  overflowBuckets := Nat.max overflowBuckets 1
  hash := hash
  capacity_pos := Nat.lt_of_lt_of_le Nat.zero_lt_one (Nat.le_max_right capacity 1)
  overflowBuckets_pos := Nat.lt_of_lt_of_le Nat.zero_lt_one (Nat.le_max_right overflowBuckets 1)

def globalCleanupInterval : ℕ := 64

variable (limiter : LoginLimiter)

def pruneHistory (now : ℕ) (attempts : List ℕ) : List ℕ :=
  attempts.filter fun attempt => now - attempt < limiter.window

/-- A bucket without its expired attempts, or none. -/
def expireBucket (now : ℕ) : Option (List ℕ) → Option (List ℕ)
  | none => none
  | some attempts =>
    if (limiter.pruneHistory now attempts).isEmpty then none
    else some (limiter.pruneHistory now attempts)

def cleanupExpired (now : ℕ) (state : LimiterState) : LimiterState :=
  { state with
    entries := (state.entries.updateWhere (fun _ => true) fun history =>
      { history with attempts := limiter.pruneHistory now history.attempts }).deleteWhere
        (·.attempts.isEmpty)
    overflow := state.overflow.map (limiter.expireBucket now) }

def periodicCleanup (now : ℕ) (state : LimiterState) : LimiterState :=
  let state := { state with operations := (state.operations + 1) % 2 ^ 64 }
  if state.operations % globalCleanupInterval = 0 then limiter.cleanupExpired now state else state

section Recovery

/-- `drain(..excess)`: the newest attempts are kept. -/
def truncate (attempts : List ℕ) : List ℕ := attempts.drop (attempts.length - limiter.max)

/-- What `state` does with a poisoned lock. -/
def recover (now : ℕ) (state : LimiterState) : LimiterState :=
  if state.overflow.length ≠ limiter.overflowBuckets ||
      limiter.capacity < state.entries.rows.length then
    { state with
      entries := ∅
      overflow := List.replicate limiter.overflowBuckets
        (some (List.replicate limiter.max now)) }
  else
    let state := limiter.cleanupExpired now state
    { state with
      entries := state.entries.updateWhere (fun _ => true) fun history =>
        { history with attempts := limiter.truncate history.attempts }
      overflow := state.overflow.map (·.map limiter.truncate) }

end Recovery

section Attempts

/-- The keys without their repetitions. -/
def uniqueKeys (keys : List String) : List String :=
  (keys.zipIdx.filter fun (key, index) => !(keys.take index).contains key).map Prod.fst

def pruneKey (now : ℕ) (entries : KeyedTable KeyHistory.key) (key : String) :
    KeyedTable KeyHistory.key :=
  entries.updateWhere (·.key = key) fun history =>
    { history with attempts := limiter.pruneHistory now history.attempts }

def removeEmpty (entries : KeyedTable KeyHistory.key) (key : String) : KeyedTable KeyHistory.key :=
  entries.deleteWhere fun history => history.key = key && history.attempts.isEmpty

/-- The histories an attempt is to be recorded in, as far as they have been chosen. -/
structure AttemptTargets where
  overflow : List (Option (List ℕ))
  primary : List String
  buckets : List ℕ
  primarySlots : ℕ

def overflowBucket (overflow : List (Option (List ℕ))) (key : String) : ℕ :=
  limiter.hash key % overflow.length

/-- The body of the loop that chooses the targets. -/
def chooseTarget (now : ℕ) (entries : KeyedTable KeyHistory.key) (targets : AttemptTargets)
    (key : String) : AttemptTargets :=
  if entries.any (·.key = key) then { targets with primary := targets.primary ++ [key] }
  else
    let bucket := limiter.overflowBucket targets.overflow key
    let overflow := targets.overflow.set bucket
      (limiter.expireBucket now (targets.overflow.getD bucket none))
    if (overflow.getD bucket none).isSome || targets.primarySlots = 0 then
      { targets with
        overflow
        buckets :=
          if targets.buckets.contains bucket then targets.buckets
          else targets.buckets ++ [bucket] }
    else
      { targets with
        overflow
        primary := targets.primary ++ [key]
        primarySlots := targets.primarySlots - 1 }

/-- `check_and_record_attempts` up to the choice of the targets. -/
def prepare (now : ℕ) (keys : List String) (state : LimiterState) :
    LimiterState × AttemptTargets :=
  let state := limiter.periodicCleanup now state
  let entries := (uniqueKeys keys).foldl (limiter.pruneKey now) state.entries
  let entries := (uniqueKeys keys).foldl removeEmpty entries
  let targets := (uniqueKeys keys).foldl (limiter.chooseTarget now entries)
    ⟨state.overflow, [], [], limiter.capacity - entries.rows.length⟩
  ({ state with entries, overflow := targets.overflow }, targets)

/-- A target has no room for another attempt. -/
def exhausted (state : LimiterState) (targets : AttemptTargets) : Bool :=
  (targets.primary.any fun key =>
    (state.entries.find? key).any fun history => limiter.max ≤ history.attempts.length) ||
  targets.buckets.any fun bucket =>
    (state.overflow.getD bucket none).any fun attempts => limiter.max ≤ attempts.length

inductive AttemptTarget
  | primary (key : String)
  | bucket (index : ℕ)
deriving DecidableEq

def AttemptTargets.all (targets : AttemptTargets) : List AttemptTarget :=
  targets.primary.map .primary ++ targets.buckets.map .bucket

def record (now : ℕ) (state : LimiterState) : AttemptTarget → LimiterState
  | .primary key =>
    let attempts := ((state.entries.find? key).map KeyHistory.attempts).getD []
    { state with entries := state.entries.upsert ⟨key, attempts ++ [now]⟩ }
  | .bucket index =>
    let attempts := (state.overflow.getD index none).getD []
    { state with overflow := state.overflow.set index (some (attempts ++ [now])) }

def checkAndRecordAttempts (now : ℕ) (keys : List String) (state : LimiterState) :
    Bool × LimiterState :=
  if limiter.max = 0 || limiter.window = 0 then (false, state)
  else if keys.isEmpty then (true, state)
  else
    let (state, targets) := limiter.prepare now keys state
    if limiter.exhausted state targets then (false, state)
    else (true, targets.all.foldl (record now) state)

def success (key : String) (state : LimiterState) : LimiterState :=
  { state with entries := state.entries.deleteWhere (·.key = key) }

end Attempts

section Operations

/-- What happens to the state under its lock. A thread that panics while it records an
attempt leaves the lock poisoned, and the first of its targets changed. -/
inductive LimiterOperation
  | check (keys : List String)
  | interruptedCheck (keys : List String) (recorded : ℕ)
  | success (key : String)
  | cleanup
  | recover

structure LimiterEvent where
  time : ℕ
  operation : LimiterOperation

def next (state : LimiterState) (event : LimiterEvent) : LimiterState :=
  match event.operation with
  | .check keys => (limiter.checkAndRecordAttempts event.time keys state).2
  | .interruptedCheck keys recorded =>
    let (state, targets) := limiter.prepare event.time keys state
    if limiter.exhausted state targets then state
    else (targets.all.take recorded).foldl (record event.time) state
  | .success key => success key state
  | .cleanup => limiter.cleanupExpired event.time state
  | .recover => limiter.recover event.time state

/-- The call names the key and is admitted. -/
def admits (key : String) (state : LimiterState) (event : LimiterEvent) : Bool :=
  match event.operation with
  | .check keys => keys.contains key && (limiter.checkAndRecordAttempts event.time keys state).1
  | _ => false

end Operations

end LoginLimiter

end VaultLink
