import VaultLink.UploadStaging

/-!
# How a staged upload grows its reservation

The target of an extension is the required size rounded up to a power of two of at most eight
MiB, and never more than the maximum. While chunks arrive the upload remembers what its
reservation holds, so every extension asks for at least that much, and for no less than its own
minimum.
-/
namespace VaultLink

open StagedUpload
open KeyedTable
open VaultLink.Action (Maintains)

section Target

variable {received required reserved maximum : ℕ}

/-- The step an extension is rounded up to. -/
def reservationStep (received : ℕ) : ℕ :=
  nextPowerOfTwo (max (1024 * 1024) (min received (8 * 1024 * 1024)))

theorem reservationStep_pos (received : ℕ) : 0 < reservationStep received :=
  Nat.two_pow_pos _

theorem reservationStep_le (received : ℕ) : reservationStep received ≤ 8 * 1024 * 1024 := by
  have hclamp : max (1024 * 1024) (min received (8 * 1024 * 1024)) ≤ 2 ^ 23 := by omega
  exact Nat.pow_le_pow_right Nat.two_pos (Nat.clog_le_of_le_pow hclamp)

/-- The required size rounded up, if the sum is a `u64`. -/
def roundedTarget (step required : ℕ) : ℕ :=
  if required + (step - 1) < 2 ^ 64 then (required + (step - 1)) / step * step else required

theorem preferredReservationTarget_eq : preferredReservationTarget received required reserved
    maximum = if required ≤ reserved then reserved
      else min (roundedTarget (reservationStep received) required) maximum := rfl

theorem le_roundedTarget {step : ℕ} (hstep : 0 < step) :
    required ≤ roundedTarget step required := by
  unfold roundedTarget
  split
  · have hlt := Nat.lt_div_mul_add (a := required + (step - 1)) hstep
    omega
  · exact le_rfl

theorem roundedTarget_lt {step : ℕ} (hstep : 0 < step) :
    roundedTarget step required < required + step := by
  unfold roundedTarget
  split
  · have hle := Nat.div_mul_le_self (required + (step - 1)) step
    omega
  · omega

theorem le_preferredReservationTarget (hreq : required ≤ maximum) :
    required ≤ preferredReservationTarget received required reserved maximum := by
  rw [preferredReservationTarget_eq]
  split
  · assumption
  · exact le_min (le_roundedTarget (reservationStep_pos received)) hreq

theorem preferredReservationTarget_le (hreserved : reserved ≤ maximum) :
    preferredReservationTarget received required reserved maximum ≤ maximum := by
  rw [preferredReservationTarget_eq]
  split
  · exact hreserved
  · exact min_le_right _ _

theorem reserved_le_preferredReservationTarget (hreq : required ≤ maximum) :
    reserved ≤ preferredReservationTarget received required reserved maximum := by
  by_cases hfits : required ≤ reserved
  · rw [preferredReservationTarget_eq, if_pos hfits]
  · exact (Nat.le_of_not_le hfits).trans (le_preferredReservationTarget hreq)

theorem preferredReservationTarget_lt (hgrows : reserved < required) :
    preferredReservationTarget received required reserved maximum < required + 8 * 1024 * 1024 := by
  rw [preferredReservationTarget_eq, if_neg (Nat.not_le.mpr hgrows)]
  have hrounded : roundedTarget (reservationStep received) required <
      required + reservationStep received := roundedTarget_lt (reservationStep_pos received)
  have hstep := reservationStep_le received
  omega

/-- A value that has to fit in a `u64`. -/
def inU64 (value : ℕ) : Option ℕ := if value < 2 ^ 64 then some value else none

theorem inU64_of_lt {value : ℕ} (h : value < 2 ^ 64) : inU64 value = some value := if_pos h

/-- `preferred_reservation_target` with every operation on `u64` checked; only the sum that the
source itself checks may overflow. -/
def checkedReservationTarget (received required reserved maximum : ℕ) : Option ℕ :=
  if required ≤ reserved then some reserved
  else do
    let step ← inU64 (nextPowerOfTwo (max (1024 * 1024) (min received (8 * 1024 * 1024))))
    let below ← if 1 ≤ step then some (step - 1) else none
    let rounded ←
      match inU64 (required + below) with
      | some value => inU64 (value / step * step)
      | none => some required
    return min rounded maximum

theorem checkedReservationTarget_eq : checkedReservationTarget received required reserved maximum =
    some (preferredReservationTarget received required reserved maximum) := by
  rw [preferredReservationTarget_eq]
  unfold checkedReservationTarget
  split
  · rfl
  · have hstep : reservationStep received < 2 ^ 64 :=
      (reservationStep_le received).trans_lt (by decide)
    have hpos : 1 ≤ reservationStep received := reservationStep_pos received
    rw [← reservationStep, inU64_of_lt hstep]
    simp only [Option.bind_eq_bind, Option.bind_some, if_pos hpos, roundedTarget]
    by_cases hsum : required + (reservationStep received - 1) < 2 ^ 64
    · have hproduct := (Nat.div_mul_le_self (required + (reservationStep received - 1))
        (reservationStep received)).trans_lt hsum
      rw [inU64_of_lt hsum, if_pos hsum]
      simp only [inU64_of_lt hproduct]
      rfl
    · rw [inU64, if_neg hsum, if_neg hsum]
      rfl

end Target

section Rows

variable {token : String} {bytes : ℕ} {s s' : Store} {now : Instant} {env : UploadEnvironment}
  {w : UploadWorld}

/-- The transaction neither begins nor extends a reservation under the token. -/
def Execution.SparesReservation (token : String) (x : Execution) : Prop :=
  (∀ id epoch, x.call ≠ .beginReservation token id epoch) ∧
    ∀ minimum preferred, x.call ≠ .extendReservation token minimum preferred

/-- Whatever is reserved under the token are this many bytes. -/
def ReservedBytes (token : String) (bytes : ℕ) (s : Store) : Prop :=
  ∀ row, s.reservations.find? token = some row → row.reservedBytes = bytes

theorem ReservedBytes.fewer (h : ReservedBytes token bytes s) (hfewer : FewerReservations s s') :
    ReservedBytes token bytes s' := by
  intro row hfind
  obtain ⟨hrow, htok⟩ := find?_some hfind
  exact h row (find?_eq_some_iff.mpr ⟨hfewer row hrow, htok⟩)

theorem find?_setReservedBytes {other : String} {expires : Instant} :
    (setReservedBytes other bytes expires s).reservations.find? token =
      (s.reservations.find? token).map fun row =>
        if row.tokenHash = other then { row with reservedBytes := bytes, expiresAt := expires }
        else row := by
  simp [setReservedBytes, find?_updateWhere]

/-- The bytes an extension accepts are those of the reservation afterwards. -/
theorem reservedBytes_extended {minimum preferred accepted : ℕ}
    (h : extendUploadReservationUpTo now token minimum preferred s =
      .ok (s', .extended, accepted)) :
    minimum ≤ accepted ∧ accepted ≤ preferred ∧
      ∃ row, s'.reservations.find? token = some row ∧ row.reservedBytes = accepted := by
  obtain ⟨hnot, -⟩ | ⟨-, hminimum, hpre, rfl, row, hfind⟩ := extendUploadReservationUpTo_ok h
  · exact absurd rfl hnot
  · rw [find?_setReservedBytes, hfind, Option.map_some, if_pos (find?_some hfind).2]
    exact ⟨hminimum, hpre, _, rfl, rfl⟩

theorem reservedBytes_begun {shareId epoch : ℕ}
    (h : beginUploadReservation now token shareId epoch s = .ok (s', .reserved)) :
    ReservedBytes token 0 s' := by
  obtain ⟨-, row, hins, htok, -, -, hbytes⟩ := beginUploadReservation_reserved h
  intro found hfound
  rw [find?_insert? hins, if_pos htok] at hfound
  cases hfound
  exact hbytes

/-- A transaction that spares the token leaves its reservation as it is, or removes it. -/
theorem ReservedBytes.after {x : Execution} (h : ReservedBytes token bytes s)
    (hspares : x.SparesReservation token) : ReservedBytes token bytes (x.after s) := by
  cases execute_reservations s x with
  | dropped hfewer => exact h.fewer hfewer
  | begun other shareId epoch hcall hbegun =>
    have hoth : other ≠ token := fun heq => hspares.1 shareId epoch (heq ▸ hcall)
    obtain ⟨-, row, hins, hrow, -, -⟩ := beginUploadReservation_reserved hbegun
    intro found hfound
    rw [find?_insert? hins, if_neg (hrow.symm ▸ hoth)] at hfound
    exact h.fewer (fun _ => deleteExpired_subset) found hfound
  | extended other minimum preferred accepted hcall hext =>
    have hoth : other ≠ token := fun heq => hspares.2 minimum preferred (heq ▸ hcall)
    obtain ⟨hnot, -⟩ | ⟨-, -, -, haft, -⟩ := extendUploadReservationUpTo_ok hext
    · exact absurd rfl hnot
    intro found hfound
    rw [haft, find?_setReservedBytes] at hfound
    obtain ⟨row, hfind, rfl⟩ := Option.map_eq_some_iff.mp hfound
    rw [if_neg ((find?_some hfind).2 ▸ hoth.symm)]
    exact h.fewer (fun _ => deleteExpired_subset) row hfind

/-- No other request begins or extends a reservation under the token. -/
def UploadEnvironment.Spares (env : UploadEnvironment) (token : String) : Prop :=
  ∀ time, ∀ x ∈ env.transactions time, x.SparesReservation token

theorem ReservedBytes.state (h : ReservedBytes token bytes s) {history : List Execution}
    (hspares : ∀ x ∈ history, x.SparesReservation token) :
    ReservedBytes token bytes (History.state Execution.after s history) := by
  induction history generalizing s with
  | nil => exact h
  | cons x history ih =>
    exact ih (h.after (hspares x List.mem_cons_self))
      fun x' hx' => hspares x' (List.mem_cons_of_mem x hx')

theorem ReservedBytes.elapse (h : ReservedBytes token bytes w.store) (hspares : env.Spares token) :
    ReservedBytes token bytes (w.elapse env).store :=
  (h.state (hspares w.clock)).fewer (fewerReservations_of_eq rfl)

end Rows

section Loop

variable {token : String} {maximum newTotal chunk : ℕ} {upload : StagedUpload}
  {env : UploadEnvironment} {w : UploadWorld} {earlier : List ExtendCall}

/-- The upload knows what is reserved for it, and has received no more. -/
structure InStep (token : String) (maximum : ℕ) (upload : StagedUpload) (w : UploadWorld) :
    Prop where
  token_eq : upload.reservation.token = token
  received : upload.total ≤ upload.reservation.reservedBytes
  bounded : upload.reservation.reservedBytes ≤ maximum
  stored : ReservedBytes token upload.reservation.reservedBytes w.store

theorem InStep.elapse (h : InStep token maximum upload w) (hspares : env.Spares token) :
    InStep token maximum upload (w.elapse env) :=
  ⟨h.token_eq, h.received, h.bounded, h.stored.elapse hspares⟩

theorem addUploadBytes_some {total : ℕ} (h : addUploadBytes total chunk maximum = some newTotal) :
    total ≤ newTotal ∧ newTotal ≤ maximum := by
  unfold addUploadBytes at h
  split at h
  · cases h
    omega
  · cases h

/-- The call is under the token, asks for at least what is stored there and prefers no less than
it needs. -/
structure ExtendCall.Sound (token : String) (call : ExtendCall) : Prop where
  token_eq : call.token = token
  ordered : call.minimum ≤ call.preferred
  stored_le : ∀ row, call.store.reservations.find? token = some row →
    row.reservedBytes ≤ call.minimum

/-- The calls after the `earlier` ones were sound. -/
def CallsSound (token : String) (earlier : List ExtendCall) (t : UploadWorld) : Prop :=
  ∃ calls, t.extendCalls = earlier ++ calls ∧ ∀ call ∈ calls, call.Sound token

/-- The reservation is the one the upload remembers from now on. -/
def Remembers (token : String) (upload : StagedUpload) (t : UploadWorld) : Prop :=
  ∃ row, t.store.reservations.find? token = some row ∧
    row.reservedBytes = upload.reservation.reservedBytes

theorem maintains_extendInStep (hspares : env.Spares token) (hcalls : CallsSound token earlier w)
    (hstep : InStep token maximum upload w) (htot : upload.total ≤ newTotal)
    (hmax : newTotal ≤ maximum) :
    Maintains (CallsSound token earlier) (upload.extend newTotal maximum) env w fun upload' t =>
      newTotal ≤ upload'.reservation.reservedBytes ∧
        InStep token maximum upload' t ∧ Remembers token upload' t := by
  unfold extend
  dsimp only
  set minimum := max newTotal upload.reservation.reservedBytes
  set preferred := preferredReservationTarget upload.total newTotal
    upload.reservation.reservedBytes maximum
  -- The call is remembered before its transaction runs, so it is sound however it ends.
  have hcall : ExtendCall.Sound token
      ⟨upload.reservation.token, minimum, preferred, (w.elapse env).store⟩ := by
    refine ⟨hstep.token_eq, max_le (le_preferredReservationTarget hmax)
      (reserved_le_preferredReservationTarget hmax), fun row hfind => ?_⟩
    rw [hstep.stored.elapse hspares row hfind]
    exact le_max_right _ _
  have hcalled : CallsSound token earlier (w.calling
      ⟨upload.reservation.token, minimum, preferred, (w.elapse env).store⟩) := by
    obtain ⟨calls, hlog, hsound⟩ := hcalls
    refine ⟨calls ++ [_], by rw [UploadWorld.calling, hlog, List.append_assoc], fun call hmem => ?_⟩
    obtain hmem | hmem := List.mem_append.mp hmem
    · exact hsound call hmem
    · exact List.mem_singleton.mp hmem ▸ hcall
  have hextend : Maintains (CallsSound token earlier)
      (extendReservation upload.reservation.token minimum preferred) env w
      fun result t => result.1 = .extended →
        minimum ≤ result.2 ∧ result.2 ≤ maximum ∧
          ∃ row, t.store.reservations.find? token = some row ∧ row.reservedBytes = result.2 := by
    refine maintains_extendReservation hcalled fun now store ⟨outcome, accepted⟩ hres =>
      ⟨hcalled, ?_⟩
    rintro rfl
    rw [hstep.token_eq] at hres
    obtain ⟨hleast, hmost, hrow⟩ := reservedBytes_extended hres
    exact ⟨hleast, hmost.trans (preferredReservationTarget_le hstep.bounded), hrow⟩
  refine hextend.mapError.bind fun ⟨outcome, accepted⟩ t ht haccepted => ?_
  cases outcome with
  | extended =>
    obtain ⟨hleast, hmost, row, hfind, hbytes⟩ := haccepted rfl
    have hstored : ReservedBytes token accepted t.store := by
      intro found hfound
      cases hfind.symm.trans hfound
      exact hbytes
    have hnew := (le_max_left _ _).trans hleast
    exact ⟨ht, hnew, ⟨hstep.token_eq, htot.trans hnew, hmost, hstored⟩, row, hfind, hbytes⟩
  | byteQuotaReached => exact ht
  | notFound => exact ht
  | shareUnavailable => exact ht

theorem maintains_writeChunkInStep (hspares : env.Spares token)
    (hcalls : CallsSound token earlier w) (hstep : InStep token maximum upload w) :
    Maintains (CallsSound token earlier) (upload.writeChunk maximum chunk) env w fun upload' t =>
      InStep token maximum upload' t := by
  unfold writeChunk
  split
  · exact hcalls
  · rename_i newTotal hnew
    obtain ⟨htot, hmax⟩ := addUploadBytes_some hnew
    have hdue : Maintains (CallsSound token earlier) heartbeatDue env w fun _ t => t = w :=
      ⟨hcalls, rfl⟩
    refine hdue.bind ?_
    rintro due w' hcalls rfl
    have hgrow : Maintains (CallsSound token earlier) (upload.extendWhen due newTotal maximum)
        env w' fun upload' t => newTotal ≤ upload'.reservation.reservedBytes ∧
          InStep token maximum upload' t := by
      unfold extendWhen
      split
      · exact (maintains_extendInStep hspares hcalls hstep htot hmax).mono
          fun _ _ _ h => ⟨h.1, h.2.1⟩
      · rename_i hroom
        exact ⟨hcalls, by simp at hroom; omega, hstep⟩
    refine hgrow.bind fun upload' t ht ⟨hroom, hstep'⟩ => ?_
    have happend : Maintains (CallsSound token earlier) (do quietStep; appendFragment chunk) env t
        fun _ u => InStep token maximum upload' u := by
      refine (maintains_quietStep ht).bind fun _ u hu hu' => ?_
      subst hu'
      unfold appendFragment storageStep
      refine maintains_uploadStep hu fun moment => ⟨hu, ?_⟩
      have hela := (hstep'.elapse hspares).elapse hspares
      exact ⟨hela.token_eq, hela.received, hela.bounded, hela.stored⟩
    exact happend.mapError.bind fun _ u hu hstep'' =>
      ⟨hu, hstep''.token_eq, hroom, hstep''.bounded, hstep''.stored⟩

theorem maintains_writeChunksInStep (chunks : List ℕ) (hspares : env.Spares token)
    (hcalls : CallsSound token earlier w) (hstep : InStep token maximum upload w) :
    Maintains (CallsSound token earlier) (upload.writeChunks maximum chunks) env w
      fun upload' t => InStep token maximum upload' t := by
  induction chunks generalizing w upload with
  | nil => exact ⟨hcalls, hstep⟩
  | cons chunk rest ih =>
    have hnext : Maintains (CallsSound token earlier) quietStep env w fun _ t =>
        InStep token maximum upload t :=
      (maintains_quietStep hcalls).mono fun _ t _ ht => ht ▸ hstep.elapse hspares
    refine hnext.mapError.bind fun _ t ht hstep => ?_
    exact (maintains_writeChunkInStep hspares ht hstep).bind fun upload' u hu hstep' => ih hu hstep'

theorem maintains_beginInStep {target : PublicUploadTarget} (hspares : env.Spares token) :
    Maintains (fun _ => True) (begin token target) env w fun upload t =>
      InStep token maximum upload t := by
  unfold begin
  have hrsve : Maintains (fun _ => True) (database fun now s => beginUploadReservation now
      token target.shareId target.uploadPolicyEpoch s) env w fun outcome t =>
        outcome = .reserved → ReservedBytes token 0 t.store := by
    refine maintains_database trivial fun now store outcome hres => ⟨trivial, ?_⟩
    rintro rfl
    exact reservedBytes_begun hres
  refine hrsve.mapError.bind fun outcome t _ hreserved => ?_
  cases outcome with
  | byteQuotaReached => trivial
  | fileQuotaReached => trivial
  | shareUnavailable => trivial
  | reserved =>
    have hcreate : Maintains (fun _ => True) (storageStep fun moment w =>
        .ok () { w with fragment := some ⟨moment.inode, 0⟩ }) env t fun _ u =>
          ReservedBytes token 0 u.store := by
      unfold storageStep
      exact maintains_uploadStep trivial fun moment =>
        ⟨trivial, (hreserved rfl).elapse hspares⟩
    refine hcreate.attempt.bind fun result u _ hres => ?_
    cases result with
    | error error => trivial
    | ok _ => exact ⟨trivial, rfl, le_rfl, Nat.zero_le maximum, hres () rfl⟩

/-- The target of an extension is computed without overflow, covers what is required and what is
reserved, and stays below the maximum and within eight MiB of what is required. However the
writing of an upload's chunks ends, every call that was made to extend its reservation was sound;
and while it goes on, the upload knows what is reserved for it and receives no more than that,
also after the next extension, whatever chunk that is for. -/
theorem reservation_grows_soundly :
    (∀ received required reserved maximum : ℕ, received < 2 ^ 64 → required < 2 ^ 64 →
      reserved < 2 ^ 64 → maximum < 2 ^ 64 → reserved ≤ maximum → required ≤ maximum →
      ∃ target, checkedReservationTarget received required reserved maximum = some target ∧
        preferredReservationTarget received required reserved maximum = target ∧
        required ≤ target ∧ target ≤ maximum ∧ reserved ≤ target ∧
        (reserved < required → target - required < 8 * 1024 * 1024)) ∧
    ∀ (env : UploadEnvironment) (token : String) (target : PublicUploadTarget) (maximum : ℕ)
      (chunks : List ℕ) (w w₁ : UploadWorld) (upload : StagedUpload), env.Spares token →
      begin token target env w = .ok upload w₁ →
      CallsSound token w₁.extendCalls (upload.writeChunks maximum chunks env w₁).state ∧
      ∀ upload' w', upload.writeChunks maximum chunks env w₁ = .ok upload' w' →
        (upload'.total ≤ upload'.reservation.reservedBytes ∧
          ∀ row, w'.store.reservations.find? token = some row →
            row.reservedBytes = upload'.reservation.reservedBytes) ∧
        ∀ chunk newTotal extended t, addUploadBytes upload'.total chunk maximum = some newTotal →
          upload'.extend newTotal maximum env (w'.elapse env) = .ok extended t →
          newTotal ≤ extended.reservation.reservedBytes ∧ Remembers token extended t := by
  constructor
  · intro received required reserved maximum _ _ _ _ hreserved hreq
    refine ⟨_, checkedReservationTarget_eq, rfl, le_preferredReservationTarget hreq,
      preferredReservationTarget_le hreserved, reserved_le_preferredReservationTarget hreq,
      fun hgrows => ?_⟩
    have hlt : preferredReservationTarget received required reserved maximum <
        required + 8 * 1024 * 1024 := preferredReservationTarget_lt hgrows
    omega
  · intro env token target maximum chunks w w₁ upload hspares hbeg
    have hstep : InStep token maximum upload w₁ :=
      ((maintains_beginInStep hspares).ok hbeg).2
    have hcalls : CallsSound token w₁.extendCalls w₁ := ⟨[], by simp, by simp⟩
    have hloop := maintains_writeChunksInStep chunks hspares hcalls hstep
    refine ⟨hloop.state, fun upload' w' hok => ?_⟩
    obtain ⟨hcalls', hstep'⟩ := hloop.ok hok
    refine ⟨⟨hstep'.received, hstep'.stored⟩, fun chunk newTotal extended t hnew hext => ?_⟩
    obtain ⟨htot, hmax⟩ := addUploadBytes_some hnew
    have hgrown := maintains_extendInStep (w := w'.elapse env) hspares hcalls'
      (hstep'.elapse hspares) htot hmax
    exact ⟨(hgrown.ok hext).2.1, (hgrown.ok hext).2.2.2⟩

/-- A share for five million bytes. -/
def roomyShare : Store :=
  committed .empty (createShare 0 ⟨"share", none, ['d'], true, .uploadOnly, none, none, none,
    some 5000000, some 2, none, .reject, 1⟩ none .empty)

/-- An upload whose heartbeat is always due. -/
def beatingUpload : UploadEnvironment :=
  ⟨fun _ => .proceeds, fun time => ⟨0, time + 2, true, true⟩, fun _ => [], fun _ => id, fun _ => id⟩

def beatingTarget : PublicUploadTarget := ⟨1, 0, ⟨[], 0⟩, none, [], [], [], ['f']⟩

def beatingStart : UploadWorld := ⟨roomyShare, fun _ => none, none, false, 0, [], []⟩

theorem reservation_grows_soundly_beating :
    ∃ upload w₁, begin "slot" beatingTarget beatingUpload beatingStart = .ok upload w₁ ∧
      (upload.writeChunks 4000000 [700000, 700000] beatingUpload w₁).state.extendCalls.length =
        2 ∧
      CallsSound "slot" w₁.extendCalls
        (upload.writeChunks 4000000 [700000, 700000] beatingUpload w₁).state ∧
      preferredReservationTarget 700000 1400000 1048576 4000000 - 1400000 < 8 * 1024 * 1024 := by
  obtain ⟨htarget, hloop⟩ := reservation_grows_soundly
  obtain ⟨target, -, rfl, -, -, -, hclose⟩ := htarget 700000 1400000 1048576 4000000
    (by decide) (by decide) (by decide) (by decide) (by decide) (by decide)
  have hspares : beatingUpload.Spares "slot" := fun _ _ hx => nomatch hx
  refine ⟨_, _, rfl, by decide +kernel, ?_, hclose (by decide)⟩
  exact (hloop beatingUpload "slot" beatingTarget 4000000 [700000, 700000] beatingStart _ _ hspares
    rfl).1

end Loop

end VaultLink
