import VaultLink.DownloadLimit

/-!
# The upload quota

What a public upload may still use is spread over the share's limits, its usage row and
the reservations of its current policy epoch. Admission looks at stored bytes only and
at stored plus reserved files; extension looks at stored plus all other reserved bytes.
The invariant bounds both sums for every share at its current epoch. A mutation that
advances the epoch leaves no reservation at the new one, because no reservation is ever
ahead of its share; that fact, and the existence of the share behind every usage and
reservation row, complete the invariant.
-/
namespace VaultLink

open Store
open TransferServer
open KeyedTable

/-- What a share limits. -/
inductive UploadResource
  | bytes
  | files

namespace UploadResource

def limit : UploadResource → Share → Option Limit
  | .bytes => Share.maxUploadTotalSize
  | .files => Share.maxUploadFiles

def stored : UploadResource → UploadUsage → ℕ
  | .bytes => UploadUsage.uploadedBytes
  | .files => UploadUsage.uploadedFiles

def reserved : UploadResource → Reservation → ℕ
  | .bytes => Reservation.reservedBytes
  | .files => fun _ => 1

/-- What one upload takes. -/
def charge (bytes : ℕ) : UploadResource → ℕ
  | .bytes => bytes
  | .files => 1

end UploadResource

def Store.stored (s : Store) (resource : UploadResource) (shareId : ℕ) : ℕ :=
  ((s.usage.find? shareId).map resource.stored).getD 0

/-- What a share has stored and reserved of a resource. -/
def Store.used (s : Store) (resource : UploadResource) (shareId epoch : ℕ) : ℕ :=
  s.stored resource shareId + s.reservations.sum (ofEpoch shareId epoch) resource.reserved

theorem Store.used_files (s : Store) (shareId epoch : ℕ) :
    s.used .files shareId epoch = s.uploadedFiles shareId + s.reservedFiles shareId epoch := by
  rw [reservedFiles, count_eq_sum]
  rfl

structure UploadQuotaInv (s : Store) : Prop where
  reservation_share : ∀ row ∈ s.reservations, ∃ share ∈ s.shares,
    share.id = row.shareId ∧ row.uploadPolicyEpoch ≤ share.uploadPolicyEpoch
  usage_share : ∀ row ∈ s.usage, ∃ share ∈ s.shares, share.id = row.shareId
  has_limits : ∀ share ∈ s.shares, share.acceptsUploads = true →
    ∀ resource : UploadResource, (resource.limit share).isSome = true
  within : ∀ resource : UploadResource, ∀ share ∈ s.shares, ∀ limit,
    resource.limit share = some limit →
      s.used resource share.id share.uploadPolicyEpoch ≤ limit.value
  directories_le : ∀ row ∈ s.usage,
    row.createdDirectories ≤ maxPublicUploadCreatedDirectoriesPerShare

variable {s s' : Store}

section Fewer

/-- `s'` has the shares and usage of `s` and some of its reservations. -/
structure DropsReservations (s s' : Store) : Prop where
  shares_eq : s'.shares = s.shares
  usage_eq : s'.usage = s.usage
  mem : ∀ row ∈ s'.reservations, row ∈ s.reservations
  used_le : ∀ resource shareId epoch, s'.used resource shareId epoch ≤ s.used resource shareId epoch

theorem Store.used_congr (husa : s'.usage = s.usage)
    (hreservations : s'.reservations = s.reservations) (resource : UploadResource)
    (shareId epoch : ℕ) :
    s'.used resource shareId epoch = s.used resource shareId epoch := by
  simp only [used, stored, husa, hreservations]

theorem DropsReservations.of_eq (hshares : s'.shares = s.shares) (husa : s'.usage = s.usage)
    (hreservations : s'.reservations = s.reservations) : DropsReservations s s' :=
  ⟨hshares, husa, fun row hrow => by rwa [← hreservations], fun resource shareId epoch =>
    (used_congr husa hreservations resource shareId epoch).le⟩

theorem DropsReservations.deleteWhere (p : Reservation → Bool) (s : Store) :
    DropsReservations s { s with reservations := s.reservations.deleteWhere p } where
  shares_eq := rfl
  usage_eq := rfl
  mem := fun _ hrow => (mem_deleteWhere.mp hrow).1
  used_le := fun _ _ _ => Nat.add_le_add_left (s.reservations.sum_deleteWhere_le p _ _) _

theorem UploadQuotaInv.drops (hinv : UploadQuotaInv s) (h : DropsReservations s s') :
    UploadQuotaInv s' := by
  constructor
  · intro row hrow
    rw [h.shares_eq]
    exact hinv.reservation_share row (h.mem row hrow)
  · rw [h.usage_eq, h.shares_eq]
    exact hinv.usage_share
  · rw [h.shares_eq]
    exact hinv.has_limits
  · intro resource share hsh limit hlim
    rw [h.shares_eq] at hsh
    exact (h.used_le _ _ _).trans (hinv.within resource share hsh limit hlim)
  · rw [h.usage_eq]
    exact hinv.directories_le

theorem UploadQuotaInv.deleteExpired (hinv : UploadQuotaInv s) (now : Instant) :
    UploadQuotaInv (deleteExpiredReservations now s) :=
  hinv.drops (DropsReservations.deleteWhere _ s)

theorem UploadQuotaInv.deleteReservation (hinv : UploadQuotaInv s) (token : String) :
    UploadQuotaInv (VaultLink.deleteReservation token s) :=
  hinv.drops (DropsReservations.deleteWhere _ s)

end Fewer

variable {share : Share}

section ShareUpdates

/-- No reservation is ahead of its share, so a later epoch starts without reservations. -/
theorem UploadQuotaInv.used_of_epoch_le (hinv : UploadQuotaInv s) (hsh : share ∈ s.shares)
    {epoch : ℕ} (hep : share.uploadPolicyEpoch ≤ epoch) (resource : UploadResource) :
    s.used resource share.id epoch ≤ s.used resource share.id share.uploadPolicyEpoch := by
  rcases hep.eq_or_lt with rfl | hlt
  · exact le_rfl
  · have hnone : ∀ row ∈ s.reservations, ofEpoch share.id epoch row = false := by
      intro row hrow
      obtain ⟨owner, hown, hid, hle⟩ := hinv.reservation_share row hrow
      by_contra hmat
      simp only [ofEpoch, Bool.not_eq_false, Bool.and_eq_true, decide_eq_true_eq] at hmat
      have hsame : owner = share :=
        s.shares.eq_of_key_eq hown hsh (hid.trans hmat.1)
      subst hsame
      omega
    rw [used, sum_eq_zero hnone]
    exact Nat.le_add_right _ _

/-- A statement on share rows keeps the quota when it never lowers an epoch and every limit
it leaves behind covers what was stored and reserved before. -/
theorem UploadQuotaInv.updateShares {p : Share → Bool} {f : Share → Share}
    (hf : ∀ share, (f share).id = share.id) (hinv : UploadQuotaInv s)
    (hshares : s'.shares = s.shares.updateWhere p f hf) (husa : s'.usage = s.usage)
    (hreservations : s'.reservations = s.reservations)
    (hep : ∀ share ∈ s.shares, p share = true →
      share.uploadPolicyEpoch ≤ (f share).uploadPolicyEpoch)
    (hlims : ∀ share ∈ s.shares, p share = true → (f share).acceptsUploads = true →
      ∀ resource : UploadResource, (resource.limit (f share)).isSome = true)
    (hwithin : ∀ resource : UploadResource, ∀ share ∈ s.shares, p share = true → ∀ limit,
      resource.limit (f share) = some limit →
      s.used resource share.id share.uploadPolicyEpoch ≤ limit.value) : UploadQuotaInv s' := by
  have hid : ∀ share, (if p share then f share else share).id = share.id := by
    intro share
    split
    · exact hf share
    · rfl
  have hrow : ∀ share' ∈ s'.shares, ∃ share ∈ s.shares,
      (if p share then f share else share) = share' := by
    intro share' hsh'
    rw [hshares] at hsh'
    exact (mem_updateWhere hf).mp hsh'
  have hkept : ∀ share ∈ s.shares, (if p share then f share else share) ∈ s'.shares := by
    intro share hsh
    rw [hshares]
    exact (mem_updateWhere hf).mpr ⟨share, hsh, rfl⟩
  have hahead : ∀ share ∈ s.shares,
      share.uploadPolicyEpoch ≤ (if p share then f share else share).uploadPolicyEpoch := by
    intro share hsh
    split
    · exact hep share hsh ‹_›
    · exact le_rfl
  constructor
  · intro row hmem
    rw [hreservations] at hmem
    obtain ⟨share, hsh, hshId, hle⟩ := hinv.reservation_share row hmem
    exact ⟨_, hkept share hsh, (hid share).trans hshId, hle.trans (hahead share hsh)⟩
  · intro row hmem
    rw [husa] at hmem
    obtain ⟨share, hsh, hshId⟩ := hinv.usage_share row hmem
    exact ⟨_, hkept share hsh, (hid share).trans hshId⟩
  · intro share' hsh'
    obtain ⟨share, hsh, rfl⟩ := hrow share' hsh'
    split
    · exact hlims share hsh ‹_›
    · exact hinv.has_limits share hsh
  · intro resource share' hsh' limit hlim
    obtain ⟨share, hsh, rfl⟩ := hrow share' hsh'
    rw [used_congr husa hreservations, hid]
    refine (hinv.used_of_epoch_le hsh (hahead share hsh) resource).trans ?_
    split at hlim
    · exact hwithin resource share hsh ‹_› limit hlim
    · exact hinv.within resource share hsh limit hlim
  · rw [husa]
    exact hinv.directories_le

/-- The common case: limits and kind stay, the epoch stays or advances. -/
theorem UploadQuotaInv.updateShares_of_limits_eq {p : Share → Bool} {f : Share → Share}
    (hf : ∀ share, (f share).id = share.id) (hinv : UploadQuotaInv s)
    (hshares : s'.shares = s.shares.updateWhere p f hf) (husa : s'.usage = s.usage)
    (hreservations : s'.reservations = s.reservations)
    (hep : ∀ share, share.uploadPolicyEpoch ≤ (f share).uploadPolicyEpoch)
    (hacpt : ∀ share, (f share).acceptsUploads = share.acceptsUploads)
    (hlim : ∀ share (resource : UploadResource), resource.limit (f share) = resource.limit share) :
    UploadQuotaInv s' := by
  refine hinv.updateShares hf hshares husa hreservations (fun share _ _ => hep share) ?_ ?_
  · intro share hsh _ haccept resource
    rw [hlim]
    exact hinv.has_limits share hsh (by rwa [hacpt] at haccept) resource
  · intro resource share hsh _ limit h
    exact hinv.within resource share hsh limit (by rwa [hlim] at h)

end ShareUpdates

variable {shareId bytes : ℕ}

section Usage

/-- The upsert adds to the counters of one share. -/
theorem usage_addUploadUsage (shareId bytes directories : ℕ) (s : Store) (id : ℕ) :
    ((addUploadUsage shareId bytes directories s).usage.find? id) =
      if shareId = id then
        some (((s.usage.find? id).map fun row =>
          { row with
            uploadedBytes := row.uploadedBytes + bytes
            uploadedFiles := row.uploadedFiles + 1
            createdDirectories := row.createdDirectories + directories }).getD
          ⟨shareId, bytes, 1, directories⟩)
      else s.usage.find? id := by
  unfold addUploadUsage
  split
  · rename_i usage hins
    rw [find?_insert? hins]
    split
    · rename_i hid
      subst hid
      have hfree : s.usage.find? shareId = none :=
        find?_eq_none_iff.mpr (insert?_some hins).2
      rw [hfree]
      rfl
    · rfl
  · rename_i hins
    rw [find?_updateWhere]
    cases hfind : s.usage.find? id with
    | none =>
      split
      · rename_i hid
        subst hid
        have hfree := find?_eq_none_iff.mp hfind
        obtain ⟨usage, husa⟩ := insert?_isSome
          (r := (⟨shareId, bytes, 1, directories⟩ : UploadUsage)) hfree
        rw [hins] at husa
        cases husa
      · rfl
    | some =>
      have hkey := (find?_some hfind).2
      by_cases hid : shareId = id
      · simp [hid, hkey]
      · simp [hid, hkey, Ne.symm hid]

theorem stored_addUploadUsage (resource : UploadResource) (shareId bytes directories : ℕ)
    (s : Store) (id : ℕ) : (addUploadUsage shareId bytes directories s).stored resource id =
      s.stored resource id + if shareId = id then resource.charge bytes else 0 := by
  unfold stored
  rw [usage_addUploadUsage]
  cases resource <;> cases s.usage.find? id <;> split <;>
    simp [UploadResource.stored, UploadResource.charge]

/-- The directory counter of a stored usage row after the upsert. -/
theorem createdDirectories_addUploadUsage {directories : ℕ} {row : UploadUsage}
    (hrow : row ∈ (addUploadUsage shareId bytes directories s).usage) :
    row ∈ s.usage ∨ row.shareId = shareId ∧
      row.createdDirectories = s.createdDirectories shareId + directories := by
  have hfind := find?_eq_some_iff.mpr ⟨hrow, rfl⟩
  rw [usage_addUploadUsage] at hfind
  split at hfind
  · rename_i hid
    refine Or.inr ⟨hid.symm, ?_⟩
    rw [← Option.some.inj hfind, createdDirectories, ← hid]
    cases s.usage.find? shareId <;> simp
  · exact Or.inl (find?_some hfind).1

end Usage

variable {now : Instant}

section Reservations

/-- A share row that `available_upload_share_total_limit` accepts. -/
theorem availableUploadShareTotalLimit_some {epoch : ℕ} {total : Limit}
    (h : availableUploadShareTotalLimit shareId epoch now s = some total) :
    ∃ share ∈ s.shares, share.id = shareId ∧ share.uploadPolicyEpoch = epoch ∧
      share.maxUploadTotalSize = some total := by
  unfold availableUploadShareTotalLimit at h
  obtain ⟨share, hfilter, htot⟩ := Option.bind_eq_some_iff.mp h
  obtain ⟨hfind, hcond⟩ := Option.filter_eq_some_iff.mp hfilter
  obtain ⟨hmem, hid⟩ := find?_some hfind
  simp only [Bool.and_eq_true, decide_eq_true_eq] at hcond
  exact ⟨share, hmem, hid, hcond.1.1.1.1.1, htot⟩

/-- A new reservation holds no bytes yet and one file slot, at its share's epoch. -/
theorem UploadQuotaInv.insertReservation {row : Reservation}
    {reservations : KeyedTable Reservation.tokenHash} (hinv : UploadQuotaInv s)
    (hsh : share ∈ s.shares) (hid : row.shareId = share.id)
    (hep : row.uploadPolicyEpoch = share.uploadPolicyEpoch) (hbytes : row.reservedBytes = 0)
    (hroom : ∀ files, share.maxUploadFiles = some files →
      s.used .files share.id share.uploadPolicyEpoch < files.value)
    (hins : s.reservations.insert? row = some reservations) :
    UploadQuotaInv { s with reservations } := by
  constructor
  · intro row' hrow'
    rcases (mem_insert? hins).mp hrow' with rfl | hrow'
    · exact ⟨share, hsh, hid.symm, hep.le⟩
    · exact hinv.reservation_share row' hrow'
  · exact hinv.usage_share
  · exact hinv.has_limits
  · intro resource other hoth limit hlim
    have hle := hinv.within resource other hoth limit hlim
    have hused : used { s with reservations } resource other.id other.uploadPolicyEpoch =
        s.used resource other.id other.uploadPolicyEpoch +
          if ofEpoch other.id other.uploadPolicyEpoch row then resource.reserved row else 0 := by
      rw [used, used, sum_insert? hins, ← Nat.add_assoc]
      rfl
    rw [hused]
    split
    · rename_i hmat
      have hboth : row.shareId = other.id ∧ row.uploadPolicyEpoch = other.uploadPolicyEpoch := by
        simpa [ofEpoch] using hmat
      obtain rfl : other = share := s.shares.eq_of_key_eq hoth hsh (hboth.1.symm.trans hid)
      cases resource with
      | bytes => exact (congrArg (_ + ·) hbytes).trans_le hle
      | files => exact hroom limit hlim
    · exact hle
  · exact hinv.directories_le

/-- Rewriting the bytes of one reservation up to what its share's limit leaves. -/
theorem UploadQuotaInv.setReservedBytes {row : Reservation} {total : Limit} {expires : Instant}
    (hinv : UploadQuotaInv s) (hrow : row ∈ s.reservations) (hsh : share ∈ s.shares)
    (hid : share.id = row.shareId) (htot : share.maxUploadTotalSize = some total)
    (hroom : s.uploadedBytes row.shareId +
      s.otherReservedBytes row.tokenHash row.shareId row.uploadPolicyEpoch + bytes ≤ total.value) :
    UploadQuotaInv (VaultLink.setReservedBytes row.tokenHash bytes expires s) := by
  set s' := VaultLink.setReservedBytes row.tokenHash bytes expires s with hs'
  have hbytes' : ∀ id epoch, s'.reservedBytes id epoch =
      s.otherReservedBytes row.tokenHash id epoch + if ofEpoch id epoch row then bytes else 0 := by
    intro id epoch
    have hmem : { row with reservedBytes := bytes, expiresAt := expires } ∈ s'.reservations :=
      (mem_updateWhere).mpr ⟨row, hrow, by simp⟩
    unfold reservedBytes otherReservedBytes
    rw [sum_split_key hmem]
    congr 1
    exact sum_updateKey_of_ne (by intros; rfl) row.tokenHash _ _
  have hoth : ∀ id epoch, s.reservedBytes id epoch =
      s.otherReservedBytes row.tokenHash id epoch +
        if ofEpoch id epoch row then row.reservedBytes else 0 := fun id epoch =>
    sum_split_key hrow _ _
  have hfiles' : ∀ id epoch, s'.reservedFiles id epoch = s.reservedFiles id epoch := by
    intro id epoch
    exact count_updateWhere_of_eq (by intros; rfl) (by intros; rfl)
  constructor
  · intro row' hrow'
    obtain ⟨row₀, hrow₀, rfl⟩ := (mem_updateWhere).mp hrow'
    obtain ⟨owner, hown, hownerId, hle⟩ := hinv.reservation_share row₀ hrow₀
    refine ⟨owner, hown, ?_⟩
    split <;> exact ⟨hownerId, hle⟩
  · exact hinv.usage_share
  · exact hinv.has_limits
  · intro resource owner hown limit hlim
    have hle := hinv.within resource owner hown limit hlim
    cases resource with
    | files =>
      rw [used_files] at hle ⊢
      rw [hfiles']
      exact hle
    | bytes =>
      change s.uploadedBytes owner.id + s.reservedBytes owner.id _ ≤ _ at hle
      change s.uploadedBytes owner.id + s'.reservedBytes owner.id _ ≤ _
      rw [hbytes']
      rw [hoth] at hle
      by_cases hmat : ofEpoch owner.id owner.uploadPolicyEpoch row = true
      · have hboth : row.shareId = owner.id ∧ row.uploadPolicyEpoch = owner.uploadPolicyEpoch := by
          simpa [ofEpoch] using hmat
        obtain rfl : owner = share :=
          s.shares.eq_of_key_eq hown hsh (hboth.1.symm.trans hid.symm)
        cases hlim.symm.trans htot
        rw [if_pos hmat, ← hboth.1, ← hboth.2]
        omega
      · rw [if_neg hmat] at hle ⊢
        exact hle
  · exact hinv.directories_le

/-- Turning a reservation into usage moves at most its reserved bytes and its file slot. -/
theorem UploadQuotaInv.commitUsage {row : Reservation} {directories : ℕ} (hinv : UploadQuotaInv s)
    (hrow : row ∈ s.reservations) (hsh : share ∈ s.shares) (hid : share.id = row.shareId)
    (hep : share.uploadPolicyEpoch = row.uploadPolicyEpoch) (hbytes : bytes ≤ row.reservedBytes)
    (hdirs : s.createdDirectories row.shareId + directories ≤
      maxPublicUploadCreatedDirectoriesPerShare) :
    UploadQuotaInv (VaultLink.deleteReservation row.tokenHash
      (addUploadUsage row.shareId bytes directories s)) := by
  set s' := VaultLink.deleteReservation row.tokenHash
    (addUploadUsage row.shareId bytes directories s) with hs'
  have hshares : s'.shares = s.shares := by
    rw [hs', addUploadUsage_eq]
    rfl
  have hreservations : s'.reservations =
      s.reservations.deleteWhere fun r => r.tokenHash = row.tokenHash := by
    rw [hs', addUploadUsage_eq]
    rfl
  have hused : ∀ resource id epoch, s'.used resource id epoch +
      (if ofEpoch id epoch row then resource.reserved row else 0) =
      s.used resource id epoch + if row.shareId = id then resource.charge bytes else 0 := by
    intro resource id epoch
    have hstored : s'.stored resource id = _ := stored_addUploadUsage resource _ _ _ s id
    have hsplit := sum_split_key hrow (ofEpoch id epoch) resource.reserved
    rw [used, used, hstored, hsplit, hreservations, sum_deleteWhere]
    simp only [decide_not]
    omega
  have hcur : ∀ owner ∈ s.shares, row.shareId = owner.id →
      ofEpoch owner.id owner.uploadPolicyEpoch row = true := by
    intro owner hown hownerId
    have hsame : owner = share :=
      s.shares.eq_of_key_eq hown hsh (hownerId.symm.trans hid.symm)
    simp [ofEpoch, hownerId, hsame, hep]
  constructor
  · intro row' hrow'
    rw [hreservations] at hrow'
    rw [hshares]
    exact hinv.reservation_share row' (mem_deleteWhere.mp hrow').1
  · intro usage husa
    rw [hshares]
    rcases createdDirectories_addUploadUsage husa with hold | ⟨hnew, _⟩
    · exact hinv.usage_share usage hold
    · exact ⟨share, hsh, hid.trans hnew.symm⟩
  · rw [hshares]
    exact hinv.has_limits
  · intro resource owner hown limit hlim
    rw [hshares] at hown
    have hle := hinv.within resource owner hown limit hlim
    have heq := hused resource owner.id owner.uploadPolicyEpoch
    split at heq
    · have hcharge : resource.charge bytes ≤ resource.reserved row := by
        cases resource with
        | bytes => exact hbytes
        | files => exact le_rfl
      split at heq <;> omega
    · rename_i hoth
      rw [if_neg fun hownerId => hoth (hcur owner hown hownerId)] at heq
      omega
  · intro usage husa
    rcases createdDirectories_addUploadUsage husa with hold | ⟨_, hnew⟩
    · exact hinv.directories_le usage hold
    · rw [hnew]
      exact hdirs

end Reservations

section Calls

theorem UploadQuotaInv.beginReservation {token : String} {epoch : ℕ}
    {outcome : UploadReservationBeginOutcome} (hinv : UploadQuotaInv s)
    (h : beginUploadReservation now token shareId epoch s = .ok (s', outcome)) :
    UploadQuotaInv s' := by
  have hexpired := hinv.deleteExpired now
  cases beginsReservation h with
  | refused => exact hexpired
  | reserved hfind hep hfiles hroom hins =>
    obtain ⟨hsh, hid⟩ := find?_some hfind
    refine hexpired.insertReservation hsh hid.symm hep.symm rfl ?_ hins
    intro files hfilesEq
    rw [hfiles] at hfilesEq
    cases hfilesEq
    rwa [hid, hep, used_files]

theorem UploadQuotaInv.extendReservation {token : String} {minimum preferred reserved : ℕ}
    {outcome : UploadReservationExtendOutcome} (hinv : UploadQuotaInv s)
    (h : extendUploadReservationUpTo now token minimum preferred s = .ok (s', outcome, reserved)) :
    UploadQuotaInv s' := by
  have hexpired := hinv.deleteExpired now
  cases extendsReservation h with
  | refused => exact hexpired
  | dropped => exact hexpired.deleteReservation token
  | extended hfind htot _ _ hroom =>
    obtain ⟨hrow, rfl⟩ := find?_some hfind
    obtain ⟨share, hsh, hid, _, hlim⟩ := availableUploadShareTotalLimit_some htot
    exact hexpired.setReservedBytes hrow hsh hid hlim hroom

theorem UploadQuotaInv.commitReservation {token : String} {directories : ℕ} {audited : Bool}
    {operationHash : Option String} {outcome : UploadReservationCommitOutcome}
    (hinv : UploadQuotaInv s)
    (h : commitUploadReservation now token bytes directories audited operationHash s =
      .ok (s', outcome)) : UploadQuotaInv s' := by
  have hexpired := hinv.deleteExpired now
  cases commitsReservation h with
  | notFound => exact hexpired
  | dropped => exact hexpired.deleteReservation token
  | @committed _ _ charged _ hfind htot hbytes hdirs hcharge =>
    obtain ⟨hrow, rfl⟩ := find?_some hfind
    obtain ⟨share, hsh, hid, hep, _⟩ := availableUploadShareTotalLimit_some htot
    have hs := chargeUploadOperation_eq hcharge
    have hcharged : UploadQuotaInv charged :=
      hexpired.drops (DropsReservations.of_eq (by rw [hs]) (by rw [hs]) (by rw [hs]))
    rw [hs] at hcharged ⊢
    exact (hcharged.commitUsage hrow hsh hid hep hbytes hdirs).drops
      (DropsReservations.of_eq rfl rfl rfl)

theorem UploadQuotaInv.keepsUploads (hinv : UploadQuotaInv s) (h : KeepsUploads s s') :
    UploadQuotaInv s' := by
  rcases h.shares_eq with hshares | ⟨id, hshares⟩
  · exact hinv.drops (DropsReservations.of_eq hshares h.usage_eq h.reservations_eq)
  · exact hinv.updateShares_of_limits_eq (by intros; rfl) hshares h.usage_eq h.reservations_eq
      (fun _ => le_rfl) (fun _ => rfl) (by rintro _ ⟨⟩ <;> rfl)

theorem UploadQuotaInv.deleteShare (id : ℕ) (hinv : UploadQuotaInv s) :
    UploadQuotaInv (VaultLink.deleteShare id s).1 := by
  have hkept : ∀ share ∈ s.shares, share.id ≠ id →
      share ∈ (VaultLink.deleteShare id s).1.shares := fun share hsh hne =>
    mem_deleteWhere.mpr ⟨hsh, by simpa using hne⟩
  have husa : ∀ share ∈ (VaultLink.deleteShare id s).1.shares,
      share ∈ s.shares ∧ (VaultLink.deleteShare id s).1.usage.find? share.id =
        s.usage.find? share.id := by
    intro share hsh
    obtain ⟨hmem, hne⟩ := mem_deleteWhere.mp hsh
    refine ⟨hmem, ?_⟩
    refine (find?_deleteWhere s.usage _ share.id).trans ?_
    cases hfind : s.usage.find? share.id with
    | none => rfl
    | some =>
      have hid := (find?_some hfind).2
      rw [Option.filter_some, hid, hne]
      rfl
  constructor
  · intro row hrow
    obtain ⟨hmem, hne⟩ := mem_deleteWhere.mp hrow
    obtain ⟨share, hsh, hid, hle⟩ := hinv.reservation_share row hmem
    exact ⟨share, hkept share hsh (by simpa [hid] using hne), hid, hle⟩
  · intro row hrow
    obtain ⟨hmem, hne⟩ := mem_deleteWhere.mp hrow
    obtain ⟨share, hsh, hid⟩ := hinv.usage_share row hmem
    exact ⟨share, hkept share hsh (by simpa [hid] using hne), hid⟩
  · intro share hsh
    exact hinv.has_limits share (husa share hsh).1
  · intro resource share hsh limit hlim
    obtain ⟨hmem, hfind⟩ := husa share hsh
    have hle := hinv.within resource share hmem limit hlim
    have hdrop := s.reservations.sum_deleteWhere_le (fun row => row.shareId = id)
      (ofEpoch share.id share.uploadPolicyEpoch) resource.reserved
    unfold used stored at hle ⊢
    rw [hfind]
    exact (Nat.add_le_add_left hdrop _).trans hle
  · intro row hrow
    exact hinv.directories_le row (mem_deleteWhere.mp hrow).1

theorem UploadQuotaInv.createShare {new : NewShare} {detail : Option String} {id : ℕ}
    (hinv : UploadQuotaInv s) (h : VaultLink.createShare now new detail s = .ok (s', id)) :
    UploadQuotaInv s' := by
  obtain ⟨new, shares, audit, hins, rfl, hid, hnext, -, hlims⟩ := createShare_inserts h
  have hfr : ∀ share ∈ s.shares, share.id ≠ new.id := fun share hsh =>
    hid ▸ hnext ▸ (lt_nextRowid (List.mem_map_of_mem (f := Share.id) hsh)).ne
  have hkept : ∀ share ∈ s.shares, share ∈ shares := fun share hsh =>
    (mem_insert? hins).mpr (Or.inr hsh)
  constructor
  · intro row hrow
    obtain ⟨share, hsh, hid⟩ := hinv.reservation_share row hrow
    exact ⟨share, hkept share hsh, hid⟩
  · intro row hrow
    obtain ⟨share, hsh, hid⟩ := hinv.usage_share row hrow
    exact ⟨share, hkept share hsh, hid⟩
  · intro share hsh hacpt
    rcases (mem_insert? hins).mp hsh with rfl | hsh
    · obtain ⟨htot, hfiles⟩ := hlims hacpt
      rintro ⟨⟩
      · exact htot
      · exact hfiles
    · exact hinv.has_limits share hsh hacpt
  · intro resource share hsh limit hlim
    rcases (mem_insert? hins).mp hsh with rfl | hsh
    · have hnoUsage : s.usage.find? share.id = none := by
        refine find?_eq_none_iff.mpr fun row hrow => ?_
        obtain ⟨owner, hown, hid⟩ := hinv.usage_share row hrow
        rw [← hid]
        exact hfr owner hown
      have hnone : ∀ row ∈ s.reservations,
          ofEpoch share.id share.uploadPolicyEpoch row = false := by
        intro row hrow
        obtain ⟨owner, hown, hid, _⟩ := hinv.reservation_share row hrow
        simp [ofEpoch, ← hid, hfr owner hown]
      unfold used stored
      rw [hnoUsage, sum_eq_zero hnone]
      exact Nat.zero_le _
    · exact hinv.within resource share hsh limit hlim
  · exact hinv.directories_le

/-- New limits are admitted only when they cover stored and reserved use, and a change of any
control advances the epoch or leaves it. -/
theorem UploadQuotaInv.updateShareControls {id : ℕ} {active : Option Bool}
    {strategy : Option UploadConflictStrategy} {uploadLimits : Option (ℕ × ℕ)}
    {events : List AuditRow} {result : ShareControlsUpdateOutcome × Option Share}
    (hinv : UploadQuotaInv s)
    (h : VaultLink.updateShareControls now id active strategy uploadLimits events s =
      .ok (s', result)) : UploadQuotaInv s' := by
  have hexpired := hinv.deleteExpired now
  simp only [VaultLink.updateShareControls] at h
  split at h
  · cases h
    exact hexpired
  · rename_i share hfind
    obtain ⟨hsh, hid⟩ := find?_some hfind
    split at h
    · cases h
      exact hexpired.updateShares_of_limits_eq (by intros; rfl) rfl rfl rfl
        (fun _ => Nat.le_add_right _ _) (fun _ => rfl) (by rintro _ ⟨⟩ <;> rfl)
    · rename_i total files
      split at h
      · rename_i totalLimit fileLimit htot hfiles
        have htotalValue := Limit.ofNat?_value htot
        have hfilesValue := Limit.ofNat?_value hfiles
        split_ifs at h with hkind hconflict
        · cases h
          exact hexpired
        · cases h
          simp only [Bool.or_eq_true, decide_eq_true_eq, not_or, not_lt] at hconflict
          have hsame : ∀ row ∈ (deleteExpiredReservations now s).shares,
              decide (row.id = id) = true → row = share := fun row hrow hrowId =>
            eq_of_key_eq _ hrow hsh ((of_decide_eq_true hrowId).trans hid.symm)
          refine hexpired.updateShares (by intros; rfl) rfl rfl rfl
            (fun _ _ _ => Nat.le_add_right _ _) (by rintro _ _ _ _ ⟨⟩ <;> rfl) ?_
          intro resource row hrow hrowId limit hlim
          rw [hsame row hrow hrowId, hid]
          cases resource <;> cases hlim
          · rw [htotalValue]
            exact hconflict.1
          · rw [hfilesValue, used_files]
            exact hconflict.2
      · cases h

end Calls

section Runs

theorem UploadQuotaInv.empty : UploadQuotaInv empty where
  reservation_share := fun _ h => absurd h (not_mem_empty _)
  usage_share := fun _ h => absurd h (not_mem_empty _)
  has_limits := fun _ h => absurd h (not_mem_empty _)
  within := fun _ _ h => absurd h (not_mem_empty _)
  directories_le := fun _ h => absurd h (not_mem_empty _)

theorem UploadQuotaInv.execute (now : Instant) (s : Store) (call : TransferCall)
    (hinv : UploadQuotaInv s) : UploadQuotaInv (call.execute now s) := by
  cases call with
  | beginLease | completeLease | cancelLease | heartbeatLease =>
    exact hinv.keepsUploads (TransferCall.keepsUploads now s rfl)
  | beginReservation =>
    exact committed_inv hinv fun _ _ h => hinv.beginReservation h
  | extendReservation =>
    exact committed_inv hinv fun _ _ h => hinv.extendReservation h
  | commitReservation =>
    exact committed_inv hinv fun _ _ h => hinv.commitReservation h
  | cancelReservation token => exact hinv.deleteReservation token
  | createShare => exact committed_inv hinv fun _ _ h => hinv.createShare h
  | deleteShare id => exact hinv.deleteShare id
  | renamePaths | deactivatePaths | setSharePassword =>
    exact hinv.updateShares_of_limits_eq (by intros; rfl) rfl rfl rfl
      (fun _ => Nat.le_succ _) (fun _ => rfl) (by rintro _ ⟨⟩ <;> rfl)
  | setShareActive =>
    exact hinv.updateShares_of_limits_eq (by intros; rfl) rfl rfl rfl
      (fun _ => Nat.le_add_right _ _) (fun _ => rfl) (by rintro _ ⟨⟩ <;> rfl)
  | updateShareControls =>
    exact committed_inv hinv fun _ _ h => hinv.updateShareControls h
  | createUnlockSession =>
    exact createUnlockSession_inv fun _ _ => hinv.drops (DropsReservations.of_eq rfl rfl rfl)

/-- In every committed state of every interleaving a share that accepts uploads has both
limits, its stored and currently reserved bytes and files stay within them, and it has
created at most 256 directories. -/
theorem upload_quota_within_limits (events : List ServerEvent) (share : Share)
    (hshare : share ∈ (run events).store.shares)
    (haccepts : share.acceptsUploads = true) :
    ∃ total files, share.maxUploadTotalSize = some total ∧ share.maxUploadFiles = some files ∧
      (run events).store.uploadedBytes share.id +
          (run events).store.reservedBytes share.id share.uploadPolicyEpoch
        ≤ total.value ∧
      (run events).store.uploadedFiles share.id +
          (run events).store.reservedFiles share.id share.uploadPolicyEpoch
        ≤ files.value ∧
      (run events).store.createdDirectories share.id ≤ 256 := by
  have hinv := run_invariant UploadQuotaInv UploadQuotaInv.empty
    UploadQuotaInv.execute events
  generalize (run events).store = s at *
  have hlims := hinv.has_limits share hshare haccepts
  obtain ⟨total, htot⟩ := Option.isSome_iff_exists.mp (hlims .bytes)
  obtain ⟨files, hfiles⟩ := Option.isSome_iff_exists.mp (hlims .files)
  refine ⟨total, files, htot, hfiles, hinv.within .bytes share hshare total htot, ?_, ?_⟩
  · rw [← used_files]
    exact hinv.within .files share hshare files hfiles
  · unfold createdDirectories
    cases hfind : s.usage.find? share.id with
    | none => exact Nat.zero_le _
    | some row => exact hinv.directories_le row (find?_some hfind).1

/-- A share with room for two files of ten bytes: one upload is committed with three
directories, and a second reservation is then extended to the preferred target. -/
def twoUploadsRun : List ServerEvent :=
  [.arrive (.createShare ⟨"share", none, ['d'], true, .uploadOnly, none, none, none, some 10,
      some 2, none, .reject, 1⟩ none) 0, .execute 0 0,
    .arrive (.beginReservation "first" 1 0) 0, .execute 0 0,
    .arrive (.extendReservation "first" 4 4) 0, .execute 0 0,
    .arrive (.commitReservation "first" 4 3 true none) 0, .execute 0 0,
    .arrive (.beginReservation "second" 1 0) 0, .execute 0 0,
    .arrive (.extendReservation "second" 5 6) 0, .execute 0 0]

/-- The share row during `twoUploadsRun`. -/
def twoUploadsShare : Share :=
  { id := 1, tokenHash := "share", linkAlias := none, relativePath := ['d'], isDirectory := true
    permission := .uploadOnly, expiresAt := none, maxDownloads := none, maxUploadSize := none
    maxUploadTotalSize := some ⟨10, by decide, by decide⟩
    maxUploadFiles := some ⟨2, by decide, by decide⟩, downloadCount := 0, active := true
    createdBy := 1, createdAt := 0, passwordHash := none, uploadConflictStrategy := .reject
    uploadPolicyEpoch := 0 }

theorem upload_quota_within_limits_twoUploads :
    twoUploadsShare ∈ (run twoUploadsRun).store.shares ∧
      (run twoUploadsRun).store.uploadedBytes 1 = 4 ∧
      (run twoUploadsRun).store.reservedBytes 1 0 = 6 ∧
      ∃ total files, twoUploadsShare.maxUploadTotalSize = some total ∧
        twoUploadsShare.maxUploadFiles = some files ∧
        (run twoUploadsRun).store.uploadedBytes 1 +
          (run twoUploadsRun).store.reservedBytes 1 0 ≤ total.value ∧
        (run twoUploadsRun).store.uploadedFiles 1 +
          (run twoUploadsRun).store.reservedFiles 1 0 ≤ files.value ∧
        (run twoUploadsRun).store.createdDirectories 1 ≤ 256 :=
  have hsh : twoUploadsShare ∈ (run twoUploadsRun).store.shares := by decide
  ⟨hsh, by decide, by decide, upload_quota_within_limits twoUploadsRun twoUploadsShare hsh rfl⟩

end Runs

end VaultLink
