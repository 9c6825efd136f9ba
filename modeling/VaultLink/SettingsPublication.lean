import VaultLink.Histories
import VaultLink.SettingsServer

/-!
# Readers only see committed settings

The snapshots differ from the committed settings only between the publication and `COMMIT`
or the restoration. A commit in that state holds the write lock of every snapshot that
differs and the mutation lock, so that no reader is at the snapshot and no second commit is
under way. The decision whether the WebAuthn service is replaced was made under the mutation
lock too, and the settings it compared are still the committed ones at `COMMIT`.
-/
namespace VaultLink

open Function
open History
open SettingsStage

variable {lock : SettingsLock} {stage : SettingsStage}

section Locks

variable {ι : Type}

/-- Between the publication and the point where the old values are back or the new ones are
committed. -/
def SettingsStage.dirty : SettingsStage → Bool
  | auditing _ _ _ _ | committing _ _ _ _ | restoring _ _ _ => true
  | _ => false

@[simp] theorem SettingsStage.exclusively_eq_none {locks : List SettingsLock} :
    exclusively locks lock = none ↔ lock ∉ locks := by
  simp [exclusively]

/-- Being granted a lock adds that lock and changes no other. -/
theorem SettingsStage.holds_of_request {stage' : SettingsStage} {mode : LockMode}
    (h : stage.request = some (lock, mode, stage')) (other : SettingsLock) :
    stage'.holds other = if other = lock then some mode else stage.holds other := by
  unfold request at h
  split at h <;> simp only [Option.some.injEq, Prod.mk.injEq, reduceCtorEq] at h
  case h_5 call replacement =>
    obtain ⟨rfl, rfl, rfl⟩ := h
    cases replacement <;> cases other <;> rfl
  case h_7 call replacement =>
    obtain ⟨rfl, rfl, rfl⟩ := h
    cases replacement <;> cases other <;> rfl
  all_goals
    obtain ⟨rfl, rfl, rfl⟩ := h
    cases other <;> rfl

/-- The second stage holds no lock that the first does not. -/
def SettingsStage.Shrinks (stage stage' : SettingsStage) : Prop :=
  ∀ lock, stage'.holds lock = none ∨ stage'.holds lock = stage.holds lock

theorem SettingsStage.shrinks_unwinding {locks : List SettingsLock} (outcome : CommitOutcome)
    (h : ∀ lock ∈ locks, stage.holds lock = some .exclusive) :
    stage.Shrinks (unwinding locks outcome) := by
  intro lock
  by_cases hmem : lock ∈ locks
  · refine .inr ?_
    rw [h lock hmem]
    simp [holds, exclusively, hmem]
  · exact .inl (by simp [holds, hmem])

variable [DecidableEq ι] {s : SettingsServer ι} {p : ι} {stage' : SettingsStage}
  {lock : SettingsLock}

theorem SettingsServer.held_set (lock : SettingsLock) :
    (s.set p stage').held lock = update (s.held lock) p (stage'.holds lock) := by
  funext q
  by_cases hq : q = p
  · subst hq
    simp [SettingsServer.held, SettingsServer.set]
  · simp [SettingsServer.held, SettingsServer.set, update_of_ne hq]

theorem SettingsServer.exclusion_set (h : LockMode.Exclusion (s.held lock))
    (hshrinks : (s.stage p).Shrinks stage') : LockMode.Exclusion ((s.set p stage').held lock) := by
  rw [SettingsServer.held_set]
  rcases hshrinks lock with hnone | hsame
  · rw [hnone]
    exact h.release p
  · have hkeep : update (s.held lock) p (stage'.holds lock) = s.held lock := by
      rw [hsame]
      exact update_eq_self p (s.held lock)
    rw [hkeep]
    exact h

end Locks

section Invariant

variable {ι : Type} {lib : SettingsLibraries} {startup : SettingsStartup lib}

/-- The rows of the settings table are the pairs of these settings. -/
def SettingsTables.Stores (tables : SettingsTables) (settings : RuntimeSettings) : Prop :=
  ∀ row, row ∈ tables.settings ↔ row ∈ settings.pairs

/-- What `public_url_changed` has led to: a service for the new URL, or the same URL. -/
def SettingsCommit.Replaces (lib : SettingsLibraries) (committed : CommittedSettings)
    (call : SettingsCommit) : Option WebAuthnService → Prop
  | none => committed.settings.publicBaseUrl = call.next.publicBaseUrl
  | some service => service.BelongsTo lib.urls call.next.publicBaseUrl

/-- Dropping the publication brings the committed snapshots back, and whatever differs from
them is locked. -/
structure RuntimeSettingsPublication.Covers (publication : RuntimeSettingsPublication)
    (memory committed : RuntimeSnapshots) (locks : List SettingsLock) : Prop where
  mutation : .mutation ∈ locks
  runtime : .runtime ∈ locks
  webauthn : .webauthn ∈ locks ∨ memory.webauthn = committed.webauthn
  restored : publication.drop memory = committed

/-- What a stage of a commit knows about the snapshots and the committed settings. -/
def SettingsStage.Fits (lib : SettingsLibraries) (memory : RuntimeSnapshots)
    (committed : CommittedSettings) : SettingsStage → Prop
  | counting call service => service.BelongsTo lib.urls call.next.publicBaseUrl
  | dispatching call replacement | lockingRuntime call replacement
  | lockingWebauthn call replacement | beginning call replacement | fenced call replacement
  | replacing call replacement => call.Replaces lib committed replacement
  | publishing call replacement tables =>
    call.Replaces lib committed replacement ∧ tables.Stores call.next
  | auditing call replacement publication tables
  | committing call replacement publication tables =>
    call.Replaces lib committed replacement ∧ tables.Stores call.next ∧
      memory = ⟨call.next, replacement.getD committed.webauthn⟩ ∧
      publication.Covers memory committed.snapshots (guards replacement ++ [.writer, .mutation])
  | restoring publication locks _ => publication.Covers memory committed.snapshots locks
  | accepting _ _ => memory = committed.snapshots
  | _ => True

/-- Only a commit that has the mutation lock relies on the snapshots staying as they are. -/
theorem SettingsStage.Fits.of_unheld {memory memory' : RuntimeSnapshots}
    {committed committed' : CommittedSettings} (h : stage.Fits lib memory committed)
    (hfree : stage.holds .mutation = none) : stage.Fits lib memory' committed' := by
  cases stage with
  | restoring =>
    exact absurd h.mutation (by simpa [holds] using hfree)
  | counting | dispatching | lockingRuntime | lockingWebauthn | beginning | fenced | replacing
  | publishing | auditing | committing | accepting => simp [holds, exclusively] at hfree
  | _ => trivial

/-- A commit with unfinished publication holds the lock of every snapshot that differs. -/
theorem SettingsStage.Fits.dirty {memory : RuntimeSnapshots} {committed : CommittedSettings}
    (h : stage.Fits lib memory committed) (hdirty : stage.dirty = true) :
    stage.holds .mutation = some .exclusive ∧ stage.holds .runtime = some .exclusive ∧
      (stage.holds .webauthn = some .exclusive ∨ memory.webauthn = committed.webauthn) := by
  have hcov : ∀ {publication : RuntimeSettingsPublication} {locks : List SettingsLock},
      publication.Covers memory committed.snapshots locks →
      exclusively locks .mutation = some .exclusive ∧
      exclusively locks .runtime = some .exclusive ∧
      (exclusively locks .webauthn = some .exclusive ∨
        memory.webauthn = committed.webauthn) := by
    intro publication locks hcover
    refine ⟨by simp [exclusively, hcover.mutation], by simp [exclusively, hcover.runtime], ?_⟩
    exact hcover.webauthn.imp (fun hmem => by simp [exclusively, hmem]) id
  cases stage with
  | auditing => exact hcov h.2.2.2
  | committing => exact hcov h.2.2.2
  | restoring => exact hcov h
  | _ => cases hdirty

structure SettingsInv (startup : SettingsStartup lib) (s : SettingsServer ι) : Prop where
  exclusion : ∀ lock, LockMode.Exclusion (s.held lock)
  belongs : s.committed.webauthn.BelongsTo lib.urls s.committed.settings.publicBaseUrl
  stored : s.committed.tables.settings = startup.committed.tables.settings ∧
    s.committed.settings = startup.committed.settings ∨
    s.committed.tables.Stores s.committed.settings
  fits : ∀ p, (s.stage p).Fits lib s.memory s.committed
  clean : (∀ p, (s.stage p).dirty = false) → s.memory = s.committed.snapshots

namespace SettingsInv

variable {s : SettingsServer ι} {p : ι} {stage stage' : SettingsStage}

theorem server (startup : SettingsStartup lib) (ι : Type) :
    SettingsInv startup (startup.server ι) where
  exclusion _ p hp := by cases hp
  belongs := startup.belongs
  stored := .inl ⟨rfl, rfl⟩
  fits _ := trivial
  clean _ := rfl

/-- While one party reads, nobody has the lock for writing. -/
theorem not_exclusive_of_shared (h : SettingsInv startup s) {q : ι}
    (hp : (s.stage p).holds lock = some .shared) : (s.stage q).holds lock ≠ some .exclusive := by
  intro hq
  by_cases hpq : p = q
  · rw [hpq, hq] at hp
    cases hp
  · have hnone := h.exclusion lock q hq p hpq
    rw [SettingsServer.held, hp] at hnone
    cases hnone

/-- Nobody else is anywhere in a commit while `p` has the mutation lock. -/
theorem alone (h : SettingsInv startup s) (hp : s.held .mutation p = some .exclusive) {q : ι}
    (hq : q ≠ p) : (s.stage q).holds .mutation = none := h.exclusion .mutation p hp q hq

theorem not_dirty_of_ne (h : SettingsInv startup s) (hp : s.held .mutation p = some .exclusive)
    {q : ι} (hq : q ≠ p) : (s.stage q).dirty = false := by
  cases hdirty : (s.stage q).dirty with
  | false => rfl
  | true =>
    have hheld := ((h.fits q).dirty hdirty).1
    rw [h.alone hp hq] at hheld
    cases hheld

/-- A commit with the mutation lock finds the committed snapshots unless it has changed them
itself. -/
theorem memory_eq (h : SettingsInv startup s) (hp : s.held .mutation p = some .exclusive)
    (hclean : (s.stage p).dirty = false) : s.memory = s.committed.snapshots := by
  refine h.clean fun q => ?_
  by_cases hq : q = p
  · rw [hq, hclean]
  · exact h.not_dirty_of_ne hp hq

variable [DecidableEq ι]

/-- A party goes on without touching the snapshots. -/
theorem set (h : SettingsInv startup s) (hshrinks : (s.stage p).Shrinks stage')
    (hfits : stage'.Fits lib s.memory s.committed)
    (hclean : stage'.dirty = false → (s.stage p).dirty = false) :
    SettingsInv startup (s.set p stage') where
  exclusion lock := SettingsServer.exclusion_set (h.exclusion lock) hshrinks
  belongs := h.belongs
  stored := h.stored
  fits q := by
    by_cases hq : q = p
    · subst hq
      simpa [SettingsServer.set] using hfits
    · simpa [SettingsServer.set, update_of_ne hq] using h.fits q
  clean hall := by
    refine h.clean fun q => ?_
    have hq := hall q
    by_cases hqp : q = p
    · subst hqp
      exact hclean (by simpa [SettingsServer.set] using hq)
    · simpa [SettingsServer.set, update_of_ne hqp] using hq

/-- A party goes on with the locks it has. -/
theorem keep (h : SettingsInv startup s) (hstage : s.stage p = stage)
    (hfits : stage'.Fits lib s.memory s.committed)
    (hclean : stage'.dirty = false → stage.dirty = false)
    (hholds : ∀ lock, stage'.holds lock = stage.holds lock) :
    SettingsInv startup (s.set p stage') := by
  subst hstage
  exact h.set (fun lock => .inr (hholds lock)) hfits hclean

/-- A commit with the mutation lock changes the snapshots or commits. -/
theorem advance (h : SettingsInv startup s) (hp : s.held .mutation p = some .exclusive)
    (hshrinks : (s.stage p).Shrinks stage') (memory : RuntimeSnapshots) (services : ℕ)
    (committed : CommittedSettings)
    (hbelongs : committed.webauthn.BelongsTo lib.urls committed.settings.publicBaseUrl)
    (hstored : committed.tables.settings = startup.committed.tables.settings ∧
      committed.settings = startup.committed.settings ∨
      committed.tables.Stores committed.settings)
    (hfits : stage'.Fits lib memory committed)
    (hclean : stage'.dirty = false → memory = committed.snapshots) :
    SettingsInv startup { s.set p stage' with memory, services, committed } where
  exclusion lock := SettingsServer.exclusion_set (h.exclusion lock) hshrinks
  belongs := hbelongs
  stored := hstored
  fits q := by
    by_cases hq : q = p
    · subst hq
      simpa [SettingsServer.set] using hfits
    · simpa [SettingsServer.set, update_of_ne hq] using
        (h.fits q).of_unheld (h.alone hp hq)
  clean hall := hclean (by simpa [SettingsServer.set] using hall p)

section Work

variable (config : ServerConfig) {call : SettingsCommit} {replacement : Option WebAuthnService}
  {publication : RuntimeSettingsPublication} {tables : SettingsTables}

variable (h : SettingsInv startup s)

include h

/-- Giving up takes the locks that are still held, in any order. -/
theorem unwind (locks : List SettingsLock) (outcome : CommitOutcome)
    (hlocks : ∀ lock ∈ locks, (s.stage p).holds lock = some .exclusive)
    (hclean : (s.stage p).dirty = false) :
    SettingsInv startup (s.set p (unwinding locks outcome)) :=
  h.set (shrinks_unwinding outcome hlocks) trivial fun _ => hclean

theorem decideReplacement (hstage : s.stage p = deciding call) :
    SettingsInv startup (s.decideReplacement lib p call) := by
  have hmut : s.held .mutation p = some .exclusive := by
    rw [SettingsServer.held, hstage]
    rfl
  have hmemo := h.memory_eq hmut (by rw [hstage]; rfl)
  have hshrinks : ∀ {stage' : SettingsStage}, (∀ lock, stage'.holds lock =
      exclusively [.mutation] lock) → (s.stage p).Shrinks stage' := by
    intro stage' hholds lock
    rw [hstage, hholds]
    cases lock <;> simp [holds, exclusively]
  rw [SettingsServer.decideReplacement]
  split_ifs with hurl
  · split
    · exact h.set (hshrinks fun _ => rfl) trivial fun _ => by rw [hstage]; rfl
    · rename_i service hservice
      exact h.advance hmut (hshrinks fun _ => rfl) s.memory (s.services + 1) s.committed
        h.belongs h.stored (WebAuthnService.belongsTo_of_fromPublicBaseUrl hservice)
        fun _ => hmemo
  · refine h.set (hshrinks fun _ => rfl) ?_ fun _ => by rw [hstage]; rfl
    have hsame := not_not.mp hurl
    rwa [hmemo] at hsame

theorem fence (hstage : s.stage p = fenced call replacement) (result : StatementResult)
    (times : SessionTimes) : SettingsInv startup (s.fence lib p call replacement result times) := by
  have hlocks : ∀ lock ∈ SettingsLock.writer :: guards replacement ++ [.mutation],
      (s.stage p).holds lock = some .exclusive := by
    intro lock hlock
    rw [hstage]
    cases replacement <;> cases lock <;> simp_all [holds, exclusively, guards]
  have hclean : (s.stage p).dirty = false := by rw [hstage]; rfl
  have hfits := h.fits p
  rw [hstage] at hfits
  rw [SettingsServer.fence]
  split_ifs
  · exact h.unwind _ _ hlocks hclean
  · exact h.unwind _ _ hlocks hclean
  · exact h.unwind _ _ hlocks hclean
  · exact h.keep hstage hfits (fun _ => rfl) fun _ => rfl

/-- At `COMMIT` the snapshots already hold what is committed. -/
theorem commitTransaction (hstage : s.stage p = committing call replacement publication tables)
    (result : StatementResult) :
    SettingsInv startup
      (s.commitTransaction p call replacement publication tables result) := by
  have hfits := h.fits p
  rw [hstage] at hfits
  obtain ⟨hreplaces, hstores, hmemo, hcov⟩ := hfits
  have hmut : s.held .mutation p = some .exclusive := by
    rw [SettingsServer.held, hstage]
    simp [holds, exclusively]
  have hshrinks : ∀ {stage' : SettingsStage} (locks : List SettingsLock),
      (∀ lock, stage'.holds lock = exclusively locks lock) →
      (∀ lock ∈ locks, lock ∈ guards replacement ++ [.writer, .mutation]) →
      (s.stage p).Shrinks stage' := by
    intro stage' locks hholds hsub lock
    rw [hstage, hholds]
    by_cases hmem : lock ∈ locks
    · exact .inr (by simp only [holds, exclusively, hmem, hsub lock hmem])
    · exact .inl (by simpa using hmem)
  have hsub : ∀ lock ∈ guards replacement ++ [.mutation],
      lock ∈ guards replacement ++ [.writer, .mutation] := by
    intro lock hlock
    simp only [List.mem_append, List.mem_cons, List.not_mem_nil, or_false] at hlock ⊢
    tauto
  cases result with
  | succeeds =>
    refine h.advance hmut (hshrinks _ (fun _ => rfl) hsub) s.memory s.services _ ?_
      (.inr hstores) hmemo fun _ => hmemo
    cases replacement with
    | none =>
      have hbelongs := h.belongs
      rw [hreplaces] at hbelongs
      exact hbelongs
    | some => exact hreplaces
  | fails =>
    refine h.set (hshrinks _ (fun _ => rfl) fun _ hlock => hlock) hcov fun hdirty => ?_
    cases hdirty
  | rollsBack =>
    refine h.set (hshrinks _ (fun _ => rfl) hsub) ⟨by simp, ?_, ?_, hcov.restored⟩
      fun hdirty => ?_
    · simpa using hcov.runtime
    · simpa using hcov.webauthn
    · cases hdirty

/-- The publication can be undone, and it has the lock of what it changes. -/
theorem publish (hstage : s.stage p = publishing call replacement tables) :
    let published := RuntimeSettingsPublication.publish s.memory call.next replacement
    SettingsInv startup
      { s.set p (auditing call replacement published.2 tables) with memory := published.1 } := by
  have hfits := h.fits p
  rw [hstage] at hfits
  have hmut : s.held .mutation p = some .exclusive := by
    rw [SettingsServer.held, hstage]
    simp [holds, exclusively]
  have hmemo := h.memory_eq hmut (by rw [hstage]; rfl)
  refine h.advance hmut (fun lock => .inr (by rw [hstage]; rfl)) _ s.services s.committed
    h.belongs h.stored ⟨hfits.1, hfits.2, ?_, ?_⟩ fun hdirty => ?_
  · rw [hmemo]
    rfl
  · refine ⟨by simp, by cases replacement <;> simp [guards], ?_, ?_⟩
    · cases replacement with
      | none => exact .inr (by rw [← hmemo]; rfl)
      | some => exact .inl (by simp [guards])
    · rw [← hmemo]
      cases replacement <;> rfl
  · cases hdirty

theorem work (result : StatementResult) (times : SessionTimes) :
    SettingsInv startup (s.work config lib p result times) := by
  have hfits := h.fits p
  rw [SettingsServer.work]
  cases hstage : s.stage p with
  | readsRuntime | readsWebauthn =>
    exact h.set (fun _ => .inl rfl) trivial fun _ => by rw [hstage]; rfl
  | validating =>
    dsimp only
    split
    · exact h.keep hstage trivial (fun _ => rfl) fun _ => rfl
    · exact h.keep hstage trivial (fun _ => rfl) fun _ => rfl
  | deciding => exact h.decideReplacement hstage
  | counting =>
    rw [hstage] at hfits
    dsimp only
    split_ifs
    · exact h.keep hstage trivial (fun _ => rfl) fun _ => rfl
    · exact h.keep hstage trivial (fun _ => rfl) fun _ => rfl
    · exact h.keep hstage hfits (fun _ => rfl) fun _ => rfl
  | dispatching =>
    rw [hstage] at hfits
    dsimp only
    split_ifs
    · exact h.keep hstage trivial (fun _ => rfl) fun _ => rfl
    · exact h.keep hstage hfits (fun _ => rfl) fun _ => rfl
  | beginning =>
    dsimp only
    split_ifs
    · exact h.keep hstage trivial (fun _ => rfl) fun _ => rfl
    · exact h
  | fenced => exact h.fence hstage result times
  | replacing call replacement =>
    rw [hstage] at hfits
    dsimp only
    split
    · exact h.keep hstage trivial (fun _ => rfl) fun _ => rfl
    · rename_i tables htables
      split_ifs at htables
      obtain ⟨settings, hsettings, rfl⟩ := Option.map_eq_some_iff.mp htables
      refine h.keep hstage ⟨hfits, fun row => ?_⟩ (fun _ => rfl) fun _ => rfl
      rw [KeyedTable.mem_insertAll? hsettings]
      simp
  | publishing => exact h.publish hstage
  | auditing call replacement publication tables =>
    rw [hstage] at hfits
    obtain ⟨hreplaces, hstores, hmemo, hcov⟩ := hfits
    dsimp only
    split
    · exact h.keep hstage hcov nofun fun _ => rfl
    · rename_i audited haud
      split_ifs at haud
      rw [SettingsTables.insertAuditEvent] at haud
      split at haud <;> cases haud
      exact h.keep hstage ⟨hreplaces, hstores, hmemo, hcov⟩ nofun fun _ => rfl
  | committing => exact h.commitTransaction hstage result
  | restoring =>
    rw [hstage] at hfits
    have hmut : s.held .mutation p = some .exclusive := by
      rw [SettingsServer.held, hstage]
      simp [holds, exclusively, hfits.mutation]
    exact h.advance hmut (fun _ => .inr (by rw [hstage]; rfl)) _ s.services s.committed
      h.belongs h.stored trivial fun _ => hfits.restored
  | accepting =>
    rw [hstage] at hfits
    have hmut : s.held .mutation p = some .exclusive := by
      rw [SettingsServer.held, hstage]
      simp [holds, exclusively]
    exact h.advance hmut (fun _ => .inr (by rw [hstage]; rfl)) _ s.services s.committed
      h.belongs h.stored trivial fun _ => hfits
  | unwinding locks outcome =>
    cases locks with
    | nil => exact h.set (fun _ => .inl rfl) trivial fun _ => by rw [hstage]; rfl
    | cons first locks =>
      refine h.unwind locks outcome (fun lock hlock => ?_) (by rw [hstage]; rfl)
      rw [hstage]
      simp [holds, exclusively, hlock]
  | _ => exact h

end Work

theorem grant (h : SettingsInv startup s) {mode : LockMode}
    (hreq : (s.stage p).request = some (lock, mode, stage'))
    (hgr : mode.Grantable (s.held lock) p) : SettingsInv startup (s.set p stage') where
  exclusion other := by
    rw [SettingsServer.held_set, holds_of_request hreq]
    by_cases hoth : other = lock
    · subst hoth
      rw [if_pos rfl]
      exact (h.exclusion other).grant hgr
    · rw [if_neg hoth]
      have hkeep : update (s.held other) p ((s.stage p).holds other) = s.held other :=
        update_eq_self p (s.held other)
      rw [hkeep]
      exact h.exclusion other
  belongs := h.belongs
  stored := h.stored
  fits q := by
    by_cases hq : q = p
    · subst hq
      have hfits := h.fits q
      simp only [SettingsServer.set, update_self]
      revert hreq hfits
      cases s.stage q with
      | lockingRuntime call replacement =>
        rintro ⟨⟩ hfits
        cases replacement <;> exact hfits
      | lockingWebauthn call replacement =>
        cases replacement <;> rintro ⟨⟩ hfits
        exact hfits
      | beginning =>
        rintro ⟨⟩ hfits
        exact hfits
      | _ => rintro ⟨⟩ hfits <;> trivial
    · simpa [SettingsServer.set, update_of_ne hq] using h.fits q
  clean hall := by
    refine h.clean fun q => ?_
    by_cases hq : q = p
    · subst hq
      revert hreq
      cases s.stage q <;> first | exact fun _ => rfl | exact nofun
    · simpa [SettingsServer.set, update_of_ne hq] using hall q

variable [Fintype ι] (config : ServerConfig)

theorem next (h : SettingsInv startup s) (event : SettingsEvent ι) :
    SettingsInv startup (s.next config lib event) := by
  have hidle : ∀ {p : ι} {stage' : SettingsStage}, (s.stage p).running = false →
      (∀ lock, stage'.holds lock = none) → stage'.Fits lib s.memory s.committed →
      SettingsInv startup (s.set p stage') := by
    intro p stage' hrun hnone hfits
    refine h.set (fun lock => .inl (hnone lock)) hfits fun _ => ?_
    revert hrun
    cases s.stage p <;> first | exact fun _ => rfl | exact nofun
  cases event with rw [SettingsServer.next]
  | readRuntime p | readWebauthn p | commit p call =>
    split_ifs with hrun
    · exact h
    · exact hidle (by simpa using hrun) (fun _ => rfl) trivial
  | grant =>
    split
    · split_ifs with hgr
      · exact h.grant (by assumption) hgr
      · exact h
    · exact h
  | work p result times =>
    exact h.work config result times
  | cancel p =>
    have hfits := h.fits p
    cases hstage : s.stage p with
    | waiting => exact h.set (fun _ => .inl rfl) trivial fun _ => by rw [hstage]; rfl
    | counting | dispatching =>
      exact h.keep hstage trivial (fun _ => rfl) fun _ => rfl
    | _ =>
      rw [hstage] at hfits
      exact h.keep hstage hfits id fun _ => rfl
  | transact =>
    split_ifs
    · refine ⟨h.exclusion, h.belongs, h.stored, fun p => ?_, h.clean⟩
      have hfits := h.fits p
      revert hfits
      cases s.stage p <;> exact id
    · exact h

end SettingsInv

end Invariant

section Failures

variable {ι : Type} [DecidableEq ι] {lib : SettingsLibraries} {config : ServerConfig}
  {s : SettingsServer ι} {p : ι}

/-- No commit of the party is still to come: it has committed, or it is not committing. -/
def SettingsStage.past : SettingsStage → Bool
  | idle | wantsRuntime | readsRuntime | gotRuntime _ | wantsWebauthn | readsWebauthn
  | gotWebauthn _ | accepting _ _ | unwinding _ .authorized | finished .authorized => true
  | _ => false

/-- A step changes the stage of its party only. Only a successful `COMMIT` changes what is
committed, and the commit then succeeds. -/
theorem SettingsServer.work_cases (config : ServerConfig) (lib : SettingsLibraries)
    (s : SettingsServer ι) (p : ι) (result : StatementResult) (times : SessionTimes) :
    ∃ stage', (s.work config lib p result times).stage = update s.stage p stage' ∧
      ((s.work config lib p result times).committed = s.committed ∨ stage'.past = true) := by
  have hstays : s.stage = update s.stage p (s.stage p) :=
    (update_eq_self p s.stage).symm
  rw [SettingsServer.work]
  cases hstage : s.stage p with
  | validating | dispatching | replacing => dsimp only; split <;> exact ⟨_, rfl, .inl rfl⟩
  | deciding =>
    dsimp only [SettingsServer.decideReplacement]
    split
    · split <;> exact ⟨_, rfl, .inl rfl⟩
    · exact ⟨_, rfl, .inl rfl⟩
  | counting =>
    dsimp only
    split
    · exact ⟨_, rfl, .inl rfl⟩
    · split <;> exact ⟨_, rfl, .inl rfl⟩
  | beginning =>
    dsimp only
    split
    · exact ⟨_, rfl, .inl rfl⟩
    · exact ⟨_, hstays, .inl rfl⟩
  | fenced =>
    dsimp only [SettingsServer.fence]
    split_ifs <;> exact ⟨_, rfl, .inl rfl⟩
  | auditing =>
    dsimp only
    split <;> exact ⟨_, rfl, .inl rfl⟩
  | committing =>
    cases result with
    | succeeds => exact ⟨_, rfl, .inr rfl⟩
    | fails => exact ⟨_, rfl, .inl rfl⟩
    | rollsBack => exact ⟨_, rfl, .inl rfl⟩
  | unwinding locks => cases locks <;> exact ⟨_, rfl, .inl rfl⟩
  | readsRuntime | readsWebauthn | publishing | restoring | accepting =>
    exact ⟨_, rfl, .inl rfl⟩
  | _ => exact ⟨_, hstays, .inl rfl⟩

theorem SettingsStage.past_of_request {stage' : SettingsStage} {mode : LockMode}
    (h : stage.past = true) (hreq : stage.request = some (lock, mode, stage')) :
    stage'.past = true := by
  cases stage with
  | wantsRuntime | wantsWebauthn =>
    cases hreq
    rfl
  | waiting | comparing | lockingRuntime | lockingWebauthn | beginning => cases h
  | _ => cases hreq

theorem SettingsServer.past_work (h : (s.stage p).past = true) (result : StatementResult)
    (times : SessionTimes) : ((s.work config lib p result times).stage p).past = true := by
  rw [SettingsServer.work]
  cases hstage : s.stage p with
  | readsRuntime | readsWebauthn | accepting => simp [SettingsServer.set, past]
  | unwinding locks outcome =>
    rw [hstage] at h
    cases outcome with
    | authorized => cases locks <;> simp [SettingsServer.set, past]
    | _ => cases h
  | idle | wantsRuntime | gotRuntime | wantsWebauthn | gotWebauthn | finished =>
    rw [hstage] at h
    simpa [hstage] using h
  | _ =>
    rw [hstage] at h
    cases h

variable [Fintype ι]

/-- Without a new call, a party has no more to commit once it has committed. -/
theorem SettingsServer.past_next (h : (s.stage p).past = true) {event : SettingsEvent ι}
    (hnew : ∀ call, event ≠ .commit p call) :
    ((s.next config lib event).stage p).past = true := by
  have hoth : ∀ {q : ι} {stage' : SettingsStage}, (q = p → stage'.past = true) →
      ((s.set q stage').stage p).past = true := by
    intro q stage' hstage'
    by_cases hq : q = p
    · subst hq
      simpa [SettingsServer.set] using hstage' rfl
    · simpa [SettingsServer.set, update_of_ne (Ne.symm hq)] using h
  cases event with rw [SettingsServer.next]
  | readRuntime q | readWebauthn q =>
    split
    · exact h
    · exact hoth fun _ => rfl
  | commit q call =>
    split
    · exact h
    · exact hoth fun hq => absurd (by rw [hq]) (hnew call)
  | grant q =>
    split
    · rename_i hreq
      split
      · refine hoth fun hq => ?_
        subst hq
        exact SettingsStage.past_of_request h hreq
      · exact h
    · exact h
  | work q result times =>
    by_cases hq : q = p
    · subst hq
      exact SettingsServer.past_work h result times
    · obtain ⟨stage', hstage', -⟩ := s.work_cases config lib q result times
      rw [hstage', update_of_ne (Ne.symm hq)]
      exact h
  | cancel q =>
    refine hoth fun hq => ?_
    subst hq
    revert h
    cases s.stage q <;> exact id
  | transact =>
    split <;> exact h

/-- A step of a party that has still to commit leaves what is committed alone. -/
theorem SettingsServer.committed_next {event : SettingsEvent ι} (hparty : event.party = some p)
    (haft : ((s.next config lib event).stage p).past = false) :
    (s.next config lib event).committed = s.committed := by
  cases event with
  | readRuntime q | readWebauthn q | commit q call =>
    rw [SettingsServer.next]
    split <;> rfl
  | grant =>
    rw [SettingsServer.next]
    split
    · split <;> rfl
    · rfl
  | work q result times =>
    cases hparty
    obtain ⟨stage', hstage', hcommitted⟩ := s.work_cases config lib p result times
    rw [SettingsServer.next, hstage', update_self] at haft
    exact hcommitted.resolve_right (by simp [haft])
  | cancel => rfl
  | transact => cases hparty

/-- Until a call of `p` ends without a commit, no step of `p` changes what is committed. -/
theorem SettingsServer.throughout_uncommitted (during : List (SettingsEvent ι))
    (hnew : ∀ call, .commit p call ∉ during)
    (hend : ((state (SettingsServer.next config lib) s during).stage p).past = false) :
    History.Throughout (SettingsServer.next config lib) (fun s event => event.party = some p →
      (s.next config lib event).committed = s.committed) s during := by
  -- Once it has nothing more to commit it stays so, hence it still has at every step.
  have hpast : ∀ (events : List (SettingsEvent ι)) (s : SettingsServer ι),
      (∀ call, .commit p call ∉ events) → (s.stage p).past = true →
      ((state (SettingsServer.next config lib) s events).stage p).past = true := by
    intro events
    induction events with
    | nil => exact fun _ _ h => h
    | cons event events ih =>
      intro s hnew h
      refine ih _ (fun call hmem => hnew call (List.mem_cons_of_mem _ hmem)) ?_
      exact SettingsServer.past_next h fun call heq => hnew call (by simp [heq])
  induction during generalizing s with
  | nil => trivial
  | cons event during ih =>
    have hrest : ∀ call, .commit p call ∉ during :=
      fun call hmem => hnew call (List.mem_cons_of_mem _ hmem)
    refine ⟨fun hparty => SettingsServer.committed_next hparty ?_, ih hrest hend⟩
    by_contra haft
    have hlat := hpast during _ hrest (by simpa using haft)
    rw [state_cons] at hend
    rw [hend] at hlat
    cases hlat

end Failures

section Main

variable {ι : Type} [DecidableEq ι] [Fintype ι] {lib : SettingsLibraries}

/-- In every state that commits, readers, cancellations, failures and other transactions lead
to: a reader obtains the settings and the WebAuthn service of the last settings transaction
that was committed, and the service belongs to the public base URL of these settings, whose
pairs are the rows of the table (or it is what was loaded at the start); and no step of a
commit that ends unauthorized or with a failure changes the tables, the committed settings or
the committed service. -/
theorem readers_obtain_committed_settings (config : ServerConfig)
    (startup : SettingsStartup lib) (history : List (SettingsEvent ι)) :
    let next := SettingsServer.next config lib
    let s := state next (startup.server ι) history
    (∀ p result times, s.stage p = .readsRuntime →
      (next s (.work p result times)).stage p = .gotRuntime s.committed.settings) ∧
    (∀ p result times, s.stage p = .readsWebauthn →
      (next s (.work p result times)).stage p = .gotWebauthn s.committed.webauthn) ∧
    s.committed.webauthn.BelongsTo lib.urls s.committed.settings.publicBaseUrl ∧
    (s.committed.tables.settings = startup.committed.tables.settings ∧
        s.committed.settings = startup.committed.settings ∨
      ∀ row, row ∈ s.committed.tables.settings ↔ row ∈ s.committed.settings.pairs) ∧
    ∀ earlier p call during outcome, history = earlier ++ .commit p call :: during →
      (∀ call', .commit p call' ∉ during) →
      s.stage p = .finished outcome → outcome ≠ .authorized →
      History.Throughout next (fun s event => event.party = some p →
          (next s event).committed = s.committed)
        (state next (startup.server ι) (earlier ++ [.commit p call])) during := by
  intro next s
  have h : SettingsInv startup s :=
    state_invariant (fun _ event h => h.next config event) (.server startup ι) history
  refine ⟨fun p result times hp => ?_, fun p result times hp => ?_, h.belongs, h.stored,
    fun earlier p call during outcome hsplit hnew hfinished hout => ?_⟩
  · have hmemo : s.memory.runtime = s.committed.settings := by
      refine congrArg RuntimeSnapshots.runtime (h.clean fun q => ?_)
      cases hdirty : (s.stage q).dirty with
      | false => rfl
      | true =>
        exact absurd ((h.fits q).dirty hdirty).2.1 (h.not_exclusive_of_shared (by rw [hp]; rfl))
    simp [next, SettingsServer.next, SettingsServer.work, hp, SettingsServer.set, hmemo]
  · have hmemo : s.memory.webauthn = s.committed.webauthn := by
      by_cases hclean : ∀ q, (s.stage q).dirty = false
      · exact congrArg RuntimeSnapshots.webauthn (h.clean hclean)
      · obtain ⟨q, hq⟩ := not_forall.mp hclean
        refine ((h.fits q).dirty (by simpa using hq)).2.2.resolve_left ?_
        exact h.not_exclusive_of_shared (by rw [hp]; rfl)
    simp [next, SettingsServer.next, SettingsServer.work, hp, SettingsServer.set, hmemo]
  · refine SettingsServer.throughout_uncommitted during hnew ?_
    have hend : state next (state next (startup.server ι)
        (earlier ++ [.commit p call])) during = s := by
      rw [← state_append, List.append_assoc, List.singleton_append, ← hsplit]
    rw [hend, hfinished]
    cases outcome <;> first | rfl | exact absurd rfl hout

/-- A library that takes every text for an HTTP URL with itself as host. -/
def plainLibraries : SettingsLibraries where
  urls := ⟨fun text => some ⟨"http", "", none, some text, "/", none, none, text⟩, some⟩
  isIpAddr _ := true

def settingsAt (publicBaseUrl : String) : RuntimeSettings :=
  ⟨publicBaseUrl, 10, [], 8, 64, 30, 0, 0, 1, 1, 1, ["txt"], [], false, 1, false⟩

def oneSession : AuthStore where
  admins := ⟨[⟨1, "root", "hash", "", 1, true, true⟩], by decide⟩
  sessions := ⟨[⟨"token", 1, "csrf", true, 100, 50⟩], by decide⟩
  enrollments := ∅
  credentials := ∅
  replay := ∅

def plainStartup : SettingsStartup plainLibraries where
  committed := ⟨⟨∅, [], oneSession⟩, settingsAt "http://old", ⟨"http://old", "http://old", 0⟩⟩
  belongs := rfl

/-- A commit changes the URL, its audit row fails while another party waits for the settings,
and the other party reads them in the end. -/
def failedAuditRun : List (SettingsEvent Bool) :=
  let work := SettingsEvent.work true .succeeds ⟨60, 0, 0⟩
  [.commit true ⟨⟨"token", 1⟩, settingsAt "http://new", "root", "changed_keys", none⟩,
    .grant true, work, .grant true, work, work, work, .grant true, .grant true, .grant true,
    work, work, work, .readRuntime false, .grant false,
    .work true .fails ⟨60, 0, 0⟩, work, work, .grant false]

def failedAuditState : SettingsServer Bool :=
  state (SettingsServer.next ⟨.development, "http://old", false, .files⟩ plainLibraries)
    (plainStartup.server Bool) failedAuditRun

theorem failedAuditState_stage : failedAuditState.stage false = .readsRuntime ∧
    failedAuditState.committed.settings = settingsAt "http://old" := by decide +kernel

theorem readers_obtain_committed_settings_failedAudit :
    (failedAuditState.next ⟨.development, "http://old", false, .files⟩ plainLibraries
      (.work false .succeeds ⟨60, 0, 0⟩)).stage false = .gotRuntime (settingsAt "http://old") := by
  obtain ⟨hruntime, -⟩ := readers_obtain_committed_settings
    ⟨.development, "http://old", false, .files⟩ plainStartup failedAuditRun
  have hobtained := hruntime false .succeeds ⟨60, 0, 0⟩ failedAuditState_stage.1
  rw [← failedAuditState_stage.2]
  exact hobtained

end Main

end VaultLink
