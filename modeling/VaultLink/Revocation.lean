import VaultLink.AuthServer

/-!
# Revocation of administrator sessions

A transaction that replaces a credential of an administrator deletes every session and
enrollment of that administrator, so a stored session is younger than each revocation of
its administrator and still backed by the password hash its login verified. The fence
looks the session up in the transaction that runs the closure, which carries this over to
every closure that runs.
-/
namespace VaultLink

open KeyedTable

section AccountSteps

/-- `s'` keeps the accounts of `s` and adds no session or enrollment; the credentials of the
administrator `except` may have changed. -/
structure Narrows (s s' : AuthStore) (except : Option ℕ) : Prop where
  sessions : ∀ x ∈ s'.sessions, ∃ y ∈ s.sessions,
    y.tokenHash = x.tokenHash ∧ y.adminId = x.adminId
  enrollments : ∀ e ∈ s'.enrollments, e ∈ s.enrollments
  admins : ∀ a ∈ s.admins, ∃ a' ∈ s'.admins, a'.id = a.id ∧ a'.username = a.username ∧
    (except ≠ some a.id → a'.passwordHash = a.passwordHash ∧ a'.totpSecret = a.totpSecret ∧
      (a.active → a'.active))

/-- What the transactions on accounts do: they revoke whom they report as revoked, start the
enrollment they report under the drawn token, and leave every other account as it was. -/
structure AccountStep (s : AuthStore) (tokenHash : String) (effect : AccountEffect) : Prop where
  sessions : ∀ x ∈ effect.store.sessions, effect.revoked ≠ some x.adminId ∧
    ∃ y ∈ s.sessions, y.tokenHash = x.tokenHash ∧ y.adminId = x.adminId
  enrollments : ∀ e ∈ effect.store.enrollments,
    effect.revoked ≠ some e.adminId ∧ (e ∈ s.enrollments ∨ effect.started = some e)
  started : ∀ e, effect.started = some e → e.tokenHash = tokenHash
  admins : ∀ a ∈ s.admins, ∃ a' ∈ effect.store.admins, a'.id = a.id ∧
    a'.username = a.username ∧ (effect.revoked ≠ some a.id →
      a'.passwordHash = a.passwordHash ∧ a'.totpSecret = a.totpSecret ∧ (a.active → a'.active))

variable {s s₁ s₂ : AuthStore} {target : ℕ} {except : Option ℕ} {tokenHash : String}

theorem Narrows.of_tables (hadms : s₁.admins = s.admins)
    (hses : ∀ x ∈ s₁.sessions, ∃ y ∈ s.sessions,
      y.tokenHash = x.tokenHash ∧ y.adminId = x.adminId)
    (henr : ∀ e ∈ s₁.enrollments, e ∈ s.enrollments) : Narrows s s₁ except where
  sessions := hses
  enrollments := henr
  admins a ha := ⟨a, hadms ▸ ha, rfl, rfl, fun _ => ⟨rfl, rfl, id⟩⟩

theorem Narrows.of_eq (hadms : s₁.admins = s.admins) (hses : s₁.sessions = s.sessions)
    (henr : s₁.enrollments = s.enrollments) : Narrows s s₁ except :=
  .of_tables hadms (fun x hx => ⟨x, hses ▸ hx, rfl, rfl⟩) fun _ he => henr ▸ he

theorem Narrows.refl (s : AuthStore) : Narrows s s except := .of_eq rfl rfl rfl

theorem Narrows.trans (h : Narrows s s₁ except) (h' : Narrows s₁ s₂ except) :
    Narrows s s₂ except where
  sessions x hx := by
    obtain ⟨y, hy, htok, hadm⟩ := h'.sessions x hx
    obtain ⟨z, hz, htok', hadm'⟩ := h.sessions y hy
    exact ⟨z, hz, htok'.trans htok, hadm'.trans hadm⟩
  enrollments e he := h.enrollments e (h'.enrollments e he)
  admins a ha := by
    obtain ⟨b, hb, hid, hname, hsame⟩ := h.admins a ha
    obtain ⟨c, hc, hid', hname', hsame'⟩ := h'.admins b hb
    refine ⟨c, hc, hid'.trans hid, hname'.trans hname, fun hexcept => ?_⟩
    obtain ⟨hhash, hsec, hact⟩ := hsame hexcept
    obtain ⟨hhash', hsec', hact'⟩ := hsame' (hid ▸ hexcept)
    exact ⟨hhash'.trans hhash, hsec'.trans hsec, hact' ∘ hact⟩

theorem Narrows.updateAdmin {f : Admin → Admin} {hf : ∀ a, (f a).id = a.id}
    (hname : ∀ a, (f a).username = a.username)
    (hsame : except ≠ some target → ∀ a, (f a).passwordHash = a.passwordHash ∧
      (f a).totpSecret = a.totpSecret ∧ (a.active → (f a).active)) :
    Narrows s (s.updateAdmin target f hf) except where
  sessions x hx := ⟨x, hx, rfl, rfl⟩
  enrollments _ he := he
  admins a ha := by
    by_cases haid : a.id = target
    · refine ⟨f a, (mem_updateWhere hf).mpr ⟨a, ha, by simp [haid]⟩, hf a, hname a, ?_⟩
      exact fun hexcept => hsame (haid ▸ hexcept) a
    · exact ⟨a, (mem_updateWhere hf).mpr ⟨a, ha, by simp [haid]⟩, rfl, rfl,
        fun _ => ⟨rfl, rfl, id⟩⟩

theorem Narrows.plain (h : Narrows s s₁ none) {totp : List TotpEvent} :
    AccountStep s tokenHash ⟨s₁, none, none, totp⟩ where
  sessions x hx := ⟨nofun, h.sessions x hx⟩
  enrollments e he := ⟨nofun, .inl (h.enrollments e he)⟩
  started := nofun
  admins := h.admins

theorem Narrows.revoke (h : Narrows s s₁ (some target)) {totp : List TotpEvent} :
    AccountStep s tokenHash ⟨revokeAdminAuthState target s₁, some target, none, totp⟩ where
  sessions x hx := by
    obtain ⟨hx, hid⟩ := mem_deleteWhere.mp hx
    refine ⟨fun he => ?_, h.sessions x hx⟩
    cases he
    simp at hid
  enrollments e he := by
    obtain ⟨he, hid⟩ := mem_deleteWhere.mp he
    refine ⟨fun heq => ?_, .inl (h.enrollments e he)⟩
    cases heq
    simp at hid
  started := nofun
  admins := h.admins

theorem Narrows.consume {step : ℕ} (h : consumeAdminTotpStep target step s = some s₁) :
    Narrows s s₁ except := by
  rw [consumeAdminTotpStep] at h
  split at h
  · cases h
    exact .of_eq rfl rfl rfl
  · cases h

theorem Narrows.cleanup (now : Instant) (s : AuthStore) :
    Narrows s (cleanupAdminMfaEnrollments now s) except :=
  .of_tables rfl (fun x hx => ⟨x, hx, rfl, rfl⟩) fun _ he => (mem_deleteWhere.mp he).1

theorem Narrows.deleteCredential (key : ℕ) (s : AuthStore) :
    Narrows s (deleteCredential key target s) except := .of_eq rfl rfl rfl

theorem Narrows.setTotpEnabled (enabled : Bool) (s : AuthStore) :
    Narrows s (s.setTotpEnabled target enabled) except :=
  .updateAdmin (by intros; rfl) fun _ _ => ⟨rfl, rfl, id⟩

theorem Narrows.replaceTotpSecret (totpSecret : String) (s : AuthStore) :
    Narrows s (replaceTotpSecret target totpSecret s) (some target) := by
  have hupdate : Narrows s (s.updateAdmin target (Admin.withTotpSecret totpSecret))
      (some target) := .updateAdmin (by intros; rfl) fun h => absurd rfl h
  exact hupdate.trans (.of_eq rfl rfl rfl)

theorem Narrows.installConfirmed (totpSecret : String) (step : ℕ) (s : AuthStore) :
    Narrows s (s.installConfirmed target totpSecret step) (some target) := by
  have hupdate : Narrows s (s.updateAdmin target (Admin.withTotpSecret totpSecret))
      (some target) := .updateAdmin (by intros; rfl) fun h => absurd rfl h
  exact hupdate.trans (.of_eq rfl rfl rfl)

theorem Narrows.recoverCredentials (passwordHash totpSecret : Option String) (s : AuthStore) :
    Narrows s (recoverCredentials target passwordHash totpSecret s) (some target) := by
  have hpw : Narrows s (s.updateAdmin target fun admin =>
      { admin with passwordHash := passwordHash.getD admin.passwordHash }) (some target) :=
    .updateAdmin (by intros; rfl) fun h => absurd rfl h
  cases totpSecret with
  | none => exact hpw
  | some totpSecret => exact hpw.trans (.replaceTotpSecret totpSecret _)

theorem Narrows.insertAdmin {username passwordHash totpSecret : String} {new : ℕ}
    (h : insertAdmin username passwordHash totpSecret s = .ok (s₁, new)) :
    Narrows s s₁ except := by
  simp only [VaultLink.insertAdmin] at h
  split at h
  · cases h
  split at h
  · cases h
  · rename_i admins hins
    cases h
    refine ⟨fun x hx => ⟨x, hx, rfl, rfl⟩, fun _ he => he, fun a ha => ?_⟩
    exact ⟨a, (mem_insert? hins).mpr (.inr ha), rfl, rfl, fun _ => ⟨rfl, rfl, id⟩⟩

end AccountSteps

section Effects

variable {tokenHash totpSecret : String} {s : AuthStore} {effect : AccountEffect}

theorem createInitialAdminEffect_step {username passwordHash : String}
    (h : createInitialAdminEffect totpSecret s username passwordHash = .ok effect) :
    AccountStep s tokenHash effect := by
  obtain rfl | ⟨s₁, id, hins, rfl⟩ := createInitialAdminEffect_cases h
  · exact (Narrows.refl s).plain
  · exact (Narrows.insertAdmin hins).plain

theorem recoverAdminEffect_step {username : String} {passwordHash : Option String}
    {resetMfa : Bool}
    (h : recoverAdminEffect totpSecret s username passwordHash resetMfa = .ok effect) :
    AccountStep s tokenHash effect := by
  obtain rfl | ⟨id, rfl⟩ := recoverAdminEffect_cases h
  · exact (Narrows.refl s).plain
  · exact (Narrows.recoverCredentials passwordHash _ s).revoke

theorem AccountChange.step {request : Request}
    (h : AccountChange tokenHash totpSecret request s effect) : AccountStep s tokenHash effect := by
  cases h with
  | nothing => exact (Narrows.refl s).plain
  | cleaned now => exact (Narrows.cleanup now s).plain
  | password | deactivated =>
    exact (Narrows.updateAdmin (by intros; rfl) fun h => absurd rfl h).revoke
  | secret => exact (Narrows.replaceTotpSecret totpSecret s).revoke
  | @started _ now _ s₁ row _ hcons htok =>
    have hnarrows : Narrows s s₁ none := (Narrows.cleanup now s).trans (.consume hcons)
    refine ⟨fun x hx => ⟨nofun, hnarrows.sessions x hx⟩, fun e he => ⟨nofun, ?_⟩,
      by rintro e ⟨⟩; exact htok, hnarrows.admins⟩
    rcases mem_upsert.mp he with rfl | ⟨he, -⟩
    · exact .inr rfl
    · exact .inl (hnarrows.enrollments e he)
  | confirmed now step =>
    exact ((Narrows.cleanup now s).trans (.installConfirmed _ step _)).revoke
  | keyDeletedWithTotp id _ hcons =>
    exact (Narrows.trans (.consume hcons) (.deleteCredential id _)).revoke
  | keyDeleted id => exact (Narrows.deleteCredential id s).revoke
  | totpEnabled => exact (Narrows.setTotpEnabled true s).plain
  | totpDisabled _ hcons =>
    exact ((Narrows.consume hcons).trans (.setTotpEnabled false _)).plain
  | revoked => exact (Narrows.refl s).revoke
  | activated id =>
    have hnarrows : Narrows s (activateAdmin id s).1 none :=
      .updateAdmin (by intros; rfl) fun _ _ => ⟨rfl, rfl, fun _ => rfl⟩
    exact hnarrows.plain
  | created hinse => exact (Narrows.insertAdmin hinse).plain
  | @keyAdded _ credentials =>
    have hnarrows : Narrows s { s with credentials } none := .of_eq rfl rfl rfl
    exact hnarrows.plain

end Effects

section Invariant

theorem AuthServer.logins_commitResult (σ : AuthServer) (result : Except DbError AccountEffect) :
    (σ.commitResult result).logins = σ.logins := by
  cases result <;> rfl

theorem AuthServer.mem_revocations_commitResult {σ : AuthServer}
    {result : Except DbError AccountEffect} {v : Revocation}
    (h : v ∈ (σ.commitResult result).revocations) : v ∈ σ.revocations ∨ v.time = σ.time := by
  cases result with
  | error => exact .inl h
  | ok =>
    rcases List.mem_append.mp h with h | h
    · obtain ⟨id, -, rfl⟩ := List.mem_map.mp h
      exact .inr rfl
    · exact .inl h

variable {rng : Entropy} {t n : ℕ} {σ : AuthServer} {s : AuthStore}

/-- Every revocation of the administrator came before `createdAt`. -/
def AuthServer.YoungerThanRevocations (σ : AuthServer) (adminId createdAt : ℕ) : Prop :=
  ∀ v ∈ σ.revocations, v.adminId = adminId → v.time < createdAt

/-- What holds between events: before time `t`, with the first `n` tokens drawn. -/
structure RevocationInv (rng : Entropy) (t n : ℕ) (σ : AuthServer) : Prop where
  login_issued : ∀ r ∈ σ.logins, r.createdAt < t ∧ ∃ m < n, r.tokenHash = rng.tokenHash m
  login_unique : ∀ r ∈ σ.logins, ∀ r' ∈ σ.logins, r.tokenHash = r'.tokenHash → r = r'
  enrolled_issued : ∀ r ∈ σ.enrolled, r.createdAt < t ∧ ∃ m < n, r.tokenHash = rng.tokenHash m
  enrolled_unique : ∀ r ∈ σ.enrolled, ∀ r' ∈ σ.enrolled, r.tokenHash = r'.tokenHash → r = r'
  revocation_time : ∀ v ∈ σ.revocations, v.time < t
  session : ∀ x ∈ σ.store.sessions, ∃ r ∈ σ.logins, r.tokenHash = x.tokenHash ∧
    r.adminId = x.adminId ∧ σ.YoungerThanRevocations x.adminId r.createdAt ∧
      ∃ a ∈ σ.store.admins, a.id = x.adminId ∧ a.active ∧ a.passwordHash = r.verifiedHash
  enrollment : ∀ e ∈ σ.store.enrollments, ∃ r ∈ σ.enrolled, r.tokenHash = e.tokenHash ∧
    r.adminId = e.adminId ∧ r.totpSecret = e.totpSecret ∧
      σ.YoungerThanRevocations e.adminId r.createdAt
  request : ∀ q ∈ σ.requests, q.presentedAt < t ∧
    (∃ r ∈ σ.logins, r.tokenHash = q.tokenHash ∧ r.adminId = q.view.adminId ∧
      r.createdAt < q.presentedAt) ∧
    ∃ a ∈ σ.store.admins, a.id = q.view.adminId ∧ a.username = q.view.username
  run : ∀ c ∈ σ.runs, c.time < t ∧ ∃ r ∈ σ.logins, r.tokenHash = c.proof.tokenHash ∧
    ∀ v ∈ σ.revocations, v.adminId = r.adminId → v.time < r.createdAt ∨ c.time ≤ v.time

theorem RevocationInv.initial : RevocationInv rng 0 0 AuthServer.initial := by
  constructor <;> intro _ h <;> exact absurd h List.not_mem_nil

theorem RevocationInv.mono (h : RevocationInv rng t n σ) {t' n' : ℕ} (ht : t ≤ t') (hn : n ≤ n') :
    RevocationInv rng t' n' σ where
  login_issued r hr := by
    obtain ⟨hlt, m, hm, htok⟩ := h.login_issued r hr
    exact ⟨hlt.trans_le ht, m, hm.trans_le hn, htok⟩
  login_unique := h.login_unique
  enrolled_issued r hr := by
    obtain ⟨hlt, m, hm, htok⟩ := h.enrolled_issued r hr
    exact ⟨hlt.trans_le ht, m, hm.trans_le hn, htok⟩
  enrolled_unique := h.enrolled_unique
  revocation_time v hv := (h.revocation_time v hv).trans_le ht
  session := h.session
  enrollment := h.enrollment
  request q hq := ⟨(h.request q hq).1.trans_le ht, (h.request q hq).2⟩
  run c hc := ⟨(h.run c hc).1.trans_le ht, (h.run c hc).2⟩

theorem RevocationInv.commit {effect : AccountEffect} (hrng : rng.NeverRepeats)
    (h : RevocationInv rng σ.time n σ) (hstep : AccountStep σ.store (rng.tokenHash n) effect) :
    RevocationInv rng (σ.time + 1) (n + 1) (σ.commit effect) := by
  have hlat := h.mono (Nat.le_succ σ.time) (Nat.le_succ n)
  have hrev : ∀ v ∈ (σ.commit effect).revocations,
      v ∈ σ.revocations ∨ effect.revoked = some v.adminId ∧ v.time = σ.time := by
    intro v hv
    rcases List.mem_append.mp hv with hv | hv
    · obtain ⟨id, hid, rfl⟩ := List.mem_map.mp hv
      exact .inr ⟨Option.mem_toList.mp hid, rfl⟩
    · exact .inl hv
  have hyounger : ∀ adminId createdAt, effect.revoked ≠ some adminId →
      σ.YoungerThanRevocations adminId createdAt →
      (σ.commit effect).YoungerThanRevocations adminId createdAt := by
    intro adminId createdAt hne hyou v hv hid
    rcases hrev v hv with hv | ⟨hv, -⟩
    · exact hyou v hv hid
    · exact absurd (hid ▸ hv) hne
  have henrolled : ∀ r ∈ (σ.commit effect).enrolled, r ∈ σ.enrolled ∨
      ∃ e, effect.started = some e ∧ r = ⟨e.tokenHash, e.adminId, e.totpSecret, σ.time⟩ := by
    intro r hr
    rcases List.mem_append.mp hr with hr | hr
    · obtain ⟨e, he, rfl⟩ := List.mem_map.mp hr
      exact .inr ⟨e, Option.mem_toList.mp he, rfl⟩
    · exact .inl hr
  have hfr : ∀ r ∈ σ.enrolled, r.tokenHash ≠ rng.tokenHash n := by
    intro r hr htok
    obtain ⟨-, m, hm, htok'⟩ := h.enrolled_issued r hr
    have := hrng.tokens (htok'.symm.trans htok)
    omega
  constructor
  case login_issued => exact hlat.login_issued
  case login_unique => exact h.login_unique
  case enrolled_issued =>
    intro r hr
    rcases henrolled r hr with hr | ⟨e, he, rfl⟩
    · exact hlat.enrolled_issued r hr
    · exact ⟨Nat.lt_succ_self _, n, Nat.lt_succ_self n, hstep.started e he⟩
  case enrolled_unique =>
    intro r hr r' hr' htok
    rcases henrolled r hr with hr | ⟨e, he, rfl⟩ <;>
      rcases henrolled r' hr' with hr' | ⟨e', he', rfl⟩
    · exact h.enrolled_unique r hr r' hr' htok
    · exact absurd (htok.trans (hstep.started e' he')) (hfr r hr)
    · exact absurd (htok.symm.trans (hstep.started e he)) (hfr r' hr')
    · cases he.symm.trans he'
      rfl
  case revocation_time =>
    intro v hv
    rcases hrev v hv with hv | ⟨-, hv⟩
    · exact hlat.revocation_time v hv
    · exact hv ▸ Nat.lt_succ_self _
  case session =>
    intro x hx
    obtain ⟨hne, y, hy, htok, hadm⟩ := hstep.sessions x hx
    obtain ⟨r, hr, hrto, hrad, hyou, a, ha, haid, hact, hhash⟩ := h.session y hy
    obtain ⟨a', ha', haid', -, hsame⟩ := hstep.admins a ha
    have haid_eq : a.id = x.adminId := haid.trans hadm
    obtain ⟨hhash', -, hact'⟩ := hsame (haid_eq ▸ hne)
    exact ⟨r, hr, hrto.trans htok, hrad.trans hadm,
      hyounger _ _ hne (hadm ▸ hyou), a', ha', haid'.trans haid_eq, hact' hact,
      hhash'.trans hhash⟩
  case enrollment =>
    intro e he
    obtain ⟨hne, he | he⟩ := hstep.enrollments e he
    · obtain ⟨r, hr, htok, hadm, hsec, hyou⟩ := h.enrollment e he
      exact ⟨r, List.mem_append_right _ hr, htok, hadm, hsec, hyounger _ _ hne hyou⟩
    · refine ⟨⟨e.tokenHash, e.adminId, e.totpSecret, σ.time⟩, ?_, rfl, rfl, rfl,
        hyounger _ _ hne fun v hv _ => h.revocation_time v hv⟩
      exact List.mem_append_left _ (List.mem_map.mpr ⟨e, Option.mem_toList.mpr he, rfl⟩)
  case request =>
    intro q hq
    obtain ⟨ht, hlogin, a, ha, haid, hname⟩ := hlat.request q hq
    obtain ⟨a', ha', haid', hname', -⟩ := hstep.admins a ha
    exact ⟨ht, hlogin, a', ha', haid'.trans haid, hname'.trans hname⟩
  case run =>
    intro c hc
    obtain ⟨ht, r, hr, htok, hbef⟩ := h.run c hc
    refine ⟨ht.trans (Nat.lt_succ_self _), r, hr, htok, fun v hv hid => ?_⟩
    rcases hrev v hv with hv | ⟨-, hv⟩
    · exact hbef v hv hid
    · exact .inr (hv ▸ ht.le)

theorem RevocationInv.narrows (h : RevocationInv rng t n σ) (hs : Narrows σ.store s none) :
    RevocationInv rng t n { σ with store := s } := by
  refine { h with
    session := fun x hx => ?_
    enrollment := fun e he => h.enrollment e (hs.enrollments e he)
    request := fun q hq => ?_ }
  · obtain ⟨y, hy, htok, hadm⟩ := hs.sessions x hx
    obtain ⟨r, hr, hrto, hrad, hyou, a, ha, haid, hact, hhash⟩ := h.session y hy
    obtain ⟨a', ha', haid', -, hsame⟩ := hs.admins a ha
    obtain ⟨hhash', -, hact'⟩ := hsame nofun
    exact ⟨r, hr, hrto.trans htok, hrad.trans hadm, hadm ▸ hyou, a', ha',
      haid'.trans (haid.trans hadm), hact' hact, hhash'.trans hhash⟩
  · obtain ⟨ht, hlogin, a, ha, haid, hname⟩ := h.request q hq
    obtain ⟨a', ha', haid', hname', -⟩ := hs.admins a ha
    exact ⟨ht, hlogin, a', ha', haid'.trans haid, hname'.trans hname⟩

/-- The token of the next login or rotation is new. -/
theorem RevocationInv.token_fresh (hrng : rng.NeverRepeats) (h : RevocationInv rng t n σ) :
    ∀ r ∈ σ.logins, r.tokenHash ≠ rng.tokenHash n := by
  intro r hr htok
  obtain ⟨-, m, hm, htok'⟩ := h.login_issued r hr
  have := hrng.tokens (htok'.symm.trans htok)
  omega

/-- A new session under a new token, for a login that `record` describes. -/
theorem RevocationInv.addLogin {record : LoginRecord} (hrng : rng.NeverRepeats)
    (h : RevocationInv rng t n σ) (htok : record.tokenHash = rng.tokenHash n)
    (htime : record.createdAt < t)
    (hyou : σ.YoungerThanRevocations record.adminId record.createdAt)
    (hadm : ∃ a ∈ σ.store.admins, a.id = record.adminId ∧ a.active ∧
      a.passwordHash = record.verifiedHash)
    (hses : ∀ x ∈ s.sessions, x ∈ σ.store.sessions ∨
      x.tokenHash = record.tokenHash ∧ x.adminId = record.adminId)
    (hadms : s.admins = σ.store.admins) (henr : s.enrollments = σ.store.enrollments) :
    RevocationInv rng t (n + 1) { σ with store := s, logins := record :: σ.logins } := by
  have hlat := h.mono le_rfl (Nat.le_succ n)
  have hfr := h.token_fresh hrng
  constructor
  case login_issued =>
    intro r hr
    rcases List.mem_cons.mp hr with rfl | hr
    · exact ⟨htime, n, Nat.lt_succ_self n, htok⟩
    · exact hlat.login_issued r hr
  case login_unique =>
    intro r hr r' hr' heq
    rcases List.mem_cons.mp hr with hnew | hold <;> rcases List.mem_cons.mp hr' with hnew' | hold'
    · exact hnew.trans hnew'.symm
    · exact absurd (heq.symm.trans (hnew ▸ htok)) (hfr r' hold')
    · exact absurd (heq.trans (hnew' ▸ htok)) (hfr r hold)
    · exact h.login_unique r hold r' hold' heq
  case enrolled_issued => exact hlat.enrolled_issued
  case enrolled_unique => exact h.enrolled_unique
  case revocation_time => exact h.revocation_time
  case session =>
    intro x hx
    rcases hses x hx with hx | ⟨hxtoken, hxadmin⟩
    · obtain ⟨r, hr, hrest⟩ := h.session x hx
      exact ⟨r, List.mem_cons_of_mem _ hr, hadms ▸ hrest⟩
    · exact ⟨record, List.mem_cons_self, hxtoken.symm, hxadmin.symm, hxadmin ▸ hyou,
        by rw [hadms, hxadmin]; exact hadm⟩
  case enrollment => exact henr ▸ h.enrollment
  case request =>
    intro q hq
    obtain ⟨ht, ⟨r, hr, hrest⟩, ha⟩ := h.request q hq
    exact ⟨ht, ⟨r, List.mem_cons_of_mem _ hr, hrest⟩, hadms ▸ ha⟩
  case run =>
    intro c hc
    obtain ⟨ht, r, hr, hrest⟩ := h.run c hc
    exact ⟨ht, r, List.mem_cons_of_mem _ hr, hrest⟩

theorem RevocationInv.rotate {x : Session} {newTokenHash : String} (hrng : rng.NeverRepeats)
    (h : RevocationInv rng t n σ) (hx : x ∈ σ.store.sessions)
    (hnew : newTokenHash = rng.tokenHash n)
    (hses : ∀ y ∈ s.sessions, y ∈ σ.store.sessions ∨
      y.tokenHash = newTokenHash ∧ y.adminId = x.adminId)
    (hadms : s.admins = σ.store.admins) (henr : s.enrollments = σ.store.enrollments) :
    RevocationInv rng t (n + 1)
      { σ with
        store := s, logins := AuthServer.rotateLogins σ.logins x.tokenHash newTokenHash } := by
  obtain ⟨r, hr, htok, hadm, hyou, ha⟩ := h.session x hx
  have hfind : σ.logins.find? (fun record => record.tokenHash = x.tokenHash) = some r := by
    cases hfound : σ.logins.find? (fun record => record.tokenHash = x.tokenHash) with
    | none => exact absurd htok (by simpa using List.find?_eq_none.mp hfound r hr)
    | some r' =>
      have htok' : r'.tokenHash = x.tokenHash := by simpa using List.find?_some hfound
      rw [h.login_unique r' (List.mem_of_find?_eq_some hfound) r hr (htok'.trans htok.symm)]
  simp only [AuthServer.rotateLogins, hfind]
  exact h.addLogin hrng hnew (h.login_issued r hr).1 (hadm ▸ hyou) (hadm ▸ ha)
    (hadm ▸ hses) hadms henr

theorem liveMfaSession_some {proof : MfaSessionProof} {times : SessionTimes}
    (h : liveMfaSession proof times s = true) :
    ∃ x ∈ s.sessions, x.tokenHash = proof.tokenHash ∧ x.adminId = proof.adminId := by
  obtain ⟨x, hx, hprops⟩ := (Option.any_eq_true _ _).mp h
  obtain ⟨hx, htok⟩ := find?_eq_some_iff.mp hx
  exact ⟨x, hx, htok, by simp_all⟩

theorem RevocationInv.addRun {proof : MfaSessionProof} {r : LoginRecord}
    (h : RevocationInv rng (t + 1) n σ) (hr : r ∈ σ.logins) (htok : r.tokenHash = proof.tokenHash)
    (hbef : ∀ v ∈ σ.revocations, v.adminId = r.adminId → v.time < r.createdAt ∨ t ≤ v.time) :
    RevocationInv rng (t + 1) n { σ with runs := ⟨proof, t⟩ :: σ.runs } :=
  { h with
    run := by
      intro c hc
      rcases List.mem_cons.mp hc with rfl | hc
      · exact ⟨Nat.lt_succ_self t, r, hr, htok, hbef⟩
      · exact h.run c hc }

theorem RevocationInv.modifyRequest (h : RevocationInv rng t n σ) (i : ℕ) (f : Request → Request)
    (htok : ∀ q, (f q).tokenHash = q.tokenHash) (hview : ∀ q, (f q).view = q.view)
    (hpresented : ∀ q, (f q).presentedAt = q.presentedAt) :
    RevocationInv rng t n { σ with requests := σ.requests.modify i f } :=
  { h with
    request := by
      intro q hq
      obtain ⟨q', hq', rfl | rfl⟩ := mem_modify_cases hq
      · exact h.request _ hq'
      · rw [htok, hview, hpresented]
        exact h.request _ hq' }

theorem RevocationInv.perform (hrng : rng.NeverRepeats)
    (h : RevocationInv rng σ.time σ.tokensDrawn σ) (event : AuthEvent) :
    RevocationInv rng (σ.time + 1) (σ.tokensDrawn + 1) (σ.perform rng event) := by
  have hlat : RevocationInv rng (σ.time + 1) (σ.tokensDrawn + 1) σ :=
    h.mono (Nat.le_succ _) (Nat.le_succ _)
  have hcommit : ∀ result, (∀ effect, result = .ok effect →
      AccountStep σ.store (rng.tokenHash σ.tokensDrawn) effect) →
      RevocationInv rng (σ.time + 1) (σ.tokensDrawn + 1) (σ.commitResult result) := by
    intro result hres
    cases result with
    | error => exact hlat
    | ok effect => exact h.commit hrng (hres effect rfl)
  cases event with simp only [AuthServer.perform]
  | createInitialAdmin =>
    exact hcommit _ fun _ => createInitialAdminEffect_step
  | recoverAdmin => exact hcommit _ fun _ => recoverAdminEffect_step
  | login adminId verifiedHash csrf expires clock =>
    split
    · exact hlat
    · rename_i s' hcreate
      obtain ⟨⟨sessions, rfl⟩, hses, hadm⟩ := createSessionForVerifiedPassword_ok hcreate
      exact (h.mono (Nat.le_succ _) le_rfl).addLogin hrng rfl (Nat.lt_succ_self _)
        (fun v hv _ => h.revocation_time v hv) (hadm rfl)
        (fun x hx => (hses x hx).imp_right And.right) rfl rfl
    · rename_i s' outcome hne hcreate
      obtain ⟨⟨sessions, rfl⟩, hses, -⟩ := createSessionForVerifiedPassword_ok hcreate
      refine hlat.narrows (.of_tables rfl (fun x hx => ?_) fun _ he => he)
      rcases hses x hx with hx | ⟨rfl, -⟩
      · exact ⟨x, hx, rfl, rfl⟩
      · exact (hne rfl).elim
  | present tokenHash clock =>
    split
    · exact hlat
    · rename_i view hview
      obtain ⟨x, hx, htok, hadm, ha⟩ := sessionAt_some hview
      obtain ⟨r, hr, hrto, hrad, -⟩ := h.session x hx
      refine { hlat with request := fun q hq => ?_ }
      rcases List.mem_append.mp hq with hq | hq
      · exact hlat.request q hq
      · cases List.mem_singleton.mp hq
        exact ⟨Nat.lt_succ_self _, ⟨r, hr, hrto.trans htok, hrad.trans hadm,
          (h.login_issued r hr).1⟩, ha⟩
  | touch =>
    refine hlat.narrows (.of_tables rfl (fun x hx => ?_) fun _ he => he)
    obtain ⟨y, hy, rfl⟩ := (mem_updateWhere).mp hx
    exact ⟨y, hy, by split <;> rfl, by split <;> rfl⟩
  | expire | logout =>
    refine hlat.narrows (.of_tables rfl (fun x hx => ?_) fun _ he => he)
    exact ⟨x, (mem_deleteWhere.mp hx).1, rfl, rfl⟩
  | loadAdmin i =>
    exact hlat.modifyRequest i _ (fun _ => rfl) (fun _ => rfl) fun _ => rfl
  | loadEnrollment i tokenHash now =>
    split
    · exact hlat
    · exact (hlat.narrows (.cleanup now σ.store)).modifyRequest i _ (fun _ => rfl)
        (fun _ => rfl) fun _ => rfl
  | submitTotp i step csrf clock =>
    split
    · exact hlat
    split
    · exact hlat
    split
    · rename_i s' hverify
      obtain ⟨x, hx, htok, -, hses, s₁, sessions, hcons, rfl⟩ :=
        verifyMfaWithTotpStep_accepted hverify
      obtain ⟨-, rfl⟩ := consumeAdminTotpStep_some hcons
      rw [← htok]
      have hrot := (h.mono (Nat.le_succ _) le_rfl).rotate hrng hx rfl hses rfl rfl
      exact { hrot with }
    · rename_i s' hverify
      rw [verifyMfaWithTotpStep_rejected hverify]
      exact hlat
    · exact hlat
  | submitWebauthn i credentialId expectedBlob updatedBlob csrf clock =>
    split
    · exact hlat
    split
    · rename_i s' hcomplete
      obtain ⟨x, hx, htok, hses, sessions, credentials, rfl⟩ :=
        completeWebauthnMfa_accepted hcomplete
      rw [← htok]
      exact (h.mono (Nat.le_succ _) le_rfl).rotate hrng hx rfl hses rfl rfl
    · rename_i s' hcomplete
      rw [completeWebauthnMfa_rejected hcomplete]
      exact hlat
    · exact hlat
  | fenced i op clock =>
    split
    · exact hlat
    rename_i request _
    split
    · exact hlat
    split
    · exact hlat
    rename_i closure hclos
    split_ifs with hlive
    · obtain ⟨x, hx, htok, -⟩ := liveMfaSession_some hlive
      obtain ⟨r, hr, hrto, hrad, hyou, -⟩ := h.session x hx
      have hres := hcommit (closure σ.store) fun effect h => (FencedOp.closure_change hclos h).step
      -- a revocation the closure itself commits is not before its run
      have hbef : ∀ v ∈ (σ.commitResult (closure σ.store)).revocations,
          v.adminId = r.adminId → v.time < r.createdAt ∨ σ.time ≤ v.time := by
        intro v hv hid
        rcases AuthServer.mem_revocations_commitResult hv with hv | hv
        · exact .inl (hyou v hv (hid.trans hrad))
        · exact .inr hv.ge
      have hr' : r ∈ (σ.commitResult (closure σ.store)).logins := by
        rw [AuthServer.logins_commitResult]
        exact hr
      exact hres.addRun hr' (hrto.trans htok) hbef
    · exact hlat

theorem RevocationInv.reachable (hrng : rng.NeverRepeats) (events : List AuthEvent) :
    RevocationInv rng (AuthServer.initial.run rng events).time
      (AuthServer.initial.run rng events).tokensDrawn (AuthServer.initial.run rng events) :=
  AuthServer.run_invariant rng (P := fun σ => RevocationInv rng σ.time σ.tokensDrawn σ)
    RevocationInv.initial (fun _ event h => { h.perform hrng event with }) events

/-- In every state that interleaved requests and recoveries reach: a verified session belongs
to an active administrator whose password hash is the one its login verified; after a
revocation no older session or enrollment of the administrator is stored; and no closure runs
behind the fence for a session older than an earlier revocation. -/
theorem revoked_sessions_never_act (rng : Entropy) (hrng : rng.NeverRepeats)
    (events : List AuthEvent) :
    let σ := AuthServer.initial.run rng events
    (∀ x ∈ σ.store.sessions, x.mfaVerified → ∃ r ∈ σ.logins, r.tokenHash = x.tokenHash ∧
      r.adminId = x.adminId ∧
      ∃ a ∈ σ.store.admins, a.id = x.adminId ∧ a.active ∧ a.passwordHash = r.verifiedHash) ∧
    ∀ v ∈ σ.revocations,
      (∀ r ∈ σ.enrolled, r.adminId = v.adminId → r.createdAt < v.time →
        ∀ e ∈ σ.store.enrollments, e.tokenHash ≠ r.tokenHash) ∧
      ∀ r ∈ σ.logins, r.adminId = v.adminId → r.createdAt < v.time →
        (∀ x ∈ σ.store.sessions, x.tokenHash ≠ r.tokenHash) ∧
        ∀ c ∈ σ.runs, c.proof.tokenHash = r.tokenHash → c.time ≤ v.time := by
  intro σ
  have h : RevocationInv rng σ.time σ.tokensDrawn σ := .reachable hrng events
  refine ⟨fun x hx _ => ?_, fun v hv => ⟨fun r hr hadm hold e he htok => ?_,
    fun r hr hadm hold => ⟨fun x hx htok => ?_, fun c hc htok => ?_⟩⟩⟩
  · obtain ⟨r, hr, htok, hadm, -, ha⟩ := h.session x hx
    exact ⟨r, hr, htok, hadm, ha⟩
  · obtain ⟨r', hr', htok', hadm', -, hyou⟩ := h.enrollment e he
    cases h.enrolled_unique r' hr' r hr (htok'.trans htok)
    have := hyou v hv (hadm.symm.trans hadm')
    omega
  · obtain ⟨r', hr', htok', hadm', hyou, -⟩ := h.session x hx
    cases h.login_unique r' hr' r hr (htok'.trans htok)
    have := hyou v hv (hadm.symm.trans hadm')
    omega
  · obtain ⟨-, r', hr', htok', hbef⟩ := h.run c hc
    cases h.login_unique r' hr' r hr (htok'.trans htok)
    have := hbef v hv hadm.symm
    omega

/-- An administrator logs in with a TOTP code, changes the password and tries to go on with
the same session. -/
def passwordChangeRun : List AuthEvent :=
  let clock : ClockReading := ⟨0, 30⟩
  [.createInitialAdmin "root" "hash", .login 1 "hash" "csrf" 100 clock, .present "t" clock,
    .loadAdmin 0, .submitTotp 0 5 "csrf" clock, .present "tttt" clock, .loadAdmin 1,
    .fenced 1 (.changePassword "new") clock, .fenced 1 .other clock]

theorem revoked_sessions_never_act_passwordChange :
    let σ := AuthServer.initial.run unaryEntropy passwordChangeRun
    σ.runs.length = 1 ∧ (∀ x ∈ σ.store.sessions, x.tokenHash ≠ "tttt") ∧
      ∀ c ∈ σ.runs, c.proof.tokenHash = "tttt" → c.time ≤ 7 := by
  intro σ
  have hrev : (⟨1, 7⟩ : Revocation) ∈ σ.revocations := by decide
  have hlogin : (⟨"tttt", 1, "hash", 1⟩ : LoginRecord) ∈ σ.logins := by decide
  exact ⟨by decide, ((revoked_sessions_never_act unaryEntropy unaryEntropy_neverRepeats
    passwordChangeRun).2 _ hrev).2 _ hlogin rfl (by decide)⟩

end Invariant

end VaultLink
