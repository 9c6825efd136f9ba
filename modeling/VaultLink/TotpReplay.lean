import VaultLink.Revocation

/-!
# Acceptance of TOTP steps

A code is matched against a secret before the transaction that consumes its time step, so
the secret may have been replaced in between. It has not been when the transaction commits:
replacing a secret revokes the sessions of the administrator, and every consuming transaction
requires the session that the request presented before it read the secret. The replay row
then makes the accepted steps of one secret strictly increasing.
-/
namespace VaultLink

open KeyedTable

section Log

/-- The steps accepted for an administrator since a secret was last installed, newest first. -/
def acceptedSince (adminId : ℕ) : List TotpEvent → List ℕ
  | [] => []
  | .installed id _ :: older => if id = adminId then [] else acceptedSince adminId older
  | .accepted id _ step :: older =>
    if id = adminId then step :: acceptedSince adminId older else acceptedSince adminId older

/-- The secret last installed for an administrator. -/
def installedSecret (adminId : ℕ) : List TotpEvent → Option String
  | [] => none
  | .installed id totpSecret :: older =>
    if id = adminId then some totpSecret else installedSecret adminId older
  | .accepted .. :: older => installedSecret adminId older

/-- All accepted pairs of a secret and a step, over every administrator and operation. -/
def acceptedPairs : List TotpEvent → List (String × ℕ)
  | [] => []
  | .installed .. :: older => acceptedPairs older
  | .accepted _ totpSecret step :: older => (totpSecret, step) :: acceptedPairs older

/-- No secret is installed twice; a step is accepted for the installed secret only and above
the steps accepted since its installation. -/
def TotpLogOk : List TotpEvent → Prop
  | [] => True
  | .installed _ totpSecret :: older =>
    (∀ id, .installed id totpSecret ∉ older) ∧ TotpLogOk older
  | .accepted id totpSecret step :: older =>
    installedSecret id older = some totpSecret ∧ (∀ k ∈ acceptedSince id older, k < step) ∧
      TotpLogOk older

variable {log older : List TotpEvent} {id id' step : ℕ} {totpSecret : String}

theorem TotpLogOk.tail {event : TotpEvent} (h : TotpLogOk (event :: older)) : TotpLogOk older := by
  cases event with
  | installed => exact h.2
  | accepted => exact h.2.2

theorem TotpLogOk.suffix (h : TotpLogOk log) (hsuf : older <:+ log) : TotpLogOk older := by
  induction log with
  | nil => rwa [List.suffix_nil.mp hsuf]
  | cons event rest ih =>
    rcases List.suffix_cons_iff.mp hsuf with rfl | hsuf
    · exact h
    · exact ih h.tail hsuf

theorem mem_of_installedSecret (h : installedSecret id log = some totpSecret) :
    .installed id totpSecret ∈ log := by
  induction log with
  | nil => cases h
  | cons event older ih =>
    cases event with
    | installed j =>
      simp only [installedSecret] at h
      split at h
      · cases h
        subst j
        exact List.mem_cons_self
      · exact List.mem_cons_of_mem _ (ih h)
    | accepted => exact List.mem_cons_of_mem _ (ih h)

theorem TotpLogOk.installed_unique (h : TotpLogOk log) (hid : .installed id totpSecret ∈ log)
    (hid' : .installed id' totpSecret ∈ log) : id = id' := by
  induction log with
  | nil => cases hid
  | cons event older ih =>
    rcases List.mem_cons.mp hid with heq | hold <;> rcases List.mem_cons.mp hid' with heq' | hold'
    · cases heq.trans heq'.symm
      rfl
    · subst heq
      exact absurd hold' (h.1 id')
    · subst heq'
      exact absurd hold (h.1 id)
    · exact ih h.tail hold hold'

theorem TotpLogOk.installed_of_accepted (h : TotpLogOk log)
    (hmem : .accepted id totpSecret step ∈ log) : .installed id totpSecret ∈ log := by
  induction log with
  | nil => cases hmem
  | cons event older ih =>
    rcases List.mem_cons.mp hmem with rfl | hold
    · exact List.mem_cons_of_mem _ (mem_of_installedSecret h.1)
    · exact List.mem_cons_of_mem _ (ih h.tail hold)

/-- A step accepted for the secret that is installed now was accepted since its installation. -/
theorem TotpLogOk.mem_acceptedSince (h : TotpLogOk log)
    (hcur : installedSecret id log = some totpSecret)
    (hmem : .accepted id' totpSecret step ∈ log) : step ∈ acceptedSince id log := by
  induction log with
  | nil => cases hmem
  | cons event older ih =>
    cases event with
    | installed =>
      have hold : .accepted id' totpSecret step ∈ older := by simpa using hmem
      simp only [installedSecret, acceptedSince] at hcur ⊢
      split at hcur
      · cases hcur
        exact absurd (h.tail.installed_of_accepted hold) (h.1 id')
      · rw [if_neg ‹_›]
        exact ih h.tail hcur hold
    | accepted =>
      simp only [installedSecret, acceptedSince] at hcur ⊢
      rcases List.mem_cons.mp hmem with heq | hold
      · cases heq
        have hid : id' = id := h.tail.installed_unique (mem_of_installedSecret h.1)
          (mem_of_installedSecret hcur)
        simp [hid]
      · split
        · exact List.mem_cons_of_mem _ (ih h.tail hcur hold)
        · exact ih h.tail hcur hold

theorem TotpLogOk.increasing (h : TotpLogOk log) (adminId : ℕ) :
    (acceptedSince adminId log).Pairwise (· > ·) := by
  induction log with
  | nil => exact .nil
  | cons event older ih =>
    cases event with
    | installed =>
      simp only [acceptedSince]
      split
      · exact .nil
      · exact ih h.tail
    | accepted j =>
      simp only [acceptedSince]
      split
      · subst j
        exact List.pairwise_cons.mpr ⟨h.2.1, ih h.tail⟩
      · exact ih h.tail

theorem mem_acceptedPairs (h : (totpSecret, step) ∈ acceptedPairs log) :
    ∃ id, .accepted id totpSecret step ∈ log := by
  induction log with
  | nil => cases h
  | cons event older ih =>
    cases event with
    | installed =>
      obtain ⟨id, hid⟩ := ih h
      exact ⟨id, List.mem_cons_of_mem _ hid⟩
    | accepted j =>
      rcases List.mem_cons.mp h with heq | h
      · cases heq
        exact ⟨j, List.mem_cons_self⟩
      · obtain ⟨id, hid⟩ := ih h
        exact ⟨id, List.mem_cons_of_mem _ hid⟩

theorem TotpLogOk.acceptedPairs_nodup (h : TotpLogOk log) : (acceptedPairs log).Nodup := by
  induction log with
  | nil => exact .nil
  | cons event older ih =>
    cases event with
    | installed => exact ih h.tail
    | accepted j s k =>
      refine List.nodup_cons.mpr ⟨fun hmem => ?_, ih h.tail⟩
      obtain ⟨id, hid⟩ := mem_acceptedPairs hmem
      have := h.2.1 k (h.tail.mem_acceptedSince h.1 hid)
      omega

end Log

section Stores

variable {rng : Entropy} {m : ℕ} {s s₁ s₂ : AuthStore} {log : List TotpEvent}
  {adminId step : ℕ} {totpSecret : String}

/-- Usernames are unique up to ASCII case. -/
def UsernamesUnique (s : AuthStore) : Prop :=
  ∀ a ∈ s.admins, ∀ b ∈ s.admins, noCase a.username = noCase b.username → a.id = b.id

theorem UsernamesUnique.updateAdmin {f : Admin → Admin} (h : UsernamesUnique s)
    (hf : ∀ a, (f a).id = a.id) (hname : ∀ a, (f a).username = a.username) :
    UsernamesUnique (s.updateAdmin adminId f hf) := by
  have hpre : ∀ a' ∈ (s.updateAdmin adminId f hf).admins, ∃ a ∈ s.admins,
      a.id = a'.id ∧ a.username = a'.username := by
    intro a' ha'
    obtain ⟨a, ha, rfl⟩ := (mem_updateWhere hf).mp ha'
    refine ⟨a, ha, ?_⟩
    split
    · exact ⟨(hf a).symm, (hname a).symm⟩
    · exact ⟨rfl, rfl⟩
  intro a ha b hb heq
  obtain ⟨a', ha', hid, hname⟩ := hpre a ha
  obtain ⟨b', hb', hid', hname'⟩ := hpre b hb
  rw [← hid, ← hid']
  exact h a' ha' b' hb' (by rw [hname, hname', heq])

theorem insertAdmin_ok {username passwordHash : String} {id : ℕ}
    (h : insertAdmin username passwordHash totpSecret s = .ok (s₁, id)) :
    (∃ admins, s₁ = { s with admins }) ∧ (∀ a ∈ s.admins, a.id ≠ id) ∧
      (∀ a ∈ s.admins, noCase a.username ≠ noCase username) ∧
      ∀ a ∈ s₁.admins, a.id = id ∧ a.totpSecret = totpSecret ∧ a.username = username ∨
        a ∈ s.admins := by
  simp only [insertAdmin] at h
  split at h
  · cases h
  · rename_i hname
    split at h <;> cases h
    rename_i admins hins
    refine ⟨⟨admins, rfl⟩, fun a ha => ?_, fun a ha heq => ?_, fun a ha => ?_⟩
    · exact (lt_nextRowid (List.mem_map_of_mem ha)).ne
    · exact hname (any_iff.mpr ⟨a, ha, by simpa using heq⟩)
    · rcases (mem_insert? hins).mp ha with rfl | ha
      · exact .inl ⟨rfl, rfl, rfl⟩
      · exact .inr ha

/-- The store against the history of secrets and steps, with the first `m` secrets drawn. -/
structure TotpOk (rng : Entropy) (m : ℕ) (s : AuthStore) (log : List TotpEvent) : Prop where
  names : UsernamesUnique s
  secret : ∀ a ∈ s.admins, installedSecret a.id log = some a.totpSecret
  replay : ∀ id, ∀ k ∈ acceptedSince id log, ∃ row ∈ s.replay, row.adminId = id ∧ k ≤ row.lastStep
  installed_issued : ∀ id totpSecret, .installed id totpSecret ∈ log →
    ∃ j < m, totpSecret = rng.totpSecret j
  enrollment : ∀ e ∈ s.enrollments, (∃ j < m, e.totpSecret = rng.totpSecret j) ∧
    ∀ id, .installed id e.totpSecret ∉ log
  distinct : ∀ e ∈ s.enrollments, ∀ e' ∈ s.enrollments, e.totpSecret = e'.totpSecret → e = e'
  log_ok : TotpLogOk log

/-- `s'` has the administrators of `s` with their names and secrets, the same replay rows, and
no new enrollment. -/
structure KeepsTotp (s s' : AuthStore) : Prop where
  admins : ∀ a' ∈ s'.admins, ∃ a ∈ s.admins, a.id = a'.id ∧ a.username = a'.username ∧
    a.totpSecret = a'.totpSecret
  replay : s'.replay = s.replay
  enrollments : ∀ e ∈ s'.enrollments, e ∈ s.enrollments

theorem KeepsTotp.of_eq (hadms : s₁.admins = s.admins) (hreplay : s₁.replay = s.replay)
    (henr : ∀ e ∈ s₁.enrollments, e ∈ s.enrollments) : KeepsTotp s s₁ :=
  ⟨fun a ha => ⟨a, hadms ▸ ha, rfl, rfl, rfl⟩, hreplay, henr⟩

theorem KeepsTotp.refl (s : AuthStore) : KeepsTotp s s := .of_eq rfl rfl fun _ he => he

theorem KeepsTotp.trans (h : KeepsTotp s s₁) (h' : KeepsTotp s₁ s₂) : KeepsTotp s s₂ where
  admins a ha := by
    obtain ⟨b, hb, hid, hname, hsec⟩ := h'.admins a ha
    obtain ⟨c, hc, hid', hname', hsec'⟩ := h.admins b hb
    exact ⟨c, hc, hid'.trans hid, hname'.trans hname, hsec'.trans hsec⟩
  replay := h'.replay.trans h.replay
  enrollments e he := h.enrollments e (h'.enrollments e he)

theorem KeepsTotp.updateAdmin {f : Admin → Admin} {hf : ∀ a, (f a).id = a.id}
    (hname : ∀ a, (f a).username = a.username) (hsec : ∀ a, (f a).totpSecret = a.totpSecret) :
    KeepsTotp s (s.updateAdmin adminId f hf) where
  admins a' ha' := by
    obtain ⟨a, ha, rfl⟩ := (mem_updateWhere hf).mp ha'
    refine ⟨a, ha, ?_⟩
    split
    · exact ⟨(hf a).symm, (hname a).symm, (hsec a).symm⟩
    · exact ⟨rfl, rfl, rfl⟩
  replay := rfl
  enrollments _ he := he

theorem KeepsTotp.revoke (s : AuthStore) : KeepsTotp s (revokeAdminAuthState adminId s) :=
  .of_eq rfl rfl fun _ he => (mem_deleteWhere.mp he).1

theorem KeepsTotp.cleanup (now : Instant) (s : AuthStore) :
    KeepsTotp s (cleanupAdminMfaEnrollments now s) :=
  .of_eq rfl rfl fun _ he => (mem_deleteWhere.mp he).1

theorem KeepsTotp.deleteCredential (key : ℕ) (s : AuthStore) :
    KeepsTotp s (deleteCredential key adminId s) := .of_eq rfl rfl fun _ he => he

theorem TotpOk.mono (h : TotpOk rng m s log) {m' : ℕ} (hm : m ≤ m') : TotpOk rng m' s log :=
  { h with
    installed_issued := fun id totpSecret hmem => by
      obtain ⟨j, hj, hsec⟩ := h.installed_issued id totpSecret hmem
      exact ⟨j, hj.trans_le hm, hsec⟩
    enrollment := fun e he => by
      obtain ⟨⟨j, hj, hsec⟩, hnew⟩ := h.enrollment e he
      exact ⟨⟨j, hj.trans_le hm, hsec⟩, hnew⟩ }

theorem TotpOk.keep (h : TotpOk rng m s log) (hkeep : KeepsTotp s s₁) : TotpOk rng m s₁ log where
  names a ha b hb hname := by
    obtain ⟨a', ha', hid, hname', -⟩ := hkeep.admins a ha
    obtain ⟨b', hb', hid', hname'', -⟩ := hkeep.admins b hb
    rw [← hid, ← hid']
    exact h.names a' ha' b' hb' (by rw [hname', hname'', hname])
  secret a ha := by
    obtain ⟨a', ha', hid, -, hsec⟩ := hkeep.admins a ha
    rw [← hid, ← hsec]
    exact h.secret a' ha'
  replay := hkeep.replay ▸ h.replay
  installed_issued := h.installed_issued
  enrollment e he := h.enrollment e (hkeep.enrollments e he)
  distinct e he e' he' := h.distinct e (hkeep.enrollments e he) e' (hkeep.enrollments e' he')
  log_ok := h.log_ok

theorem adminTotpStepIsFresh_lt (h : adminTotpStepIsFresh adminId step s = true) :
    ∀ row ∈ s.replay, row.adminId = adminId → row.lastStep < step := by
  intro row hrow hid
  simp only [adminTotpStepIsFresh, Bool.and_eq_true, Bool.not_eq_true'] at h
  by_contra hge
  have hstale : s.replay.any (fun row => row.adminId = adminId && step ≤ row.lastStep) = true :=
    any_iff.mpr ⟨row, hrow, by simpa [hid] using hge⟩
  rw [hstale] at h
  exact absurd h.2 (by decide)

/-- Recording the acceptance of a step that the replay row already covers. -/
theorem TotpOk.recordAccepted (h : TotpOk rng m s log)
    (hcur : installedSecret adminId log = some totpSecret)
    (habove : ∀ k ∈ acceptedSince adminId log, k < step)
    (hrow : ∃ row ∈ s.replay, row.adminId = adminId ∧ step ≤ row.lastStep) :
    TotpOk rng m s (.accepted adminId totpSecret step :: log) := by
  refine { h with replay := ?_, installed_issued := ?_, enrollment := ?_, log_ok := ?_ }
  · intro id k hk
    simp only [acceptedSince] at hk
    split at hk
    · rename_i hid
      subst id
      rcases List.mem_cons.mp hk with rfl | hk
      · exact hrow
      · exact h.replay adminId k hk
    · exact h.replay id k hk
  · intro id secret hmem
    exact h.installed_issued id secret (by simpa using hmem)
  · intro e he
    exact ⟨(h.enrollment e he).1, fun id hmem => (h.enrollment e he).2 id (by simpa using hmem)⟩
  · exact ⟨hcur, habove, h.log_ok⟩

/-- Consuming a step of the installed secret. -/
theorem TotpOk.accept (h : TotpOk rng m s log)
    (hcons : consumeAdminTotpStep adminId step s = some s₁)
    (hcur : installedSecret adminId log = some totpSecret) :
    TotpOk rng m s₁ (.accepted adminId totpSecret step :: log) := by
  obtain ⟨hfr, rfl⟩ := consumeAdminTotpStep_some hcons
  have hbelow := adminTotpStepIsFresh_lt hfr
  have hraise : TotpOk rng m { s with replay := s.replay.upsert ⟨adminId, step⟩ } log := by
    refine { h with replay := fun id k hk => ?_ }
    obtain ⟨row, hrow, hid, hle⟩ := h.replay id k hk
    by_cases hadm : row.adminId = adminId
    · exact ⟨⟨adminId, step⟩, mem_upsert.mpr (.inl rfl), hadm.symm.trans hid,
        hle.trans (hbelow row hrow hadm).le⟩
    · exact ⟨row, mem_upsert.mpr (.inr ⟨hrow, hadm⟩), hid, hle⟩
  refine hraise.recordAccepted hcur (fun k hk => ?_)
    ⟨⟨adminId, step⟩, mem_upsert.mpr (.inl rfl), rfl, le_rfl⟩
  obtain ⟨row, hrow, hid, hle⟩ := h.replay adminId k hk
  exact hle.trans_lt (hbelow row hrow hid)

/-- Installing a secret that was never installed before. -/
theorem TotpOk.install (h : TotpOk rng m s log) (hiss : ∃ j < m, totpSecret = rng.totpSecret j)
    (hnew : ∀ id, .installed id totpSecret ∉ log)
    (hnames : UsernamesUnique s₁)
    (hadms : ∀ a ∈ s₁.admins, a.id = adminId ∧ a.totpSecret = totpSecret ∨
      a.id ≠ adminId ∧ a ∈ s.admins)
    (hreplay : ∀ row ∈ s.replay, row.adminId ≠ adminId → row ∈ s₁.replay)
    (henr : ∀ e ∈ s₁.enrollments, e ∈ s.enrollments ∧ e.totpSecret ≠ totpSecret) :
    TotpOk rng m s₁ (.installed adminId totpSecret :: log) where
  names := hnames
  secret a ha := by
    rcases hadms a ha with ⟨hid, hsec⟩ | ⟨hid, ha⟩
    · simp [installedSecret, hid, hsec]
    · simpa [installedSecret, Ne.symm hid] using h.secret a ha
  replay id k hk := by
    simp only [acceptedSince] at hk
    split at hk
    · cases hk
    · obtain ⟨row, hrow, hid, hle⟩ := h.replay id k hk
      exact ⟨row, hreplay row hrow (hid ▸ Ne.symm ‹_›), hid, hle⟩
  installed_issued id secret hmem := by
    rcases List.mem_cons.mp hmem with heq | hmem
    · cases heq
      exact hiss
    · exact h.installed_issued id secret hmem
  enrollment e he := by
    obtain ⟨he, hne⟩ := henr e he
    refine ⟨(h.enrollment e he).1, fun id hmem => ?_⟩
    rcases List.mem_cons.mp hmem with heq | hmem
    · cases heq
      exact hne rfl
    · exact (h.enrollment e he).2 id hmem
  distinct e he e' he' := h.distinct e (henr e he).1 e' (henr e' he').1
  log_ok := ⟨hnew, h.log_ok⟩

/-- The next secret was never installed and is not pending. -/
theorem TotpOk.secret_fresh (hrng : rng.NeverRepeats) (h : TotpOk rng m s log) :
    (∀ id, .installed id (rng.totpSecret m) ∉ log) ∧
      ∀ e ∈ s.enrollments, e.totpSecret ≠ rng.totpSecret m := by
  constructor
  · intro id hmem
    obtain ⟨j, hj, heq⟩ := h.installed_issued id _ hmem
    exact hj.ne (hrng.secrets heq).symm
  · intro e he heq
    obtain ⟨⟨j, hj, heq'⟩, -⟩ := h.enrollment e he
    exact hj.ne (hrng.secrets (heq'.symm.trans heq))

theorem TotpOk.replaceTotpSecret (hrng : rng.NeverRepeats) (h : TotpOk rng m s log) (id : ℕ) :
    TotpOk rng (m + 1) (replaceTotpSecret id (rng.totpSecret m) s)
      (.installed id (rng.totpSecret m) :: log) := by
  obtain ⟨hnew, hpend⟩ := h.secret_fresh hrng
  refine (h.mono (Nat.le_succ m)).install ⟨m, Nat.lt_succ_self m, rfl⟩ hnew
    (h.names.updateAdmin (by intros; rfl) (by intros; rfl)) (fun a ha => ?_)
    (fun row hrow hne => ?_) fun e he => ⟨he, hpend e he⟩
  · obtain ⟨b, hb, rfl⟩ := (mem_updateWhere).mp ha
    by_cases hid : b.id = id
    · exact .inl (by simp [hid, Admin.withTotpSecret])
    · exact .inr (by simp [hid, hb])
  · exact mem_deleteWhere.mpr ⟨hrow, by simpa using hne⟩

theorem TotpOk.insertAdmin {username passwordHash : String} {id : ℕ} (hrng : rng.NeverRepeats)
    (h : TotpOk rng m s log)
    (hins : insertAdmin username passwordHash (rng.totpSecret m) s = .ok (s₁, id)) :
    TotpOk rng (m + 1) s₁ (.installed id (rng.totpSecret m) :: log) := by
  obtain ⟨hnew, hpend⟩ := h.secret_fresh hrng
  obtain ⟨⟨admins, rfl⟩, hid, hname, hadms⟩ := insertAdmin_ok hins
  refine (h.mono (Nat.le_succ m)).install ⟨m, Nat.lt_succ_self m, rfl⟩ hnew ?_ (fun a ha => ?_)
    (fun row hrow _ => hrow) fun e he => ⟨he, hpend e he⟩
  · intro a ha b hb heq
    rcases hadms a ha with ⟨ha, -, hauser⟩ | ha <;> rcases hadms b hb with ⟨hb, -, hbuser⟩ | hb
    · exact ha.trans hb.symm
    · exact absurd (heq.symm.trans (hauser ▸ rfl)) (hname b hb)
    · exact absurd (heq.trans (hbuser ▸ rfl)) (hname a ha)
    · exact h.names a ha b hb heq
  · rcases hadms a ha with ⟨ha, hsec, -⟩ | ha
    · exact .inl ⟨ha, hsec⟩
    · exact .inr ⟨hid a ha, ha⟩

/-- Activating a pending enrollment installs its secret and accepts the confirmed step. -/
theorem TotpOk.activate (h : TotpOk rng m s log) {row : MfaEnrollment} (hrow : row ∈ s.enrollments)
    (hid : row.adminId = adminId) (now : Instant) (step : ℕ) :
    TotpOk rng m (revokeAdminAuthState adminId
        ((cleanupAdminMfaEnrollments now s).installConfirmed adminId row.totpSecret step))
      (.accepted adminId row.totpSecret step :: .installed adminId row.totpSecret :: log) := by
  obtain ⟨hiss, hnew⟩ := h.enrollment row hrow
  have hinstall : TotpOk rng m (revokeAdminAuthState adminId
      ((cleanupAdminMfaEnrollments now s).installConfirmed adminId row.totpSecret step))
      (.installed adminId row.totpSecret :: log) := by
    refine h.install hiss hnew (h.names.updateAdmin (by intros; rfl) (by intros; rfl))
      (fun a ha => ?_) (fun row hrow hne => mem_upsert.mpr (.inr ⟨hrow, hne⟩))
      fun e he => ?_
    · obtain ⟨b, hb, rfl⟩ := (mem_updateWhere).mp ha
      by_cases hid : b.id = adminId
      · exact .inl (by simp [hid, Admin.withTotpSecret])
      · exact .inr (by rw [if_neg (by simpa using hid)]; exact ⟨hid, hb⟩)
    · obtain ⟨he, hne⟩ := mem_deleteWhere.mp he
      have he : e ∈ s.enrollments := (mem_deleteWhere.mp he).1
      refine ⟨he, fun hsec => ?_⟩
      cases h.distinct e he row hrow hsec
      simp [hid] at hne
  exact hinstall.recordAccepted (by simp [installedSecret]) (by simp [acceptedSince])
    ⟨⟨adminId, step⟩, mem_upsert.mpr (.inl rfl), rfl, le_rfl⟩

/-- Starting an enrollment accepts a step of the installed secret and stores a new one. -/
theorem TotpOk.startEnrollment (hrng : rng.NeverRepeats) (h : TotpOk rng m s log)
    {row : MfaEnrollment} (hsec : row.totpSecret = rng.totpSecret m) :
    TotpOk rng (m + 1) { s with enrollments := s.enrollments.upsert row } log := by
  obtain ⟨hnew, hpend⟩ := h.secret_fresh hrng
  have hlat := h.mono (Nat.le_succ m)
  refine { hlat with enrollment := fun e he => ?_, distinct := fun e he e' he' heq => ?_ }
  · rcases mem_upsert.mp he with rfl | ⟨he, -⟩
    · exact ⟨⟨m, Nat.lt_succ_self m, hsec⟩, hsec ▸ hnew⟩
    · exact hlat.enrollment e he
  · rcases mem_upsert.mp he with he | ⟨he, -⟩ <;>
      rcases mem_upsert.mp he' with he' | ⟨he', -⟩
    · exact he.trans he'.symm
    · exact absurd (heq.symm.trans (he ▸ hsec)) (hpend e' he')
    · exact absurd (heq.trans (he' ▸ hsec)) (hpend e he)
    · exact h.distinct e he e' he' heq

end Stores

section Effects

variable {rng : Entropy} {m : ℕ} {s : AuthStore} {log : List TotpEvent} {effect : AccountEffect}

/-- A transaction keeps the store in step with the history it reports. -/
def TotpStep (rng : Entropy) (m : ℕ) (log : List TotpEvent) (effect : AccountEffect) : Prop :=
  TotpOk rng (m + 1) effect.store (effect.totp ++ log)

theorem TotpOk.plain (h : TotpOk rng m s log) {s₁ : AuthStore} (hkeep : KeepsTotp s s₁)
    {revoked : Option ℕ} {started : Option MfaEnrollment} :
    TotpStep rng m log ⟨s₁, revoked, started, []⟩ :=
  (h.mono (Nat.le_succ m)).keep hkeep

theorem TotpOk.recoverAdmin {username : String} {passwordHash : Option String} {resetMfa : Bool}
    (hrng : rng.NeverRepeats) (h : TotpOk rng m s log)
    (heff : recoverAdminEffect (rng.totpSecret m) s username passwordHash resetMfa =
      .ok effect) : TotpStep rng m log effect := by
  obtain rfl | ⟨id, rfl⟩ := recoverAdminEffect_cases heff
  · exact h.plain (.refl s)
  · have hpw : KeepsTotp s (s.updateAdmin id fun admin =>
        { admin with passwordHash := passwordHash.getD admin.passwordHash }) :=
      .updateAdmin (by intros; rfl) (by intros; rfl)
    cases resetMfa with
    | false => exact h.plain (hpw.trans (.revoke _))
    | true => exact ((h.keep hpw).replaceTotpSecret hrng id).keep (.revoke _)

theorem TotpOk.createInitialAdmin {username passwordHash : String} (hrng : rng.NeverRepeats)
    (h : TotpOk rng m s log)
    (heff : createInitialAdminEffect (rng.totpSecret m) s username passwordHash = .ok effect) :
    TotpStep rng m log effect := by
  obtain rfl | ⟨s₁, id, hins, rfl⟩ := createInitialAdminEffect_cases heff
  · exact h.plain (.refl s)
  · exact h.insertAdmin hrng hins

/-- The closures of the fence, for a request whose rows are what the store still holds. -/
theorem TotpOk.change {tokenHash : String} {request : Request} (hrng : rng.NeverRepeats)
    (h : TotpOk rng m s log)
    (hchange : AccountChange tokenHash (rng.totpSecret m) request s effect)
    (hadm : ∀ a, request.admin = some a →
      installedSecret request.view.adminId log = some a.totpSecret)
    (hchecked : ∀ c, request.enrollment = some c →
      ∀ e ∈ s.enrollments, e.tokenHash = c.1 → e.totpSecret = c.2) :
    TotpStep rng m log effect := by
  have hlat := h.mono (Nat.le_succ m)
  cases hchange with
  | nothing => exact h.plain (.refl s)
  | cleaned now => exact h.plain (.cleanup now s)
  | password | deactivated =>
    exact h.plain (.trans (.updateAdmin (by intros; rfl) (by intros; rfl)) (.revoke _))
  | secret id => exact (h.replaceTotpSecret hrng id).keep (.revoke _)
  | started hloa hcons _ hsec =>
    exact ((h.keep (.cleanup _ s)).accept hcons (hadm _ hloa)).startEnrollment hrng hsec
  | confirmed now step hloa hrow hid htok =>
    have hsec := hchecked _ hloa _ hrow htok
    rw [TotpStep, ← hsec]
    exact hlat.activate hrow hid now step
  | keyDeletedWithTotp id hloa hcons =>
    exact (hlat.accept hcons (hadm _ hloa)).keep
      (.trans (.deleteCredential id _) (.revoke _))
  | keyDeleted id => exact h.plain (.trans (.deleteCredential id s) (.revoke _))
  | totpEnabled | activated => exact h.plain (.updateAdmin (by intros; rfl) (by intros; rfl))
  | totpDisabled hloa hcons =>
    exact (hlat.accept hcons (hadm _ hloa)).keep
      (.updateAdmin (by intros; rfl) (by intros; rfl))
  | revoked => exact h.plain (.revoke s)
  | created hinse => exact h.insertAdmin hrng hinse
  | @keyAdded _ credentials =>
    have hkeep : KeepsTotp s { s with credentials } := .of_eq rfl rfl fun _ he => he
    exact h.plain hkeep

end Effects

section Requests

variable {rng : Entropy} {t n m : ℕ} {σ : AuthServer} {s : AuthStore}

/-- What the requests in flight know: the administrator row they read has the current secret
unless a revocation came after they presented their session, and the enrollment secret they
read is the one its token was issued for. -/
structure RequestsOk (σ : AuthServer) : Prop where
  loaded : ∀ q ∈ σ.requests, ∀ a, q.admin = some a → a.id = q.view.adminId ∧
    ((∃ b ∈ σ.store.admins, b.id = a.id ∧ b.totpSecret = a.totpSecret) ∨
      ∃ v ∈ σ.revocations, v.adminId = a.id ∧ q.presentedAt ≤ v.time)
  checked : ∀ q ∈ σ.requests, ∀ c, q.enrollment = some c →
    ∃ r ∈ σ.enrolled, r.tokenHash = c.1 ∧ r.totpSecret = c.2

structure TotpInv (rng : Entropy) (t n m : ℕ) (σ : AuthServer) : Prop where
  revocation : RevocationInv rng t n σ
  totp : TotpOk rng m σ.store σ.totp
  requests : RequestsOk σ

theorem RequestsOk.commit (h : RequestsOk σ) (hrev : RevocationInv rng σ.time n σ)
    {tokenHash : String} {effect : AccountEffect} (hstep : AccountStep σ.store tokenHash effect) :
    RequestsOk (σ.commit effect) where
  loaded q hq a ha := by
    obtain ⟨hid, ⟨b, hb, hbid, hsec⟩ | ⟨v, hv, hvid, htime⟩⟩ := h.loaded q hq a ha
    · obtain ⟨b', hb', hbid', -, hsame⟩ := hstep.admins b hb
      refine ⟨hid, ?_⟩
      by_cases hrevo : effect.revoked = some b.id
      · refine .inr ⟨⟨b.id, σ.time⟩, ?_, hbid, (hrev.request q hq).1.le⟩
        exact List.mem_append_left _ (by simp [hrevo])
      · exact .inl ⟨b', hb', hbid'.trans hbid, (hsame hrevo).2.1.trans hsec⟩
    · exact ⟨hid, .inr ⟨v, List.mem_append_right _ hv, hvid, htime⟩⟩
  checked q hq c hc := by
    obtain ⟨r, hr, hrest⟩ := h.checked q hq c hc
    exact ⟨r, List.mem_append_right _ hr, hrest⟩

/-- While the session a request presented is stored, the secret it read is installed. -/
theorem TotpInv.secret_current (h : TotpInv rng t n m σ) {q : Request} (hq : q ∈ σ.requests)
    {x : Session} (hx : x ∈ σ.store.sessions) (htok : x.tokenHash = q.tokenHash) {a : Admin}
    (ha : q.admin = some a) : installedSecret q.view.adminId σ.totp = some a.totpSecret := by
  obtain ⟨hid, ⟨b, hb, hbid, hsec⟩ | ⟨v, hv, hvid, htime⟩⟩ := h.requests.loaded q hq a ha
  · rw [← hsec, ← hid, ← hbid]
    exact h.totp.secret b hb
  · -- a revocation after the presentation would have deleted the session
    obtain ⟨-, ⟨r, hr, hrto, hrad, hbef⟩, -⟩ := h.revocation.request q hq
    obtain ⟨r', hr', hrto', hrad', hyou, -⟩ := h.revocation.session x hx
    cases h.revocation.login_unique r' hr' r hr (by rw [hrto', hrto, htok])
    have := hyou v hv (by rw [hvid, hid, ← hrad, hrad'])
    omega

theorem TotpInv.enrollment_checked (h : TotpInv rng t n m σ) {q : Request} (hq : q ∈ σ.requests)
    {c : String × String} (hc : q.enrollment = some c) {e : MfaEnrollment}
    (he : e ∈ σ.store.enrollments) (htok : e.tokenHash = c.1) : e.totpSecret = c.2 := by
  obtain ⟨r, hr, hrto, hrsecret⟩ := h.requests.checked q hq c hc
  obtain ⟨r', hr', hrto', -, hrsecret', -⟩ := h.revocation.enrollment e he
  cases h.revocation.enrolled_unique r' hr' r hr (by rw [hrto', hrto, htok])
  exact hrsecret'.symm.trans hrsecret

theorem RequestsOk.of_admins (h : RequestsOk σ) (hadms : s.admins = σ.store.admins) :
    RequestsOk { σ with store := s } where
  loaded := hadms ▸ h.loaded
  checked := h.checked

theorem RequestsOk.loadAdmin (h : RequestsOk σ) (hrev : RevocationInv rng t n σ)
    (hnames : UsernamesUnique σ.store) (i : ℕ) :
    RequestsOk { σ with
      requests := σ.requests.modify i fun request =>
        { request with admin := σ.store.admin request.view.username } } where
  loaded q hq a ha := by
    obtain ⟨q', hq', rfl | rfl⟩ := mem_modify_cases hq
    · exact h.loaded _ hq' a ha
    · have hmem : a ∈ σ.store.admins := List.mem_of_find?_eq_some ha
      have hname : noCase a.username = noCase q'.view.username := by
        have hfound := List.find?_some ha
        simp only [Bool.and_eq_true, decide_eq_true_eq] at hfound
        exact hfound.1
      obtain ⟨-, -, b, hb, hbid, hbname⟩ := hrev.request q' hq'
      exact ⟨(hnames a hmem b hb (by rw [hname, hbname])).trans hbid, .inl ⟨a, hmem, rfl, rfl⟩⟩
  checked q hq c hc := by
    obtain ⟨q', hq', rfl | rfl⟩ := mem_modify_cases hq
    · exact h.checked _ hq' c hc
    · exact h.checked q' hq' c hc

theorem RequestsOk.loadEnrollment (h : RequestsOk σ) (i : ℕ) {checked : Option (String × String)}
    (hchecked : ∀ c, checked = some c → ∃ r ∈ σ.enrolled, r.tokenHash = c.1 ∧ r.totpSecret = c.2) :
    RequestsOk { σ with
      requests := σ.requests.modify i fun request => { request with enrollment := checked } } where
  loaded q hq a ha := by
    obtain ⟨q', hq', rfl | rfl⟩ := mem_modify_cases hq
    · exact h.loaded _ hq' a ha
    · exact h.loaded q' hq' a ha
  checked q hq c hc := by
    obtain ⟨q', hq', rfl | rfl⟩ := mem_modify_cases hq
    · exact h.checked _ hq' c hc
    · exact hchecked c hc

theorem AuthStore.pendingEnrollment_some {now : Instant} {adminId : ℕ} {tokenHash : String}
    {row : MfaEnrollment} (h : s.pendingEnrollment now adminId tokenHash = some row) :
    row ∈ s.enrollments ∧ row.tokenHash = tokenHash := by
  obtain ⟨h, -⟩ := Option.filter_eq_some_iff.mp h
  obtain ⟨h, hmatches⟩ := Option.filter_eq_some_iff.mp h
  simp only [Bool.and_eq_true, decide_eq_true_eq] at hmatches
  exact ⟨(find?_eq_some_iff.mp h).1, hmatches.1⟩

end Requests

section Runs

variable {rng : Entropy} {σ : AuthServer}

theorem TotpInv.commitResult {n m : ℕ} (h : TotpInv rng σ.time n m σ)
    (tokenHash : String) {result : Except DbError AccountEffect}
    (haccount : ∀ effect, result = .ok effect → AccountStep σ.store tokenHash effect)
    (htotp : ∀ effect, result = .ok effect → TotpStep rng m σ.totp effect) :
    TotpOk rng (m + 1) (σ.commitResult result).store (σ.commitResult result).totp ∧
      RequestsOk (σ.commitResult result) := by
  cases result with
  | error => exact ⟨h.totp.mono (Nat.le_succ m), h.requests⟩
  | ok effect =>
    exact ⟨htotp effect rfl, h.requests.commit h.revocation (haccount effect rfl)⟩

theorem TotpInv.perform (hrng : rng.NeverRepeats)
    (h : TotpInv rng σ.time σ.tokensDrawn σ.secretsDrawn σ) (event : AuthEvent) :
    TotpOk rng (σ.secretsDrawn + 1) (σ.perform rng event).store (σ.perform rng event).totp ∧
      RequestsOk (σ.perform rng event) := by
  have hlat := h.totp.mono (Nat.le_succ σ.secretsDrawn)
  have hunch := And.intro hlat h.requests
  cases event with simp only [AuthServer.perform]
  | createInitialAdmin =>
    exact h.commitResult (σ.nextToken rng) (fun _ => createInitialAdminEffect_step)
      fun _ => h.totp.createInitialAdmin hrng
  | recoverAdmin =>
    exact h.commitResult (σ.nextToken rng) (fun _ => recoverAdminEffect_step)
      fun _ => h.totp.recoverAdmin hrng
  | login adminId verifiedHash csrf expires clock =>
    split
    · exact hunch
    all_goals
      rename_i hcreate
      obtain ⟨⟨sessions, rfl⟩, -, -⟩ := createSessionForVerifiedPassword_ok hcreate
      exact ⟨hlat.keep (.of_eq rfl rfl fun _ he => he), { h.requests.of_admins rfl with }⟩
  | present =>
    split
    · exact hunch
    · refine ⟨hlat, fun q hq a ha => ?_, fun q hq c hc => ?_⟩
      · rcases List.mem_append.mp hq with hq | hq
        · exact h.requests.loaded q hq a ha
        · cases List.mem_singleton.mp hq
          cases ha
      · rcases List.mem_append.mp hq with hq | hq
        · exact h.requests.checked q hq c hc
        · cases List.mem_singleton.mp hq
          cases hc
  | touch | expire | logout =>
    exact ⟨hlat.keep (.of_eq rfl rfl fun _ he => he), h.requests.of_admins rfl⟩
  | loadAdmin i => exact ⟨hlat, h.requests.loadAdmin h.revocation h.totp.names i⟩
  | loadEnrollment i tokenHash now =>
    split
    · exact hunch
    · have hcleaned : RequestsOk { σ with store := cleanupAdminMfaEnrollments now σ.store } :=
        h.requests.of_admins rfl
      refine ⟨hlat.keep (.cleanup now σ.store), hcleaned.loadEnrollment i fun c hc => ?_⟩
      obtain ⟨secret, hsec, rfl⟩ := Option.map_eq_some_iff.mp hc
      obtain ⟨row, hrow, rfl⟩ := Option.map_eq_some_iff.mp hsec
      obtain ⟨hmem, rfl⟩ := AuthStore.pendingEnrollment_some hrow
      obtain ⟨r, hr, htok, -, hsec, -⟩ :=
        h.revocation.enrollment row (mem_deleteWhere.mp hmem).1
      exact ⟨r, hr, htok, hsec⟩
  | submitTotp i step csrf clock =>
    split
    · exact hunch
    rename_i request hreq
    split
    · exact hunch
    rename_i admin hloa
    split
    · rename_i s' hverify
      obtain ⟨x, hx, htok, -, -, s₁, sessions, hcons, rfl⟩ :=
        verifyMfaWithTotpStep_accepted hverify
      have hcur := h.secret_current (List.mem_of_getElem? hreq) hx htok
        (Option.filter_eq_some_iff.mp hloa).1
      have hadms : s₁.admins = σ.store.admins := by
        rw [(consumeAdminTotpStep_some hcons).2]
      exact ⟨(hlat.accept hcons hcur).keep (.of_eq rfl rfl fun _ he => he),
        { RequestsOk.of_admins (s := { s₁ with sessions }) h.requests hadms with }⟩
    · rename_i s' hverify
      rw [verifyMfaWithTotpStep_rejected hverify]
      exact hunch
    · exact hunch
  | submitWebauthn i credentialId expectedBlob updatedBlob csrf clock =>
    split
    · exact hunch
    split
    · rename_i s' hcomplete
      obtain ⟨x, hx, -, -, sessions, credentials, rfl⟩ := completeWebauthnMfa_accepted hcomplete
      exact ⟨hlat.keep (.of_eq rfl rfl fun _ he => he), { h.requests.of_admins rfl with }⟩
    · rename_i s' hcomplete
      rw [completeWebauthnMfa_rejected hcomplete]
      exact hunch
    · exact hunch
  | fenced i op clock =>
    split
    · exact hunch
    rename_i request hreq
    split
    · exact hunch
    split
    · exact hunch
    rename_i closure hclos
    split_ifs with hlive
    · obtain ⟨x, hx, htok, -⟩ := liveMfaSession_some hlive
      have hmem := List.mem_of_getElem? hreq
      obtain ⟨htotp, hrequests⟩ := h.commitResult (σ.nextToken rng)
        (fun _ heff => (FencedOp.closure_change hclos heff).step)
        fun _ heff => h.totp.change hrng (FencedOp.closure_change hclos heff)
          (fun _ ha => h.secret_current hmem hx htok ha)
          fun _ hc _ he => h.enrollment_checked hmem hc he
      exact ⟨htotp, { hrequests with }⟩
    · exact hunch

theorem TotpInv.initial : TotpInv rng 0 0 0 AuthServer.initial where
  revocation := .initial
  totp := by
    constructor
    case log_ok => trivial
    case replay => intro _ _ h; cases h
    case installed_issued => intro _ _ h; cases h
    all_goals intro _ h; exact absurd h List.not_mem_nil
  requests := by constructor <;> intro _ h <;> exact absurd h List.not_mem_nil

theorem TotpInv.reachable (hrng : rng.NeverRepeats) (events : List AuthEvent) :
    TotpLogOk (AuthServer.initial.run rng events).totp :=
  (AuthServer.run_invariant rng
    (P := fun σ => TotpInv rng σ.time σ.tokensDrawn σ.secretsDrawn σ) TotpInv.initial
    (fun _ event h =>
      have hperform := h.perform hrng event
      ⟨{ h.revocation.perform hrng event with }, hperform.1, { hperform.2 with }⟩)
    events).totp.log_ok

/-- In every run of interleaved requests and recoveries, at every moment: the steps accepted
for an administrator since a secret was installed increase strictly, no pair of a secret and
a step is accepted twice, and a step is only accepted while the secret its code was checked
against is the installed one. -/
theorem totp_steps_accepted_once (rng : Entropy) (hrng : rng.NeverRepeats)
    (events : List AuthEvent) :
    let log := (AuthServer.initial.run rng events).totp
    (∀ adminId older, older <:+ log → (acceptedSince adminId older).Pairwise (· > ·)) ∧
    (acceptedPairs log).Nodup ∧
    ∀ adminId totpSecret step older, .accepted adminId totpSecret step :: older <:+ log →
      installedSecret adminId older = some totpSecret := by
  intro log
  have hok : TotpLogOk log := TotpInv.reachable hrng events
  exact ⟨fun adminId older hsuf => (hok.suffix hsuf).increasing adminId,
    hok.acceptedPairs_nodup, fun _ _ _ _ hsuf => (hok.suffix hsuf).1⟩

/-- A TOTP login at step 5, an enrollment started at step 6 and activated at step 3 of the new
secret. -/
def enrollmentRun : List AuthEvent :=
  let clock : ClockReading := ⟨0, 30⟩
  [.createInitialAdmin "root" "hash", .login 1 "hash" "csrf" 100 clock, .present "t" clock,
    .loadAdmin 0, .submitTotp 0 5 "csrf" clock, .present "tttt" clock, .loadAdmin 1,
    .fenced 1 (.startEnrollment 0 6) clock, .loadEnrollment 1 "ttttttt" 0,
    .fenced 1 (.activateEnrollment 0 3) clock]

theorem totp_steps_accepted_once_enrollment :
    let log := (AuthServer.initial.run unaryEntropy enrollmentRun).totp
    log = [.accepted 1 "sssssss" 3, .installed 1 "sssssss", .accepted 1 "" 6, .accepted 1 "" 5,
      .installed 1 ""] ∧
      (acceptedSince 1 log.tail.tail).Pairwise (· > ·) ∧ (acceptedPairs log).Nodup := by
  intro log
  have honce := totp_steps_accepted_once unaryEntropy unaryEntropy_neverRepeats enrollmentRun
  have hsuf : log.tail.tail <:+ log := (List.tail_suffix _).trans (List.tail_suffix _)
  exact ⟨by decide, honce.1 1 _ hsuf, honce.2.1⟩

end Runs

end VaultLink
