import VaultLink.CrashSafety

/-!
# Rules for the system calls

One rule for each call, in the environments the protocols tolerate: a call may fail without
effect, but `fsync` never fails, nor does removing a journal temporary, and no call takes
effect while it reports an error.
-/
namespace VaultLink

open Mutation
open WriteBack (replay survive settle flush)

section Environments

/-- The calls whose failure the protocols tolerate. -/
def mayFail : Syscall → Bool
  | .syncFile _ | .syncDirectory _ => false
  | .unlink (.operationTemporary _) => false
  | _ => true

structure Tolerated (env : Environment) : Prop where
  no_loss : ∀ time syscall kind, env.fault time syscall ≠ .loses kind
  may_fail : ∀ time syscall, env.fault time syscall = .fails → mayFail syscall = true

end Environments

section Safe

variable {hide : Location → Bool} {env : Environment} {𝒞 : FileMap → Store → Prop}
  {ε α : Type} {w : World}

/-- The action ends in `Q` or in `E`, and a power loss leaves a state of the class. -/
def Safe (hide : Location → Bool) (env : Environment) (𝒞 : FileMap → Store → Prop)
    (m : Action Environment World ε α) (w : World) (Q : α → World → Prop)
    (E : ε → World → Prop) : Prop :=
  Action.Meets m env w Q E fun w' => ∃ g s, Holds hide w' g [] s ∧ 𝒞 g s

variable {m : Action Environment World ε α} {Q Q' : α → World → Prop} {E E' : ε → World → Prop}

namespace Safe

theorem mono (h : Safe hide env 𝒞 m w Q E) (hQ : ∀ a w', Q a w' → Q' a w')
    (hE : ∀ e w', E e w' → E' e w') : Safe hide env 𝒞 m w Q' E' :=
  Action.Meets.mono h hQ hE fun _ h => h

/-- A larger class of states. -/
theorem enlarge {𝒞' : FileMap → Store → Prop} (h : Safe hide env 𝒞 m w Q E)
    (hsub : ∀ g s, 𝒞 g s → 𝒞' g s) : Safe hide env 𝒞' m w Q E :=
  Action.Meets.mono h (fun _ _ h => h) (fun _ _ h => h) fun _ ⟨g, s, hw, hclass⟩ =>
    ⟨g, s, hw, hsub g s hclass⟩

end Safe

/-- Whatever a power loss keeps of the log leaves a state of the class. -/
def Covered (𝒞 : FileMap → Store → Prop) (g : FileMap) (log : FileLog) (s : Store) : Prop :=
  ∀ mask, 𝒞 (survive act log mask g) s

theorem covered_nil {g : FileMap} {s : Store} : Covered 𝒞 g [] s ↔ 𝒞 g s :=
  ⟨fun h => h [], fun h _ => h⟩

theorem covered_one {g : FileMap} {s : Store} {mutation : Mutation} {targets : List SyncTarget} :
    Covered 𝒞 g [⟨mutation, targets⟩] s ↔
      (targets ≠ [] → 𝒞 g s) ∧ 𝒞 (mutation.act g) s := by
  constructor
  · intro h
    refine ⟨fun hne => ?_, ?_⟩
    · simpa [survive, hne] using h []
    · simpa [survive] using h [true]
  · rintro ⟨hkept, hdone⟩ mask
    cases targets with
    | nil => simpa [survive] using hdone
    | cons =>
      by_cases hmask : mask.headD false = true
      · simpa only [survive, hmask, Bool.or_true, if_true] using hdone
      · rw [Bool.not_eq_true] at hmask
        simpa only [survive, hmask, List.isEmpty_cons, Bool.or_false, Bool.false_eq_true,
          if_false] using hkept (by simp)

end Safe

theorem resolve_conceal {hide : Location → Bool}
    (hvis : ∀ directory name, hide (.visible directory name) = false) (forbidSymlinks : Bool)
    (f : FileMap) (path : List Text) :
    resolve forbidSymlinks (conceal hide f) path = resolve forbidSymlinks f path :=
  resolve_congr (fun directory name => conceal_apply (hvis directory name) f) forbidSymlinks path

section Rules

variable {hide : Location → Bool} {env : Environment} {𝒞 : FileMap → Store → Prop} {α : Type}
  {w : World} {g : FileMap} {log : FileLog} {s : Store}

/-- A call that proceeds does its effect; one that fails leaves everything as it was. -/
theorem call_safe {syscall : Syscall} {effect : World → Outcome World IoError α}
    {Q : α → World → Prop} {E : IoError → World → Prop} (hT : Tolerated env)
    (hw : Holds hide w g log s) (hc : Covered 𝒞 g log s)
    (hproceeds : ∀ w', w'.tokens = w.tokens → Holds hide w' g log s →
      (effect w').Ends Q E fun _ => False)
    (hfails : ∀ w', Holds hide w' g log s → mayFail syscall = true → E .injected w') :
    Safe hide env 𝒞 (call syscall effect) w Q E := by
  have hw' := hw.tick (w.clock + 1)
  unfold Safe Action.Meets call
  cases hfault : env.fault w.clock syscall with
  | proceeds =>
    have hdo := hproceeds { w with clock := w.clock + 1 } rfl hw'
    show (effect { w with clock := w.clock + 1 }).Ends Q E _
    cases heff : effect { w with clock := w.clock + 1 } <;> rw [heff] at hdo
    · exact hdo
    · exact hdo
    · exact hdo.elim
  | fails => exact hfails _ hw' (hT.may_fail _ _ hfault)
  | loses kind => exact absurd hfault (hT.no_loss _ _ kind)
  | crashes mask => exact ⟨_, _, hw'.powerLoss mask, hc mask⟩

variable (hT : Tolerated env) (hw : Holds hide w g log s)
  (hc : Covered 𝒞 g log s)

include hT hw hc

theorem duplicate_safe : Safe hide env 𝒞 duplicate w
    (fun _ w' => Holds hide w' g log s) (fun _ w' => Holds hide w' g log s) :=
  call_safe hT hw hc (fun _ _ hw' => hw') fun _ hw' _ => hw'

theorem beginTransaction_safe : Safe hide env 𝒞 beginTransaction w
    (fun _ w' => Holds hide w' g log s) (fun _ w' => Holds hide w' g log s) :=
  call_safe hT hw hc (fun _ _ hw' => hw') fun _ hw' _ => hw'

theorem commitTransaction_safe (db : Store) : Safe hide env 𝒞 (commitTransaction db) w
    (fun _ w' => Holds hide w' g log db)
    (fun _ w' => Holds hide w' g log s) :=
  call_safe hT hw hc (fun _ _ hw' => hw'.setDb db) fun _ hw' _ => hw'

theorem bindDirectory_safe (hvis : ∀ directory name, hide (.visible directory name) = false)
    (path : List Text) : Safe hide env 𝒞 (bindDirectory path) w
    (fun directory w' => Holds hide w' g log s ∧
      resolve env.forbidSymlinks (replay act log g) path = some directory)
    (fun _ w' => Holds hide w' g log s) := by
  refine call_safe hT hw hc (fun w' _ hw' => ?_) fun _ hw' _ => hw'
  have hview : resolve env.forbidSymlinks w'.view.map path =
      resolve env.forbidSymlinks (replay act log g) path := by
    rw [← hw'.view_map, resolve_conceal hvis]
  rw [hview]
  cases hresolve : resolve env.forbidSymlinks (replay act log g) path with
  | some => exact ⟨hw', rfl⟩
  | none => exact hw'

theorem openPath_safe {location : Location} (hloc : hide location = false) :
    Safe hide env 𝒞 (openPath location) w
    (fun entry w' => Holds hide w' g log s ∧
      replay act log g location = some entry)
    (fun error w' => Holds hide w' g log s ∧
      (error.kind = .notFound ∧ replay act log g location = none ∨ error.kind = .other)) := by
  refine call_safe hT hw hc (fun w' _ hw' => ?_) fun _ hw' _ => ⟨hw', .inr rfl⟩
  rw [hw'.lookup hloc]
  cases hent : replay act log g location with
  | some => exact ⟨hw', rfl⟩
  | none => exact ⟨hw', .inl ⟨rfl, rfl⟩⟩

theorem snapshotDirectoryNames_safe : Safe hide env 𝒞 snapshotDirectoryNames w
    (fun names w' => Holds hide w' g log s ∧ names.Nodup ∧
      ∀ name, hide (.staged name) = false →
        (name ∈ names ↔ (replay act log g (.staged name)).isSome = true))
    (fun _ w' => Holds hide w' g log s) := by
  refine call_safe hT hw hc (fun w' _ hw' => ?_) fun _ hw' _ => hw'
  have hmem : ∀ name, name ∈ w'.view.keys.filterMap Location.stagingName ↔
      (w'.view.map (.staged name)).isSome = true := by
    intro name
    rw [Namespace.map, AList.lookup_isSome, List.mem_filterMap]
    constructor
    · rintro ⟨location, hkey, hname⟩
      cases location with
      | visible | fragment => cases hname
      | staged =>
        cases hname
        exact hkey
    · exact fun hkey => ⟨_, hkey, rfl⟩
  refine ⟨hw', ?_, fun name hname => ?_⟩
  · refine w'.view.nodupKeys.filterMap ?_
    rintro (⟨_, _⟩ | _ | _) (⟨_, _⟩ | _ | _) n hn hn' <;>
      simp_all [Location.stagingName]
  · rw [hmem, ← hw'.lookup hname]
    rfl

/-- What reading a record file gives, if it can be read. -/
def recordContent : Option Entry → Option Content
  | some (.record content) => some content
  | some (.object _ .file) => some .incomplete
  | _ => none

theorem readRecord_safe {name : StagingName} (hname : hide (.staged name) = false)
    (what : String) : Safe hide env 𝒞 (readRecord name what) w
    (fun content w' => Holds hide w' g log s ∧
      recordContent (replay act log g (.staged name)) = some content)
    (fun _ w' => Holds hide w' g log s) := by
  refine call_safe hT hw hc (fun w' _ hw' => ?_) fun _ hw' _ => hw'
  rw [hw'.lookup hname]
  match replay act log g (.staged name) with
  | some (.record _) | some (.object _ .file) => exact ⟨hw', rfl⟩
  | none | some (.object _ .directory) | some (.object _ (.symlink _))
  | some (.object _ .special) => exact hw'

theorem createRecord_safe {name : StagingName} (hname : hide (.staged name) = false)
    (hdra : name.drawnBefore w.tokens) : Safe hide env 𝒞 (createRecord name) w
    (fun _ w' => Holds hide w' g (log ++ [⟨.create name, [.staging]⟩]) s ∧
      replay act log g (.staged name) = none)
    (fun error w' => Holds hide w' g log s ∧
      (error.kind = .alreadyExists → replay act log g (.staged name) ≠ none)) := by
  refine call_safe hT hw hc (fun w' htoks hw' => ?_) fun _ hw' _ =>
    ⟨hw', by simp [IoError.injected]⟩
  rw [hw'.lookup hname]
  cases replay act log g (.staged name) with
  | some => exact ⟨hw', by simp⟩
  | none =>
    refine ⟨hw'.mutate ?_ ?_, rfl⟩
    · simpa [touches] using hname
    · simpa [touches, htoks] using hdra

/-- Renaming within sight; the names must have been drawn. -/
theorem renameNoreplace_safe {source destination : Location} (hsrc : hide source = false)
    (hdst : hide destination = false)
    (hdra : ∀ name, destination = .staged name → name.drawnBefore w.tokens) :
    Safe hide env 𝒞 (renameNoreplace source destination) w
    (fun _ w' => Holds hide w' g (log ++
        [⟨.move source destination, [source.target, destination.target].dedup⟩]) s ∧
      replay act log g destination = none)
    (fun error w' => Holds hide w' g log s ∧
      (error.kind = .alreadyExists → replay act log g destination ≠ none)) := by
  refine call_safe hT hw hc (fun w' htoks hw' => ?_) fun _ hw' _ =>
    ⟨hw', by simp [IoError.injected]⟩
  rw [hw'.lookup hsrc, hw'.lookup hdst]
  cases hent : replay act log g source with
  | none => exact ⟨hw', by simp⟩
  | some =>
    cases replay act log g destination with
    | some => exact ⟨hw', by simp⟩
    | none => exact ⟨hw'.move hsrc hdst (by simp [hent]) (htoks ▸ hdra), rfl⟩

theorem renameReplace_safe {source destination : Location} (hsrc : hide source = false)
    (hdst : hide destination = false)
    (hdra : ∀ name, destination = .staged name → name.drawnBefore w.tokens) :
    Safe hide env 𝒞 (renameReplace source destination) w
    (fun _ w' => Holds hide w' g (log ++
        [⟨.move source destination, [source.target, destination.target].dedup⟩]) s)
    (fun _ w' => Holds hide w' g log s) := by
  refine call_safe hT hw hc (fun w' htoks hw' => ?_) fun _ hw' _ => hw'
  rw [hw'.lookup hsrc, hw'.lookup hdst]
  cases hent : replay act log g source with
  | none => exact hw'
  | some =>
    have hmoved := hw'.move hsrc hdst (by simp [hent]) (htoks ▸ hdra)
    match replay act log g destination with
    | none | some (.record _) | some (.object _ .file) | some (.object _ (.symlink _))
    | some (.object _ .special) => exact hmoved
    | some (.object identity .directory) => exact hw'

theorem unlink_safe {name : StagingName} (hname : hide (.staged name) = false) :
    Safe hide env 𝒞 (unlink name) w
    (fun _ w' => Holds hide w' g (log ++ [⟨.remove (.staged name), [.staging]⟩]) s)
    (fun error w' => Holds hide w' g log s ∧
      (error.kind = .notFound ∧ replay act log g (.staged name) = none ∨
        error.kind = .other ∧ (isDirectoryEntry (replay act log g (.staged name)) = true ∨
          mayFail (.unlink name) = true))) := by
  refine call_safe hT hw hc (fun w' _ hw' => ?_) fun _ hw' hmay =>
    ⟨hw', .inr ⟨rfl, .inr hmay⟩⟩
  rw [hw'.lookup hname]
  match hent : replay act log g (.staged name) with
  | none => exact ⟨hw', .inl ⟨rfl, rfl⟩⟩
  | some (.record _) | some (.object _ .file) | some (.object _ (.symlink _))
  | some (.object _ .special) => exact hw'.remove hname (by simp [hent])
  | some (.object identity .directory) => exact ⟨hw', .inr ⟨rfl, .inl rfl⟩⟩

theorem syncDirectory_safe (target : SyncTarget) : Safe hide env 𝒞 (syncDirectory target) w
    (fun _ w' => Holds hide w' (flush act (settle target log) g).base
        (flush act (settle target log) g).log s)
    (fun _ _ => False) :=
  call_safe hT hw hc (fun _ _ hw' => hw'.sync target)
    fun _ _ hmay => by simp [mayFail] at hmay

theorem writeRecord_safe {name : StagingName} (hname : hide (.staged name) = false)
    (hdra : name.drawnBefore w.tokens) (content : Content) :
    Safe hide env 𝒞 (writeRecord name content) w
    (fun _ w' => Holds hide w' g (log ++ [⟨.write name content, [.contents name]⟩]) s)
    (fun error w' => Holds hide w' g log s ∧ error = .injected) := by
  refine call_safe hT hw hc (fun w' htoks hw' => hw'.mutate ?_ ?_) fun _ hw' _ => ⟨hw', rfl⟩
  · simpa [touches] using hname
  · simpa [touches, htoks] using hdra

theorem syncFile_safe {name : StagingName} : Safe hide env 𝒞 (syncFile name) w
    (fun _ w' => Holds hide w' (flush act (settle (.contents name) log) g).base
        (flush act (settle (.contents name) log) g).log s)
    (fun _ _ => False) :=
  call_safe hT hw hc (fun _ _ hw' => hw'.sync (.contents name))
    fun _ _ hmay => by simp [mayFail] at hmay

omit hT hc in
theorem randomToken_safe : Safe hide env 𝒞 randomToken w
    (fun token w' => Holds hide w' g log s ∧ token = w.tokens ∧ w'.tokens = token + 1 ∧
      ∀ name, ¬name.drawnBefore token → w'.files.base.map (.staged name) = none)
    (fun _ _ => False) :=
  ⟨hw.draw, rfl, rfl, fun name hname => (hw.fresh name hname).1⟩

end Rules

end VaultLink
