import VaultLink.FileOperations
import VaultLink.SyscallRules

/-!
# What private staging may hold

Calls may fail, lose their answer or be cut off by a power loss, in any combination. What
stays true of private staging all the same is `Lawful`: a name belongs to a token that was
drawn. `Surely` says so of everything that a power loss may leave.

`Steady` describes a world by the files in sight. There is one rule for each system call, for
arbitrary environments, and what is kept out of sight is that the world stays sound.
-/
namespace VaultLink

open Mutation

section Surely

/-- The property holds of the files as they are, and of what a power loss may leave of them. -/
def World.Surely (w : World) (P : FileMap → Prop) : Prop :=
  ∀ files, w.files.Survivor apply files → P (Namespace.map files)

namespace World.Surely

variable {w : World} {P Q : FileMap → Prop} {mutation : Mutation} {target : SyncTarget}

theorem view (h : w.Surely P) : P w.view.map :=
  h _ (WriteBack.survivor_view apply w.files)

theorem mono (h : w.Surely P) (hPQ : ∀ g, P g → Q g) : w.Surely Q :=
  fun files hfiles => hPQ _ (h files hfiles)

theorem mutate (h : w.Surely P) (hact : ∀ g, P g → P (mutation.act g)) :
    (w.mutate mutation).Surely P := by
  intro files hfiles
  obtain ⟨before, hbef, rfl | rfl⟩ := WriteBack.Survivor.of_record hfiles
  · rw [map_apply]
    exact hact _ (h before hbef)
  · exact h files hbef

theorem sync (h : w.Surely P) (target : SyncTarget) : (w.sync target).Surely P :=
  fun files hfiles => h files (WriteBack.Survivor.of_sync hfiles)

theorem powerLoss (h : w.Surely P) (mask : List Bool) : (w.powerLoss mask).Surely P :=
  fun files hfiles => h files (WriteBack.Survivor.of_crash hfiles)

end World.Surely

end Surely

section Lawful

/-- A private name belongs to a token below the bound. -/
def Location.drawnBefore (n : ℕ) : Location → Prop
  | .staged name => name.drawnBefore n
  | .visible _ _ | .fragment _ => True

/-- The tokens below `n` have been drawn. -/
def Lawful (n : ℕ) (g : FileMap) : Prop := ∀ location, g location ≠ none → location.drawnBefore n

namespace Lawful

variable {n : ℕ} {g : FileMap} (h : Lawful n g)

include h

theorem mono {n' : ℕ} (hn : n ≤ n') : Lawful n' g := by
  intro location hent
  have hdra := h location hent
  cases location with
  | staged name =>
    cases name <;> simp only [Location.drawnBefore, StagingName.drawnBefore] at hdra ⊢ <;> omega
  | _ => trivial

/-- An entry appears, changes or disappears under one name. -/
theorem update {location : Location} {entry : Option Entry}
    (hdra : entry ≠ none → location.drawnBefore n) :
    Lawful n (Function.update g location entry) := by
  intro other hoth
  rw [Function.update_apply] at hoth
  split at hoth
  · rename_i hloc
    rw [hloc]
    exact hdra hoth
  · exact h other hoth

theorem remove (location : Location) : Lawful n (Function.update g location none) :=
  h.update fun hne => absurd rfl hne

theorem write (name : StagingName) (content : Content) :
    Lawful n (act (.write name content) g) := by
  rw [act]
  split
  · rename_i hsome
    exact h.update fun _ => h _ (Option.isSome_iff_ne_none.mp hsome)
  · exact h

theorem move (source : Location) {destination : Location} (hdra : destination.drawnBefore n) :
    Lawful n (act (.move source destination) g) := by
  cases hent : g source with
  | none => rwa [act, hent]
  | some entry =>
    rw [act, hent]
    exact (h.remove source).update fun _ => hdra

end Lawful

/-- Whatever a power loss leaves, private staging is lawful. -/
def World.Sound (w : World) : Prop := w.Surely (Lawful w.tokens)

/-- Storage before the first operation: everything is on disk, and no protocol has names in
private staging. -/
structure World.Pristine (w : World) : Prop where
  log : w.files.log = []
  staged : ∀ name, w.files.base.map (.staged name) ≠ none → ∃ text, name = .other text

theorem World.Pristine.sound {w : World} (h : w.Pristine) : w.Sound := by
  rintro files ⟨mask, hfiles⟩
  rw [h.log] at hfiles
  obtain rfl : w.files.base = files := by
    cases mask <;> exact hfiles
  intro location hent
  cases location with
  | staged name =>
    obtain ⟨text, rfl⟩ := h.staged name hent
    trivial
  | _ => trivial

end Lawful

section Steady

/-- The world shows these files and is sound, with `n` tokens drawn. -/
structure Steady (n : ℕ) (w : World) (f : FileMap) : Prop where
  tokens : w.tokens = n
  surely : w.Surely (Lawful n)
  view : w.view.map = f

namespace Steady

variable {n : ℕ} {w : World} {f : FileMap}

theorem sound (h : Steady n w f) : w.Sound := by
  rw [World.Sound, h.tokens]
  exact h.surely

theorem of_sound (h : w.Sound) : Steady w.tokens w w.view.map :=
  ⟨rfl, h, rfl⟩

variable (h : Steady n w f)

include h

theorem lawful : Lawful n f := h.view ▸ h.surely.view

theorem lookup (location : Location) : w.view.lookup location = f location := by
  rw [← h.view]
  rfl

theorem tick (clock : ℕ) : Steady n { w with clock } f :=
  ⟨h.tokens, h.surely, h.view⟩

theorem draw :
    Steady (n + 1) { w with tokens := w.tokens + 1 } f where
  tokens := by rw [← h.tokens]
  surely := h.surely.mono fun _ hg => hg.mono (Nat.le_succ n)
  view := h.view

theorem mutate {mutation : Mutation}
    (hact : ∀ g, Lawful n g → Lawful n (mutation.act g)) :
    Steady n (w.mutate mutation) (mutation.act f) where
  tokens := h.tokens
  surely := h.surely.mutate hact
  view := by
    rw [← h.view, ← map_apply]
    exact congrArg Namespace.map (WriteBack.view_record apply w.files _ _)

theorem sync (target : SyncTarget) :
    Steady n (w.sync target) f where
  tokens := h.tokens
  surely := h.surely.sync target
  view := by
    rw [← h.view]
    exact congrArg Namespace.map (WriteBack.view_sync apply w.files target)

end Steady

/-- The action ends in `Q` or in `E`, and a power loss leaves a sound world. -/
abbrev Leaves {ε α : Type} (m : Action Environment World ε α) (env : Environment) (w : World)
    (Q : α → World → Prop) (E : ε → World → Prop) : Prop :=
  Action.Meets m env w Q E World.Sound

end Steady

section Calls

/-- `renameat` and `renameat2`. -/
def Syscall.isRename : Syscall → Bool
  | .rename _ _ | .renameReplace _ _ => true
  | _ => false

/-- The answer of a call that took effect may be lost. What is reported then is an I/O error,
or any error at all of a rename. -/
def Reports (env : Environment) : Prop :=
  ∀ time syscall kind, env.fault time syscall = .loses kind →
    kind = .other ∨ syscall.isRename = true

variable {α : Type} {n : ℕ} {w : World} {f : FileMap}
  {env : Environment} (henv : Reports env)

include henv

/-- A call has its effect or not, and may report an error in either case. -/
theorem call_leaves {syscall : Syscall} {effect : World → Outcome World IoError α}
    {Q : α → World → Prop} {E : IoError → World → Prop} (hw : Steady n w f)
    (heff : ∀ w', Steady n w' f →
      (effect w').Ends (fun a w'' => Q a w'' ∧ ∀ error : IoError,
        error.kind = .other ∨ syscall.isRename = true → E error w'') E fun _ => False)
    (hfails : ∀ w', Steady n w' f → E .injected w') :
    Leaves (call syscall effect) env w Q E := by
  have hw' := hw.tick (w.clock + 1)
  have hdone := heff { w with clock := w.clock + 1 } hw'
  unfold Leaves Action.Meets call
  cases hfault : env.fault w.clock syscall with
  | proceeds =>
    show (effect { w with clock := w.clock + 1 }).Ends Q E World.Sound
    cases hout : effect { w with clock := w.clock + 1 } <;> rw [hout] at hdone
    · exact hdone.1
    · exact hdone
    · exact hdone.elim
  | fails => exact hfails { w with clock := w.clock + 1 } hw'
  | loses kind =>
    dsimp only
    cases hout : effect { w with clock := w.clock + 1 } <;> rw [hout] at hdone
    · exact hdone.2 _ (henv _ _ _ hfault)
    · exact hdone
    · exact hdone.elim
  | crashes mask =>
    have hlost := hw'.sound.powerLoss mask
    exact hlost

/-- A call that is no rename reports a lost answer as an I/O error. -/
theorem call_honest {syscall : Syscall} {effect : World → Outcome World IoError α}
    {Q : α → World → Prop} {E : IoError → World → Prop} (hrename : syscall.isRename = false)
    (hw : Steady n w f)
    (heff : ∀ w', Steady n w' f →
      (effect w').Ends (fun a w'' => Q a w'' ∧ ∀ error : IoError, error.kind = .other → E error w'')
        E fun _ => False)
    (hfails : ∀ w', Steady n w' f → E .injected w') :
    Leaves (call syscall effect) env w Q E := by
  refine call_leaves henv hw (fun w' hw' => ?_) hfails
  have hdone := heff w' hw'
  cases hout : effect w' <;> rw [hout] at hdone
  · refine ⟨hdone.1, fun error herr => hdone.2 error (herr.resolve_right ?_)⟩
    simp [hrename]
  · exact hdone
  · exact hdone

variable (hw : Steady n w f)

include hw

theorem openPath_leaves (location : Location) : Leaves (openPath location) env w
    (fun entry w' => Steady n w' f ∧ f location = some entry)
    (fun error w' => Steady n w' f ∧
      (error.kind = .notFound ∧ f location = none ∨ error.kind = .other)) := by
  refine call_honest henv rfl hw (fun w' hw' => ?_) fun _ hw' => ⟨hw', .inr rfl⟩
  rw [hw'.lookup]
  cases hent : f location with
  | some entry => exact ⟨⟨hw', rfl⟩, fun error herr => ⟨hw', .inr herr⟩⟩
  | none => exact ⟨hw', .inl ⟨rfl, rfl⟩⟩

theorem duplicate_leaves : Leaves duplicate env w (fun _ w' => Steady n w' f)
    (fun _ w' => Steady n w' f) :=
  call_honest henv rfl hw (fun _ hw' => ⟨hw', fun _ _ => hw'⟩) fun _ hw' => hw'

theorem bindDirectory_leaves (path : List Text) : Leaves (bindDirectory path) env w
    (fun directory w' => Steady n w' f ∧
      resolve env.forbidSymlinks f path = some directory)
    (fun _ w' => Steady n w' f) := by
  refine call_honest henv rfl hw (fun w' hw' => ?_) fun _ hw' => hw'
  rw [hw'.view]
  cases hresolve : resolve env.forbidSymlinks f path with
  | some directory => exact ⟨⟨hw', rfl⟩, fun _ _ => hw'⟩
  | none => exact hw'

theorem scanNonEmpty_leaves (location : Location) : Leaves (scanNonEmpty location) env w
    (fun _ w' => Steady n w' f) (fun _ w' => Steady n w' f) := by
  refine call_honest henv rfl hw (fun w' hw' => ?_) fun _ hw' => hw'
  split
  · exact ⟨hw', fun _ _ => hw'⟩
  · exact hw'
  · exact hw'

theorem createRecord_leaves (name : StagingName) (hdra : name.drawnBefore n) :
    Leaves (createRecord name) env w
    (fun _ w' => Steady n w' (act (.create name) f))
    (fun error w' => Steady n w' f ∨
      error.kind = .other ∧ Steady n w' (act (.create name) f)) := by
  refine call_honest henv rfl hw (fun w' hw' => ?_) fun _ hw' => .inl hw'
  have hcreated : Steady n (w'.mutate (.create name)) (act (.create name) f) :=
    hw'.mutate fun g hg => hg.update fun _ => hdra
  rw [hw'.lookup]
  cases hent : f (.staged name) with
  | some entry => exact .inl hw'
  | none => exact ⟨hcreated, fun error herr => .inr ⟨herr, hcreated⟩⟩

theorem writeRecord_leaves (name : StagingName) (content : Content) :
    Leaves (writeRecord name content) env w
    (fun _ w' => Steady n w' (act (.write name content) f))
    (fun _ w' => Steady n w' f ∨
      Steady n w' (act (.write name content) f)) := by
  refine call_honest henv rfl hw (fun w' hw' => ?_) fun _ hw' => .inl hw'
  have hwritten := hw'.mutate fun g hg => hg.write name content
  exact ⟨hwritten, fun _ _ => .inr hwritten⟩

theorem syncFile_leaves (name : StagingName) : Leaves (syncFile name) env w
    (fun _ w' => Steady n w' f) (fun _ w' => Steady n w' f) :=
  call_honest henv rfl hw (fun _ hw' => ⟨hw'.sync _, fun _ _ => hw'.sync _⟩) fun _ hw' => hw'

theorem syncDirectory_leaves (target : SyncTarget) : Leaves (syncDirectory target) env w
    (fun _ w' => Steady n w' f) (fun _ w' => Steady n w' f) :=
  call_honest henv rfl hw (fun _ hw' => ⟨hw'.sync target, fun _ _ => hw'.sync target⟩)
    fun _ hw' => hw'

/-- The files after a move. -/
abbrev FileMap.moved (f : FileMap) (source destination : Location) : FileMap :=
  act (.move source destination) f

theorem renameNoreplace_leaves {source destination : Location}
    (hdra : destination.drawnBefore n) :
    Leaves (renameNoreplace source destination) env w
    (fun _ w' => Steady n w' (f.moved source destination))
    (fun _ w' => Steady n w' f ∨ Steady n w' (f.moved source destination)) := by
  refine call_leaves henv hw (fun w' hw' => ?_) fun _ hw' => .inl hw'
  have hmoved := hw'.mutate fun g hg => hg.move source hdra
  rw [hw'.lookup, hw'.lookup]
  match f source, f destination with
  | none, _ | some _, some _ => exact .inl hw'
  | some _, none => exact ⟨hmoved, fun _ _ => .inr hmoved⟩

theorem renameReplace_leaves {source destination : Location}
    (hdra : destination.drawnBefore n) :
    Leaves (renameReplace source destination) env w
    (fun _ w' => Steady n w' (f.moved source destination))
    (fun _ w' => Steady n w' f ∨ Steady n w' (f.moved source destination)) := by
  refine call_leaves henv hw (fun w' hw' => ?_) fun _ hw' => .inl hw'
  have hmoved := hw'.mutate fun g hg => hg.move source hdra
  rw [hw'.lookup, hw'.lookup]
  match f source, f destination with
  | none, _ => exact .inl hw'
  | some entry, some (.object _ .directory) => exact .inl hw'
  | some entry, none | some entry, some (.record _) | some entry, some (.object _ .file)
  | some entry, some (.object _ (.symlink _)) | some entry, some (.object _ .special) =>
    exact ⟨hmoved, fun _ _ => .inr hmoved⟩

theorem unlink_leaves (name : StagingName) : Leaves (unlink name) env w
    (fun _ w' => Steady n w' (Function.update f (.staged name) none))
    (fun error w' => Steady n w' f ∧ (error.kind = .notFound → f (.staged name) = none) ∨
      error.kind = .other ∧ Steady n w' (Function.update f (.staged name) none)) := by
  refine call_honest henv rfl hw (fun w' hw' => ?_) fun _ hw' => .inl ⟨hw', nofun⟩
  have hremoved : Steady n (w'.mutate (.remove (.staged name)))
      (Function.update f (.staged name) none) :=
    hw'.mutate fun g hg => hg.remove (.staged name)
  rw [hw'.lookup]
  match hent : f (.staged name) with
  | none => exact .inl ⟨hw', fun _ => rfl⟩
  | some (.object _ .directory) => exact .inl ⟨hw', nofun⟩
  | some (.object _ .file) | some (.object _ (.symlink _)) | some (.object _ .special)
  | some (.record _) =>
    exact ⟨hremoved, fun error herr => .inr ⟨herr, hremoved⟩⟩

omit henv in
/-- The token is new: nothing is stored under it, and no journal refers to it. -/
theorem randomToken_leaves : Leaves randomToken env w
    (fun token w' => Steady (n + 1) w' f ∧ token = n) (fun _ _ => False) :=
  ⟨hw.draw, hw.tokens⟩

end Calls

end VaultLink
