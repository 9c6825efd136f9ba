import VaultLink.SecureFs

/-!
# Reasoning about crashes

`Holds` describes a world by the files that are durable, the log of what is not yet, and the
database; `Safe` says that an action ends in its postconditions and that a power loss at any
point of it leaves files and database in a class of states given in advance. There is one
rule for each system call. The class stays fixed along a proof, so that every function is
verified once for all the operations it is part of.

Names can be concealed: what is stored under them is then not part of the description, and
only actions that avoid them have rules. The journal temporaries are concealed wherever a
power loss may leave one behind.
-/
namespace VaultLink

open Mutation
open WriteBack (replay survive settle flush survive_rel replay_rel flush_rel survive_inv replay_inv
  flush_inv)

abbrev FileLog := List (Awaiting Mutation SyncTarget)

variable {location : Location}

section Mutations

/-- The names a mutation reads or changes. -/
def Mutation.touches : Mutation → List Location
  | .create name => [.staged name]
  | .write name _ => [.staged name]
  | .move source destination => [source, destination]
  | .remove location => [location]

theorem Mutation.act_of_not_touches {mutation : Mutation} (h : location ∉ mutation.touches)
    (f : FileMap) : mutation.act f location = f location := by
  cases mutation with
  | create | remove =>
    rw [act, Function.update_of_ne (by simpa [touches] using h)]
  | write name content =>
    rw [act]
    split
    · rw [Function.update_of_ne (by simpa [touches] using h)]
    · rfl
  | move source destination =>
    obtain ⟨hsrc, hdst⟩ : location ≠ source ∧ location ≠ destination := by
      simpa [touches] using h
    cases hent : f source with
    | none => simp [act, hent]
    | some entry => simp [act, hent, hsrc, hdst]

/-- The file map without what is stored under concealed names. -/
def conceal (hide : Location → Bool) (f : FileMap) : FileMap := fun location =>
  if hide location then none else f location

variable {hide : Location → Bool}

theorem conceal_apply (h : hide location = false) (f : FileMap) :
    conceal hide f location = f location := by
  simp [conceal, h]

theorem conceal_update (h : hide location = false) (f : FileMap) (entry : Option Entry) :
    conceal hide (Function.update f location entry) =
      Function.update (conceal hide f) location entry := by
  funext other
  by_cases hoth : other = location
  · subst hoth
    simp [conceal, h]
  · simp [conceal, hoth]

/-- A mutation of names in sight does the same to what is in sight. -/
theorem conceal_act {mutation : Mutation} (h : ∀ location ∈ mutation.touches, hide location = false)
    (f : FileMap) : conceal hide (mutation.act f) = mutation.act (conceal hide f) := by
  cases mutation with
  | create | remove => exact conceal_update (h _ (by simp [touches])) f _
  | write name content =>
    have hname := h (.staged name) (by simp [touches])
    simp only [act, conceal_apply hname]
    split
    · exact conceal_update hname f _
    · rfl
  | move source destination =>
    have hsrc := h source (by simp [touches])
    have hdst := h destination (by simp [touches])
    simp only [act, conceal_apply hsrc]
    split
    · rfl
    · rw [conceal_update hdst, conceal_update hsrc]

variable {hide : Location → Bool} {log : FileLog}

/-- What the operations do to the files in sight, the log does too. -/
theorem act_conceals (h : ∀ entry ∈ log, ∀ location ∈ entry.op.touches, hide location = false) :
    ∀ entry ∈ log, ∀ f g, conceal hide f = g → conceal hide (act entry.op f) = act entry.op g := by
  rintro entry hent f _ rfl
  exact conceal_act (h entry hent) f

theorem apply_map : ∀ entry ∈ log, ∀ (ns : Namespace) (f : FileMap), ns.map = f →
    (apply entry.op ns).map = act entry.op f := by
  rintro entry - ns _ rfl
  exact map_apply entry.op ns

/-- What no entry of the log touches stays as it is. -/
theorem act_avoids {x : Option Entry} (h : ∀ entry ∈ log, location ∉ entry.op.touches) :
    ∀ entry ∈ log, ∀ f : FileMap, f location = x → act entry.op f location = x :=
  fun entry hent f hf => (act_of_not_touches (h entry hent) f).trans hf

theorem mem_flush_log {entry : Awaiting Mutation SyncTarget} {f : FileMap}
    (h : entry ∈ (flush act log f).log) : entry ∈ log := by
  induction log generalizing f with
  | nil => exact h
  | cons first log ih =>
    rw [flush] at h
    split at h
    · exact List.mem_cons_of_mem first (ih h)
    · exact h

theorem exists_of_mem_settle {entry : Awaiting Mutation SyncTarget} {target : SyncTarget}
    (h : entry ∈ settle target log) : ∃ before ∈ log, before.op = entry.op := by
  obtain ⟨before, hbef, rfl⟩ := List.mem_map.mp h
  exact ⟨before, hbef, rfl⟩

end Mutations

section Holds

/-- Whether the entry is a directory. -/
def isDirectoryEntry : Option Entry → Bool
  | some (.object _ .directory) => true
  | _ => false

/-- The world has these durable files, this log and this database. Nothing is stored under a
name whose token has not been drawn, and no directory under a concealed one. -/
structure Holds (hide : Location → Bool) (w : World) (g : FileMap) (log : FileLog) (s : Store) :
    Prop where
  files : conceal hide w.files.base.map = g
  log_eq : w.files.log = log
  db : w.db = s
  fresh : ∀ name, ¬name.drawnBefore w.tokens →
    w.files.base.map (.staged name) = none ∧ ∀ entry ∈ log, .staged name ∉ entry.op.touches
  sight : ∀ entry ∈ log, ∀ location ∈ entry.op.touches, hide location = false
  plain : ∀ location, hide location = true →
    isDirectoryEntry (w.files.base.map location) = false

variable {hide : Location → Bool} {w : World} {g : FileMap} {log : FileLog} {s : Store}

namespace Holds

variable (h : Holds hide w g log s)

include h

theorem tick (clock : ℕ) : Holds hide { w with clock } g log s :=
  { h with }

theorem view_map : conceal hide w.view.map = replay act log g := by
  have hview : w.view.map = replay act log w.files.base.map := by
    rw [← h.log_eq]
    exact replay_rel apply_map rfl
  rw [hview]
  exact replay_rel (act_conceals h.sight) h.files

theorem lookup (hloc : hide location = false) :
    w.view.lookup location = replay act log g location := by
  rw [← h.view_map, conceal_apply hloc]
  rfl

theorem mutate {mutation : Mutation} (hsight : ∀ location ∈ mutation.touches, hide location = false)
    (hdra : ∀ name, .staged name ∈ mutation.touches → name.drawnBefore w.tokens) :
    Holds hide (w.mutate mutation) g (log ++ [⟨mutation, mutation.targets⟩]) s where
  files := h.files
  log_eq := by
    rw [← h.log_eq]
    rfl
  db := h.db
  fresh := fun name hname => ⟨(h.fresh name hname).1, fun entry hent => by
    obtain hent | hent := List.mem_append.mp hent
    · exact (h.fresh name hname).2 entry hent
    · rw [List.mem_singleton.mp hent]
      exact fun hmem => hname (hdra name hmem)⟩
  sight := fun entry hent => by
    obtain hent | hent := List.mem_append.mp hent
    · exact h.sight entry hent
    · rw [List.mem_singleton.mp hent]
      exact hsight
  plain := h.plain

/-- What is stored under a private name has a token that was drawn. -/
theorem drawn {name : StagingName} (hname : hide (.staged name) = false)
    (hent : replay act log g (.staged name) ≠ none) : name.drawnBefore w.tokens := by
  by_contra hfr
  obtain ⟨hnone, havoid⟩ := h.fresh name hfr
  have hbase : g (.staged name) = none := by rw [← h.files, conceal_apply hname, hnone]
  exact hent (replay_inv (act_avoids havoid) hbase)

theorem move {source destination : Location} (hsrc : hide source = false)
    (hdst : hide destination = false) (hent : replay act log g source ≠ none)
    (hdra : ∀ name, destination = .staged name → name.drawnBefore w.tokens) :
    Holds hide (w.mutate (.move source destination)) g
      (log ++ [⟨.move source destination, [source.target, destination.target].dedup⟩]) s := by
  refine h.mutate ?_ fun name hname => ?_
  · simpa [touches] using ⟨hsrc, hdst⟩
  · simp only [touches, List.mem_cons, List.not_mem_nil, or_false] at hname
    obtain hname | hname := hname
    · exact h.drawn (hname ▸ hsrc) (hname ▸ hent)
    · exact hdra name hname.symm

theorem remove {name : StagingName} (hname : hide (.staged name) = false)
    (hent : replay act log g (.staged name) ≠ none) :
    Holds hide (w.mutate (.remove (.staged name))) g
      (log ++ [⟨.remove (.staged name), [.staging]⟩]) s := by
  refine h.mutate ?_ fun other hoth => ?_
  · simpa [touches] using hname
  · obtain rfl : other = name := by simpa [touches] using hoth
    exact h.drawn hname hent

theorem sync (target : SyncTarget) :
    Holds hide (w.sync target) (flush act (settle target log) g).base
      (flush act (settle target log) g).log s := by
  have hbase : (w.sync target).files.base.map =
      (flush act (settle target log) w.files.base.map).base := by
    rw [World.sync, WriteBack.sync, h.log_eq]
    exact flush_rel apply_map rfl
  have hlog : (w.sync target).files.log = (flush act (settle target log) g).log := by
    rw [World.sync, WriteBack.sync, h.log_eq]
    exact WriteBack.flush_log _ _ _ _ _
  have htouches : ∀ entry ∈ settle target log, ∀ location ∈ entry.op.touches,
      ∃ before ∈ log, location ∈ before.op.touches := by
    intro entry hent location hloc
    obtain ⟨before, hbef, hop⟩ := exists_of_mem_settle hent
    exact ⟨before, hbef, hop ▸ hloc⟩
  have hsight : ∀ entry ∈ settle target log, ∀ location ∈ entry.op.touches,
      hide location = false := by
    intro entry hent location hloc
    obtain ⟨before, hbef, hmem⟩ := htouches entry hent location hloc
    exact h.sight before hbef location hmem
  have hhidden : ∀ location, hide location = true →
      (w.sync target).files.base.map location = w.files.base.map location := by
    intro location hhide
    rw [hbase]
    refine flush_inv (act_avoids fun entry hent hmem => ?_) rfl
    rw [hsight entry hent location hmem] at hhide
    cases hhide
  refine ⟨?_, hlog, h.db, fun name hname => ?_, fun entry hent => ?_, fun location hhide => ?_⟩
  · rw [hbase]
    exact flush_rel (act_conceals hsight) h.files
  · obtain ⟨hnone, havoid⟩ := h.fresh name hname
    have hset : ∀ entry ∈ settle target log, .staged name ∉ entry.op.touches := by
      intro entry hent hmem
      obtain ⟨before, hbef, hmem⟩ := htouches entry hent _ hmem
      exact havoid before hbef hmem
    rw [hbase]
    exact ⟨flush_inv (act_avoids hset) hnone, fun entry hent => hset entry (mem_flush_log hent)⟩
  · exact hsight entry (mem_flush_log hent)
  · rw [hhidden location hhide]
    exact h.plain location hhide

theorem powerLoss (mask : List Bool) :
    Holds hide (w.powerLoss mask) (survive act log mask g) [] s := by
  have hbase : (w.powerLoss mask).files.base.map =
      survive act log mask w.files.base.map := by
    rw [← h.log_eq]
    exact survive_rel apply_map mask rfl
  refine ⟨?_, rfl, h.db, fun name hname => ⟨?_, by simp⟩, by simp, fun location hhide => ?_⟩
  · rw [hbase]
    exact survive_rel (act_conceals h.sight) mask h.files
  · obtain ⟨hnone, havoid⟩ := h.fresh name hname
    rw [hbase]
    exact survive_inv (act_avoids havoid) mask hnone
  · rw [hbase, survive_inv (act_avoids fun entry hent hmem => ?_) mask rfl]
    · exact h.plain location hhide
    · rw [h.sight entry hent location hmem] at hhide
      cases hhide

theorem setDb (db : Store) : Holds hide { w with db } g log db :=
  { h with db := rfl }

theorem draw :
    Holds hide { w with tokens := w.tokens + 1 } g log s where
  files := h.files
  log_eq := h.log_eq
  db := h.db
  fresh := fun name hname => h.fresh name fun hdra => hname (by
    cases name <;> simp only [StagingName.drawnBefore] at hdra ⊢ <;> omega)
  sight := h.sight
  plain := h.plain

end Holds

end Holds

end VaultLink
