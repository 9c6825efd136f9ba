import Mathlib.Logic.Function.Basic

/-!
# Write-back logs

A store whose operations are visible at once and durable later. Every operation waits for
the synchronization of some targets; until all of them have been synchronized a power loss
may drop it, independently of the operations around it. `flush` moves the leading durable
operations into the base, so that a fully synchronized store is one with an empty log.
-/
namespace VaultLink

/-- An operation with the targets it still waits for. -/
structure Awaiting (Op Target : Type) where
  op : Op
  targets : List Target

structure WriteBack (S Op Target : Type) where
  base : S
  log : List (Awaiting Op Target)

namespace WriteBack

variable {S S' Op Target : Type} (apply : Op → S → S) (apply' : Op → S' → S')

/-- Everything that was done, in order. -/
def replay : List (Awaiting Op Target) → S → S
  | [], s => s
  | entry :: log, s => replay log (apply entry.op s)

/-- What is left after a power loss: the durable operations and those the mask keeps. -/
def survive : List (Awaiting Op Target) → List Bool → S → S
  | [], _, s => s
  | entry :: log, mask, s =>
    survive log mask.tail
      (if entry.targets.isEmpty || mask.headD false then apply entry.op s else s)

def flush : List (Awaiting Op Target) → S → WriteBack S Op Target
  | [], s => ⟨s, []⟩
  | entry :: log, s =>
    if entry.targets.isEmpty then flush log (apply entry.op s) else ⟨s, entry :: log⟩

theorem replay_append (log log' : List (Awaiting Op Target)) (s : S) :
    replay apply (log ++ log') s = replay apply log' (replay apply log s) := by
  induction log generalizing s with
  | nil => rfl
  | cons entry log ih => exact ih _

/-- When nothing is waiting any more, everything moves into the base. -/
theorem flush_eq_replay {log : List (Awaiting Op Target)} (h : ∀ entry ∈ log, entry.targets = [])
    (s : S) : flush apply log s = ⟨replay apply log s, []⟩ := by
  induction log generalizing s with
  | nil => rfl
  | cons entry log ih =>
    rw [flush, h entry List.mem_cons_self]
    exact ih (fun e he => h e (List.mem_cons_of_mem entry he)) _

def view (store : WriteBack S Op Target) : S := replay apply store.log store.base

def record (store : WriteBack S Op Target) (op : Op) (targets : List Target) :
    WriteBack S Op Target :=
  { store with log := store.log ++ [⟨op, targets⟩] }

/-- The log with one more target synchronized. -/
def settle [DecidableEq Target] (target : Target) (log : List (Awaiting Op Target)) :
    List (Awaiting Op Target) :=
  log.map fun entry => { entry with targets := entry.targets.filter (· ≠ target) }

theorem replay_settle [DecidableEq Target] (target : Target) (log : List (Awaiting Op Target))
    (s : S) : replay apply (settle target log) s = replay apply log s := by
  induction log generalizing s with
  | nil => rfl
  | cons entry log ih => exact ih _

def sync [DecidableEq Target] (store : WriteBack S Op Target) (target : Target) :
    WriteBack S Op Target :=
  flush apply (settle target store.log) store.base

def crash (store : WriteBack S Op Target) (mask : List Bool) : WriteBack S Op Target :=
  ⟨survive apply store.log mask store.base, []⟩

/-- Which operations are still waiting does not depend on the base. -/
theorem flush_log (log : List (Awaiting Op Target)) (s : S) (s' : S') :
    (flush apply log s).log = (flush apply' log s').log := by
  induction log generalizing s s' with
  | nil => rfl
  | cons entry log ih =>
    rw [flush, flush]
    split
    · exact ih _ _
    · rfl

theorem survive_replicate_true (log : List (Awaiting Op Target)) (s : S) :
    survive apply log (List.replicate log.length true) s = replay apply log s := by
  induction log generalizing s with
  | nil => rfl
  | cons entry log ih => simpa [survive, replay, List.replicate_succ] using ih (apply entry.op s)

section Simulation

variable {apply apply'} {R : S → S' → Prop} {log : List (Awaiting Op Target)}

/-- Related states stay related, whatever survives of the log. -/
theorem survive_rel
    (hR : ∀ entry ∈ log, ∀ s s', R s s' → R (apply entry.op s) (apply' entry.op s'))
    (mask : List Bool) {s : S} {s' : S'} (h : R s s') :
    R (survive apply log mask s) (survive apply' log mask s') := by
  induction log generalizing mask s s' with
  | nil => exact h
  | cons entry log ih =>
    refine ih (fun e he => hR e (List.mem_cons_of_mem entry he)) mask.tail ?_
    split
    · exact hR entry List.mem_cons_self s s' h
    · exact h

theorem replay_rel
    (hR : ∀ entry ∈ log, ∀ s s', R s s' → R (apply entry.op s) (apply' entry.op s'))
    {s : S} {s' : S'} (h : R s s') : R (replay apply log s) (replay apply' log s') := by
  rw [← survive_replicate_true, ← survive_replicate_true]
  exact survive_rel hR _ h

theorem flush_rel
    (hR : ∀ entry ∈ log, ∀ s s', R s s' → R (apply entry.op s) (apply' entry.op s'))
    {s : S} {s' : S'} (h : R s s') :
    R (flush apply log s).base (flush apply' log s').base := by
  induction log generalizing s s' with
  | nil => exact h
  | cons entry log ih =>
    rw [flush, flush]
    split
    · exact ih (fun e he => hR e (List.mem_cons_of_mem entry he))
        (hR entry List.mem_cons_self s s' h)
    · exact h

variable {P : S → Prop} {s : S} (hP : ∀ entry ∈ log, ∀ s, P s → P (apply entry.op s))

include hP

/-- What every operation of the log preserves holds of whatever survives. -/
theorem survive_inv (mask : List Bool) (h : P s) : P (survive apply log mask s) :=
  @survive_rel S S Op Target apply apply (fun s _ => P s) log (fun e he s _ => hP e he s) mask s s h

theorem replay_inv (h : P s) : P (replay apply log s) :=
  @replay_rel S S Op Target apply apply (fun s _ => P s) log (fun e he s _ => hP e he s) s s h

theorem flush_inv (h : P s) : P (flush apply log s).base :=
  @flush_rel S S Op Target apply apply (fun s _ => P s) log (fun e he s _ => hP e he s) s s h

end Simulation

section Replacement

/-- An operation that replaces the whole state. -/
def overwrite (new _ : S) : S := new

/-- What a store whose operations replace it can be left with. -/
def contents (store : WriteBack S S Target) : List S := store.base :: store.log.map Awaiting.op

theorem survive_overwrite_mem (log : List (Awaiting S Target)) (mask : List Bool) (s : S) :
    survive overwrite log mask s ∈ s :: log.map Awaiting.op :=
  survive_inv (fun _ hent _ _ => List.mem_cons_of_mem s (List.mem_map_of_mem hent)) mask
    List.mem_cons_self

theorem view_mem_contents (store : WriteBack S S Target) :
    store.view overwrite ∈ store.contents := by
  rw [view, ← survive_replicate_true]
  exact survive_overwrite_mem store.log _ store.base

theorem contents_record (store : WriteBack S S Target) (new : S) (targets : List Target) :
    (store.record new targets).contents = store.contents ++ [new] := by
  simp [record, contents]

theorem view_record (store : WriteBack S Op Target) (op : Op) (targets : List Target) :
    (store.record op targets).view apply = apply op (store.view apply) := by
  rw [view, record, replay_append]
  rfl

theorem contents_crash (store : WriteBack S S Target) (mask : List Bool) {s : S}
    (h : s ∈ (store.crash overwrite mask).contents) : s ∈ store.contents := by
  rw [crash, contents, List.map_nil, List.mem_singleton] at h
  rw [h]
  exact survive_overwrite_mem store.log mask store.base

/-- Where there is one target, its synchronization makes everything durable. -/
theorem sync_unit (store : WriteBack S Op Unit) : store.sync apply () = ⟨store.view apply, []⟩ := by
  rw [sync, flush_eq_replay, replay_settle, view]
  intro entry hent
  obtain ⟨entry', _, rfl⟩ := List.mem_map.mp hent
  simp

end Replacement

section Survivors

/-- What a power loss may leave of the store. -/
def Survivor (store : WriteBack S Op Target) (s : S) : Prop :=
  ∃ mask, survive apply store.log mask store.base = s

theorem survive_append (log log' : List (Awaiting Op Target)) (mask : List Bool) (s : S) :
    survive apply (log ++ log') mask s =
      survive apply log' (mask.drop log.length) (survive apply log mask s) := by
  induction log generalizing mask s with
  | nil => rfl
  | cons entry log ih =>
    rw [List.cons_append, survive, ih, survive, List.drop_tail, List.length_cons]

/-- Nothing may be lost at all. -/
theorem survivor_view (store : WriteBack S Op Target) : store.Survivor apply (store.view apply) :=
  ⟨_, survive_replicate_true apply store.log store.base⟩

variable {apply} in
/-- An operation survives as the last one, or it is lost. -/
theorem Survivor.of_record {store : WriteBack S Op Target} {op : Op} {targets : List Target} {s : S}
    (h : (store.record op targets).Survivor apply s) :
    ∃ s', store.Survivor apply s' ∧ (s = apply op s' ∨ s = s') := by
  obtain ⟨mask, rfl⟩ := h
  refine ⟨survive apply store.log mask store.base, ⟨mask, rfl⟩, ?_⟩
  rw [record, survive_append, survive, survive]
  split
  · exact .inl rfl
  · exact .inr rfl

/-- Of a log with fewer targets no less survives. -/
theorem survive_settle [DecidableEq Target] (target : Target) (log : List (Awaiting Op Target))
    (mask : List Bool) (s : S) :
    ∃ mask', survive apply (settle target log) mask s = survive apply log mask' s := by
  induction log generalizing mask s with
  | nil => exact ⟨[], rfl⟩
  | cons entry log ih =>
    let kept := (entry.targets.filter (· ≠ target)).isEmpty || mask.headD false
    obtain ⟨mask', hmask⟩ := ih mask.tail (if kept then apply entry.op s else s)
    refine ⟨kept :: mask', ?_⟩
    have hkept : (entry.targets.isEmpty || kept) = kept := by
      cases htargets : entry.targets with
      | nil => simp [kept, htargets]
      | cons first rest => rfl
    rw [survive, List.headD_cons, hkept, List.tail_cons, ← hmask]
    rfl

theorem survive_flush (log : List (Awaiting Op Target)) (mask : List Bool) (s : S) :
    ∃ mask', survive apply (flush apply log s).log mask (flush apply log s).base =
      survive apply log mask' s := by
  induction log generalizing s with
  | nil => exact ⟨mask, rfl⟩
  | cons entry log ih =>
    by_cases hdur : entry.targets.isEmpty = true
    · obtain ⟨mask', hmask⟩ := ih (apply entry.op s)
      refine ⟨false :: mask', ?_⟩
      rw [flush, if_pos hdur, hmask, survive, hdur]
      rfl
    · refine ⟨mask, ?_⟩
      rw [flush, if_neg hdur]

variable {apply} in
/-- Synchronization rules possible losses out. -/
theorem Survivor.of_sync [DecidableEq Target] {store : WriteBack S Op Target} {target : Target}
    {s : S} (h : (store.sync apply target).Survivor apply s) : store.Survivor apply s := by
  obtain ⟨mask, rfl⟩ := h
  obtain ⟨mask', hflush⟩ := survive_flush apply (settle target store.log) mask store.base
  obtain ⟨mask'', hsettle⟩ := survive_settle apply target store.log mask' store.base
  exact ⟨mask'', by rw [← hsettle, ← hflush]; rfl⟩

variable {apply} in
theorem Survivor.of_crash {store : WriteBack S Op Target} {mask : List Bool} {s : S}
    (h : (store.crash apply mask).Survivor apply s) : store.Survivor apply s := by
  obtain ⟨_, rfl⟩ := h
  exact ⟨mask, rfl⟩

theorem view_sync [DecidableEq Target] (store : WriteBack S Op Target) (target : Target) :
    (store.sync apply target).view apply = store.view apply := by
  have hflush : ∀ (log : List (Awaiting Op Target)) (s : S),
      replay apply (flush apply log s).log (flush apply log s).base = replay apply log s := by
    intro log
    induction log with
    | nil => exact fun s => rfl
    | cons entry log ih =>
      intro s
      rw [flush]
      split
      · exact ih _
      · rfl
  rw [view, sync, hflush, replay_settle, view]

end Survivors

end WriteBack

end VaultLink
