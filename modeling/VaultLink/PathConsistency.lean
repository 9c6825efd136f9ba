import Mathlib.Data.List.TakeWhile
import VaultLink.FileOperations

/-!
# Names and paths that agree with each other

A path is checked by one function, a file name by another, and the names of private staging
are recognised by three more. What one of them accepts, the others treat as they should: a
rendered path is accepted again, safe names make a path, and no safe name is private.
-/
namespace VaultLink

open PlainComponent

section Internal

/-- The name of the internal directory in the spelling of some case-insensitive client, followed
by dots and spaces. -/
def SpellsInternal (name : Text) : Prop :=
  ∃ base tail, name = base ++ tail ∧ (∀ c ∈ tail, c = '.' ∨ c = ' ') ∧
    base.map Char.toLower = internalStorageDirectoryName

theorem trimEndDotsAndSpaces_append {base tail : Text}
    (htail : ∀ c ∈ tail, c = '.' ∨ c = ' ') :
    trimEndDotsAndSpaces (base ++ tail) = trimEndDotsAndSpaces base := by
  have hall : ∀ c ∈ tail.reverse, (decide (c = '.') || decide (c = ' ')) = true := by
    intro c hc
    simpa using htail c (by simpa using hc)
  rw [trimEndDotsAndSpaces, trimEndDotsAndSpaces, List.reverse_append,
    List.dropWhile_append_of_pos hall]

/-- What was trimmed are dots and spaces. -/
theorem exists_trimmed (name : Text) :
    ∃ tail, name = trimEndDotsAndSpaces name ++ tail ∧ ∀ c ∈ tail, c = '.' ∨ c = ' ' := by
  let trimmed : Char → Bool := fun c => c = '.' || c = ' '
  refine ⟨(name.reverse.takeWhile trimmed).reverse, ?_, fun c hc => ?_⟩
  · rw [trimEndDotsAndSpaces, ← List.reverse_append, List.takeWhile_append_dropWhile,
      List.reverse_reverse]
  · have hc := List.mem_takeWhile_imp (List.mem_reverse.mp hc)
    simpa [trimmed] using hc

theorem isInternalStorageName_iff (name : Text) :
    isInternalStorageName name = true ↔ SpellsInternal name := by
  rw [isInternalStorageName, decide_eq_true_eq]
  constructor
  · intro h
    obtain ⟨tail, hname, htail⟩ := exists_trimmed name
    exact ⟨_, tail, hname, htail, h⟩
  · rintro ⟨base, tail, rfl, htail, hbase⟩
    rw [trimEndDotsAndSpaces_append htail]
    -- The name of the directory ends in a letter, so nothing of it is trimmed.
    have hlast : ∀ c ∈ base.getLast?, ¬(c = '.' ∨ c = ' ') := by
      intro c hc hdot
      have hlower : (base.map Char.toLower).getLast? = some (c.toLower) := by
        rw [List.getLast?_map, Option.mem_def.mp hc, Option.map_some]
      rw [hbase] at hlower
      obtain rfl | rfl := hdot <;> exact absurd hlower (by decide)
    have hkept : trimEndDotsAndSpaces base = base := by
      rw [trimEndDotsAndSpaces]
      cases hreverse : base.reverse with
      | nil => simpa using hreverse.symm
      | cons c rest =>
        have hc : c ∈ base.getLast? := by
          rw [List.getLast?_eq_head?_reverse, hreverse]
          rfl
        rw [List.dropWhile_cons_of_neg (by simpa using hlast c hc), ← hreverse,
          List.reverse_reverse]
    rw [hkept, hbase]

end Internal

section PrivateNames

namespace PrivateNames

/-- The body that the recognisers of `secure_fs` share. -/
def isTokenName (before after : String) (name : Text) : Bool :=
  match (name.dropPrefix? before.toList).bind fun rest => rest.dropSuffix? after.toList with
  | none => false
  | some token => token.length = 24 && token.all fun c => c.isAlphanum || c = '-' || c = '_'

def isUploadFragmentName : Text → Bool := isTokenName ".vaultlink-" ".part"

def isDeletionTombstoneName : Text → Bool := isTokenName ".vaultlink-delete-" ".tombstone"

def isDeletionPendingName : Text → Bool := isTokenName ".vaultlink-delete-pending-" ".pending"

/-- Stripping a prefix and a suffix finds what `private_token_name` finds. -/
theorem isTokenName_iff (before after : String) (name : Text) :
    isTokenName before after name = true ↔ privateTokenName name before after = true := by
  have hstrip : ∀ token : Text,
      ((name.dropPrefix? before.toList).bind fun rest => rest.dropSuffix? after.toList) =
        some token ↔ name = before.toList ++ token ++ after.toList := by
    intro token
    simp only [Option.bind_eq_some_iff, List.dropPrefix?_eq_some_iff,
      List.dropSuffix?_eq_some_iff, beq_iff_eq]
    constructor
    · rintro ⟨_, ⟨_, rfl, rfl⟩, _, rfl, rfl⟩
      rw [List.append_assoc]
    · rintro rfl
      exact ⟨token ++ after.toList, ⟨_, by rw [List.append_assoc], rfl⟩, _, rfl, rfl⟩
  -- The token is determined by its position.
  have hposition : ∀ token : Text, name = before.toList ++ token ++ after.toList →
      (name.drop before.length).take (name.length - before.length - after.length) = token := by
    rintro token rfl
    have hlen : (before.toList ++ token ++ after.toList).length - before.length -
        after.length = token.length := by
      simp only [List.length_append, String.length_toList]
      omega
    rw [hlen, List.append_assoc, ← String.length_toList, List.drop_left, List.take_left]
  unfold isTokenName privateTokenName
  split
  · rename_i hnone
    simp only [Bool.false_eq_true, false_iff, Bool.and_eq_true, decide_eq_true_eq, not_and]
    intro ⟨hname, _⟩
    rw [(hstrip _).mpr hname] at hnone
    cases hnone
  · rename_i token hsome
    have hname := (hstrip token).mp hsome
    rw [hposition token hname]
    simp only [← hname, decide_true, Bool.true_and]

end PrivateNames

theorem not_private_of_safeAdminFilename {name : Text} (h : safeAdminFilename name = true) :
    PrivateNames.isUploadFragmentName name = false ∧
      PrivateNames.isDeletionTombstoneName name = false ∧
      PrivateNames.isDeletionPendingName name = false := by
  simp only [safeAdminFilename, isPrivateAdminFilename, Bool.and_eq_true, Bool.not_eq_true',
    Bool.or_eq_false_iff] at h
  obtain ⟨-, ⟨⟨hfra, htombstone⟩, hpend⟩, -⟩ := h
  simp only [← Bool.not_eq_true, PrivateNames.isUploadFragmentName,
    PrivateNames.isDeletionTombstoneName, PrivateNames.isDeletionPendingName,
    PrivateNames.isTokenName_iff]
  simp [hfra, htombstone, hpend]

end PrivateNames

section Paths

theorem validateRelative_not_absolute {raw : Text} {components : List Text}
    (h : validateRelative raw = some components) : raw.head? ≠ some '/' := by
  intro hhead
  simp [validateRelative, hhead] at h

theorem normalize_ok {raw path : Text} (h : normalize raw false = .ok path) :
    ∃ parent name, (∀ component ∈ parent ++ [name], PlainComponent component) ∧
      path = joinRelative parent name := by
  unfold normalize at h
  cases hparts : validateRelative raw with
  | none => simp [hparts] at h
  | some components =>
    simp only [hparts] at h
    split_ifs at h with hemp
    obtain rfl | ⟨parent, name, rfl⟩ := components.eq_nil_or_concat'
    · simp at hemp
    · exact ⟨parent, name, of_validateRelative hparts,
        (Except.ok.inj h).symm⟩

/-- The parent of a rendered path renders its first components. -/
theorem parentOf_join {parent : List Text} {name : Text}
    (hplain : ∀ component ∈ parent ++ [name], PlainComponent component) :
    parentOf (joinRelative parent name) = ['/'].intercalate parent := by
  rw [parentOf, joinRelative,
    List.splitOn_intercalate _ (fun l hl => (hplain l hl).no_slash) (by simp),
    List.dropLast_concat]

/-- `join_relative` as the source writes it. -/
theorem joinRelative_rendered {parent : List Text}
    (hplain : ∀ component ∈ parent, PlainComponent component) (name : Text) :
    joinRelative parent name = if (['/'].intercalate parent).isEmpty then name
      else ['/'].intercalate parent ++ '/' :: name := by
  cases parent with
  | nil => simp [joinRelative]
  | cons first rest =>
    have hfirst := (hplain first List.mem_cons_self).nonempty
    have hrendered : ['/'].intercalate (first :: rest) ≠ [] := by
      cases rest <;> simp [List.intercalate_cons_cons, hfirst]
    rw [joinRelative_eq, if_neg (by simp), if_neg (by simpa using hrendered), List.append_assoc]
    rfl

/-- An accepted rename leads from one name to another in the same directory. -/
theorem planRename_siblings {raw newName : Text} {plan : RenamePlan}
    (h : planRename raw newName = .ok plan) :
    ∃ parent name, plan.path = joinRelative parent name ∧
      plan.destination = joinRelative parent newName ∧ name ≠ newName ∧
      validateRelative plan.path = some (parent ++ [name]) ∧
      validateRelative plan.destination = some (parent ++ [newName]) := by
  unfold planRename validateName at h
  cases hpath : normalize raw false with
  | error error => simp [hpath, bind, Except.bind] at h
  | ok path =>
    by_cases hsafe : safeAdminFilename newName = true
    · obtain ⟨parent, name, hplain, rfl⟩ := normalize_ok hpath
      have hpar : ∀ component ∈ parent, PlainComponent component :=
        fun component hmem => hplain component (List.mem_append_left _ hmem)
      have hnew : ∀ component ∈ parent ++ [newName], PlainComponent component := by
        intro component hmem
        obtain hmem | hmem := List.mem_append.mp hmem
        · exact hpar component hmem
        · exact List.mem_singleton.mp hmem ▸ of_safeAdminFilename hsafe
      have hdst := joinRelative_rendered hpar newName
      rw [← parentOf_join hplain] at hdst
      simp only [hpath, hsafe, bind, Except.bind, if_true, ← hdst] at h
      split_ifs at h with hsame
      obtain rfl := Except.ok.inj h
      refine ⟨parent, name, rfl, rfl, ?_, validateRelative_render hplain,
        validateRelative_render hnew⟩
      rintro rfl
      exact hsame rfl
    · simp [hpath, hsafe, bind, Except.bind] at h

/-- For all names and paths the checks agree with each other. -/
theorem path_checks_consistent :
    (∀ raw components, validateRelative raw = some components →
      raw.head? ≠ some '/' ∧
      (∀ component ∈ components, component ≠ [] ∧ component ≠ ['.'] ∧ component ≠ ['.', '.'] ∧
        '/' ∉ component ∧ ¬SpellsInternal component) ∧
      validateRelative (['/'].intercalate components) = some components) ∧
    (∀ names : List Text, (∀ name ∈ names, safeFilename name = true) →
      validateRelative (['/'].intercalate names) = some names) ∧
    (∀ name, safeAdminFilename name = true →
      PrivateNames.isUploadFragmentName name = false ∧
      PrivateNames.isDeletionTombstoneName name = false ∧
      PrivateNames.isDeletionPendingName name = false) ∧
    ∀ raw newName plan, planRename raw newName = .ok plan →
      ∃ parent name, plan.path = joinRelative parent name ∧
        plan.destination = joinRelative parent newName ∧ name ≠ newName ∧
        validateRelative plan.path = some (parent ++ [name]) ∧
        validateRelative plan.destination = some (parent ++ [newName]) := by
  refine ⟨fun raw components h => ⟨validateRelative_not_absolute h, fun component hmem => ?_,
    validateRelative_render (of_validateRelative h)⟩, fun names hsafe => ?_,
    fun name => not_private_of_safeAdminFilename, fun raw newName plan => planRename_siblings⟩
  · have hplain := of_validateRelative h component hmem
    refine ⟨hplain.nonempty, hplain.not_dot, hplain.not_dotdot, hplain.no_slash, ?_⟩
    rw [← isInternalStorageName_iff, hplain.not_internal]
    exact Bool.false_ne_true
  · exact validateRelative_render fun name hname => of_safeFilename (hsafe name hname)

theorem path_checks_consistent_accepts :
    ∃ plan, planRename "a/./b".toList "c".toList = .ok plan ∧
      ∃ parent name, plan.path = joinRelative parent name ∧
        plan.destination = joinRelative parent "c".toList ∧ name ≠ "c".toList ∧
        validateRelative plan.path = some (parent ++ [name]) ∧
        validateRelative plan.destination = some (parent ++ ["c".toList]) :=
  ⟨⟨"a/b".toList, "c".toList, "a/c".toList⟩, by decide +kernel,
    path_checks_consistent.2.2.2 "a/./b".toList "c".toList _ (by decide +kernel)⟩

end Paths

end VaultLink
