import VaultLink.Schema

/-!
# Relative paths and file names

Paths arrive as text and are checked once: what is accepted is a list of components without
empty, `.`, `..` or internal ones. Rendering such a list and checking it again gives the
same list, which is what lets a journal store paths as text.
-/
namespace VaultLink

def internalStorageDirectoryName : Text := ".vaultlink-internal".toList

/-- `trim_end_matches(['.', ' '])`. -/
def trimEndDotsAndSpaces (name : Text) : Text :=
  (name.reverse.dropWhile fun c => c = '.' || c = ' ').reverse

/-- `is_internal_storage_name`, up to ASCII case and trailing dots or spaces. -/
def isInternalStorageName (name : Text) : Bool :=
  (trimEndDotsAndSpaces name).map Char.toLower = internalStorageDirectoryName

/-- `Path::components` of a relative path, without the current-directory ones. -/
def pathComponents (raw : Text) : List Text :=
  (raw.splitOn '/').filter fun component => component ≠ [] && component ≠ ['.']

/-- `validate_relative`: the components of an accepted path. -/
def validateRelative (raw : Text) : Option (List Text) :=
  if raw.contains '\x00' || raw.contains '\\' || raw.head? = some '/' then none
  else
    let components := pathComponents raw
    if components.any fun component => component = ['.', '.'] || isInternalStorageName component
    then none
    else some components

def isControl (c : Char) : Bool := c.val < 0x20 || (0x7f ≤ c.val && c.val ≤ 0x9f)

/-- The device names that Windows reserves, with any extension. -/
def isWindowsReserved (name : Text) : Bool :=
  let stem := (name.takeWhile (· ≠ '.')).map Char.toUpper
  let numbered := fun device : String =>
    stem.take 3 = device.toList &&
      (['1', '2', '3', '4', '5', '6', '7', '8', '9'].any fun digit => stem.drop 3 = [digit])
  ["CON", "PRN", "AUX", "NUL"].any (fun device => stem = device.toList) ||
    numbered "COM" || numbered "LPT"

def safeFilename (name : Text) : Bool :=
  !(name.isEmpty || 255 < (String.ofList name).utf8ByteSize || name = ['.'] || name = ['.', '.'] ||
    name.getLast?.any (fun c => c = '.' || c = ' ') || isInternalStorageName name ||
    name.any (fun c => "/\\\x00:<>\"|?*".toList.contains c) || name.any isControl ||
    isWindowsReserved name || pathComponents name ≠ [name])

/-- `private_token_name`: a random token of 24 characters between a prefix and a suffix. -/
def privateTokenName (name : Text) (before after : String) : Bool :=
  let token := (name.drop before.length).take (name.length - before.length - after.length)
  name = before.toList ++ token ++ after.toList && token.length = 24 &&
    token.all fun c => c.isAlphanum || c = '-' || c = '_'

def isPrivateAdminFilename (name : Text) : Bool :=
  privateTokenName name ".vaultlink-" ".part" ||
    privateTokenName name ".vaultlink-delete-" ".tombstone" ||
    privateTokenName name ".vaultlink-delete-pending-" ".pending"

def safeAdminFilename (name : Text) : Bool :=
  safeFilename name && !(isPrivateAdminFilename name || isInternalStorageName name)

/-- `join_relative`, on the components of the parent. -/
def joinRelative (parent : List Text) (name : Text) : Text :=
  ['/'].intercalate (parent ++ [name])

def joinDisplay (base child : Text) : Text :=
  if base.isEmpty || base = ['.'] then child else base ++ '/' :: child

/-- The field limits of `RequiredAuditEvent::validate`. -/
def auditFits (objectId : Text) (detail : String) : Bool :=
  (String.ofList objectId).utf8ByteSize ≤ 4096 && detail.utf8ByteSize ≤ 16384

section RoundTrip

/-- A component that `validate_relative` keeps. -/
structure PlainComponent (component : Text) : Prop where
  nonempty : component ≠ []
  not_dot : component ≠ ['.']
  not_dotdot : component ≠ ['.', '.']
  not_internal : isInternalStorageName component = false
  no_slash : '/' ∉ component
  no_nul : '\x00' ∉ component
  no_backslash : '\\' ∉ component

theorem mem_of_mem_splitOn {raw piece : Text} (h : piece ∈ raw.splitOn '/') :
    ∀ c ∈ piece, c ∈ raw ∧ c ≠ '/' := by
  induction raw generalizing piece with
  | nil => simp_all
  | cons head rest ih =>
    rw [List.splitOn_cons_eq_if_modifyHead] at h
    obtain ⟨first, others, hsplit⟩ := List.exists_cons_of_ne_nil (List.splitOn_ne_nil '/' rest)
    have hstep : ∀ piece ∈ first :: others, ∀ c ∈ piece, c ∈ head :: rest ∧ c ≠ '/' := by
      intro piece hpiece c hc
      obtain ⟨hmem, hne⟩ := ih (hsplit ▸ hpiece) c hc
      exact ⟨List.mem_cons_of_mem head hmem, hne⟩
    split at h
    · obtain rfl | h := List.mem_cons.mp h
      · simp
      · exact hstep piece (hsplit ▸ h)
    · rename_i hslash
      rw [hsplit, List.modifyHead_cons, List.mem_cons] at h
      obtain rfl | h := h
      · intro c hc
        obtain rfl | hc := List.mem_cons.mp hc
        · exact ⟨List.mem_cons_self, by simpa using hslash⟩
        · exact hstep first List.mem_cons_self c hc
      · exact hstep piece (List.mem_cons_of_mem first h)

theorem PlainComponent.of_validateRelative {raw : Text} {components : List Text}
    (h : validateRelative raw = some components) :
    ∀ component ∈ components, PlainComponent component := by
  simp only [validateRelative] at h
  split at h
  · cases h
  rename_i hraw
  split at h
  · cases h
  rename_i hall
  cases h
  simp only [Bool.or_eq_true, not_or, List.contains_iff_mem, decide_eq_true_eq] at hraw
  intro component hmem
  obtain ⟨hpiece, hplain⟩ := List.mem_filter.mp hmem
  have hchars := mem_of_mem_splitOn hpiece
  have hnot : ¬(component = ['.', '.'] ∨ isInternalStorageName component = true) := by
    intro hbad
    exact hall (List.any_eq_true.mpr ⟨component, hmem, by simpa using hbad⟩)
  simp only [Bool.and_eq_true, decide_eq_true_eq] at hplain
  exact
    { nonempty := hplain.1
      not_dot := hplain.2
      not_dotdot := fun heq => hnot (.inl heq)
      not_internal := by simpa using fun heq => hnot (.inr heq)
      no_slash := fun hc => (hchars _ hc).2 rfl
      no_nul := fun hc => hraw.1.1 (hchars _ hc).1
      no_backslash := fun hc => hraw.1.2 (hchars _ hc).1 }

theorem PlainComponent.of_safeFilename {name : Text} (h : safeFilename name = true) :
    PlainComponent name := by
  simp only [safeFilename, Bool.not_eq_true', Bool.or_eq_false_iff, List.any_eq_false] at h
  obtain ⟨⟨⟨⟨⟨⟨⟨⟨⟨hemp, -⟩, hdot⟩, hdotdot⟩, -⟩, hinternal⟩, hchars⟩, -⟩, -⟩, -⟩ := h
  have hnot : ∀ c ∈ "/\\\x00:<>\"|?*".toList, c ∉ name := by
    intro c hc hmem
    exact hchars c hmem (List.contains_iff_mem.mpr hc)
  exact
    { nonempty := by simpa using hemp
      not_dot := by simpa using hdot
      not_dotdot := by simpa using hdotdot
      not_internal := hinternal
      no_slash := hnot '/' (by decide)
      no_nul := hnot '\x00' (by decide)
      no_backslash := hnot '\\' (by decide) }

theorem PlainComponent.of_safeAdminFilename {name : Text} (h : safeAdminFilename name = true) :
    PlainComponent name := by
  rw [safeAdminFilename, Bool.and_eq_true] at h
  exact PlainComponent.of_safeFilename h.1

theorem mem_intercalate_slash {components : List Text} {c : Char}
    (h : c ∈ ['/'].intercalate components) : c = '/' ∨ ∃ component ∈ components, c ∈ component := by
  induction components with
  | nil => simp at h
  | cons first rest ih =>
    cases rest with
    | nil => exact .inr ⟨first, List.mem_cons_self, by simpa using h⟩
    | cons second rest =>
      rw [List.intercalate_cons_cons] at h
      simp only [List.mem_append, List.mem_singleton] at h
      obtain (h | h) | h := h
      · exact .inr ⟨first, List.mem_cons_self, h⟩
      · exact .inl h
      · obtain h | ⟨component, hmem, hc⟩ := ih h
        · exact .inl h
        · exact .inr ⟨component, List.mem_cons_of_mem first hmem, hc⟩

theorem joinRelative_eq (parent : List Text) (name : Text) :
    joinRelative parent name =
      (if parent = [] then [] else ['/'].intercalate parent ++ ['/']) ++ name := by
  unfold joinRelative
  induction parent with
  | nil => simp
  | cons first rest ih =>
    cases rest with
    | nil => simp [List.intercalate_cons_cons]
    | cons second rest =>
      simp only [List.cons_append] at ih ⊢
      rw [List.intercalate_cons_cons, ih, List.intercalate_cons_cons]
      simp

theorem pathComponents_render {components : List Text}
    (h : ∀ component ∈ components, PlainComponent component) :
    pathComponents (['/'].intercalate components) = components := by
  cases components with
  | nil => rfl
  | cons first rest =>
    rw [pathComponents, List.splitOn_intercalate _ (fun l hl => (h l hl).no_slash) (by simp)]
    refine List.filter_eq_self.mpr fun component hmem => ?_
    simp [(h component hmem).nonempty, (h component hmem).not_dot]

theorem splitOn_append_slash (base rest : Text) :
    (base ++ '/' :: rest).splitOn '/' = base.splitOn '/' ++ rest.splitOn '/' := by
  induction base with
  | nil => simp [List.splitOn_cons_eq_if_modifyHead]
  | cons c base ih =>
    rw [List.cons_append, List.splitOn_cons_eq_if_modifyHead,
      List.splitOn_cons_eq_if_modifyHead, ih]
    obtain ⟨first, others, hsplit⟩ := List.exists_cons_of_ne_nil (List.splitOn_ne_nil '/' base)
    rw [hsplit]
    split <;> simp

theorem pathComponents_append_slash (base rest : Text) :
    pathComponents (base ++ '/' :: rest) = pathComponents base ++ pathComponents rest := by
  unfold pathComponents
  rw [splitOn_append_slash, List.filter_append]

/-- Rendered components are accepted as they are. -/
theorem validateRelative_render {components : List Text}
    (h : ∀ component ∈ components, PlainComponent component) :
    validateRelative (['/'].intercalate components) = some components := by
  have hchar : ∀ c, c ≠ '/' → (∀ component ∈ components, c ∉ component) →
      c ∉ ['/'].intercalate components := by
    intro c hne hnone hmem
    obtain heq | ⟨component, hcom, hc⟩ := mem_intercalate_slash hmem
    · exact hne heq
    · exact hnone component hcom hc
  have hnul := hchar '\x00' (by decide) fun component hmem => (h component hmem).no_nul
  have hback := hchar '\\' (by decide) fun component hmem => (h component hmem).no_backslash
  have hhead : (['/'].intercalate components).head? ≠ some '/' := by
    cases components with
    | nil => simp
    | cons first rest =>
      obtain ⟨c, cs, rfl⟩ := List.exists_cons_of_ne_nil (h first List.mem_cons_self).nonempty
      have hc : c ≠ '/' := fun heq =>
        (h (c :: cs) List.mem_cons_self).no_slash (heq ▸ List.mem_cons_self)
      cases rest <;> simp [List.intercalate_cons_cons, hc]
  have hall : (components.any fun component =>
      component = ['.', '.'] || isInternalStorageName component) = false := by
    refine List.any_eq_false.mpr fun component hmem => ?_
    simp [(h component hmem).not_dotdot, (h component hmem).not_internal]
  unfold validateRelative
  rw [if_neg (by simp [hnul, hback, hhead])]
  simp [pathComponents_render h, hall]

end RoundTrip

end VaultLink
