import Mathlib.Tactic.IntervalCases
import VaultLink.SelfDelimiting
import VaultLink.UploadForms

/-!
# Fingerprints tell uploads apart

The bytes that a fingerprint is taken of are the JSON text of a tuple. Every part of that text
is self-delimiting, so that the tuple can be read back from it.
-/
namespace VaultLink

open Code

section Json

/-- The value of a lower-case hexadecimal digit. -/
def hexValue (c : Char) : ℕ := if c.isDigit then c.toNat - 48 else c.toNat - 87

/-- The inverse of `jsonEscape`. -/
def jsonUnescape : Text → Option (Char × Text)
  | [] => none
  | c :: rest =>
    if c ≠ '\\' then some (c, rest)
    else match rest with
      | 'b' :: rest => some ('\x08', rest)
      | 't' :: rest => some ('\t', rest)
      | 'n' :: rest => some ('\n', rest)
      | 'f' :: rest => some ('\x0c', rest)
      | 'r' :: rest => some ('\r', rest)
      | 'u' :: '0' :: '0' :: high :: low :: rest =>
        some (Char.ofNat (16 * hexValue high + hexValue low), rest)
      | c :: rest => some (c, rest)
      | [] => none

theorem jsonUnescape_jsonEscape (c : Char) (rest : Text) :
    jsonUnescape (jsonEscape c ++ rest) = some (c, rest) := by
  rw [jsonEscape]
  split_ifs with hquote hslash hb ht hn hf hr hcontrol
  · rw [hquote]
    rfl
  · rw [hslash]
    rfl
  · rw [hb]
    rfl
  · rw [ht]
    rfl
  · rw [hn]
    rfl
  · rw [hf]
    rfl
  · rw [hr]
    rfl
  · have hc : c = Char.ofNat c.toNat := (Char.ofNat_toNat c).symm
    generalize c.toNat = n at hc hcontrol
    subst hc
    interval_cases n <;> rfl
  · simp [jsonUnescape, hslash]

theorem unambiguous_jsonEscape : Unambiguous jsonEscape :=
  .of_decoder jsonUnescape jsonUnescape_jsonEscape

/-- No escape begins with a quotation mark. -/
theorem jsonEscape_append_ne (c : Char) (x y : Text) : jsonEscape c ++ x ≠ '"' :: y := by
  rw [jsonEscape]
  split_ifs <;> simp_all

theorem unambiguous_jsonString : Unambiguous jsonString := by
  intro a b x y heq
  rw [jsonString, jsonString, List.cons_append, List.cons_append] at heq
  exact unambiguous_jsonEscape.flatMap_concat jsonEscape_append_ne (List.cons.inj heq).2

theorem unambiguous_jsonBool : Unambiguous jsonBool := by
  intro a b x y heq
  cases a <;> cases b <;> simp_all [jsonBool]

/-- Numbers end with the comma behind them. -/
theorem unambiguous_jsonNumber : Unambiguous fun n => jsonNumber n ++ [','] := by
  refine unambiguous_concat Char.isDigit (fun n c hc => ?_) (by decide) fun m n heq => ?_
  · exact Nat.isDigit_of_mem_toDigits (by decide) (by decide) hc
  · have hread := congrArg (Nat.ofDigitChars 10 · 0) heq
    simpa only [jsonNumber, Nat.ofDigitChars_ten_toDigits] using hread

theorem utf8Bytes_injective : Function.Injective utf8Bytes := by
  intro a b heq
  have harray : (String.ofList a).toByteArray = (String.ofList b).toByteArray :=
    ByteArray.ext (Array.toList_inj.mp heq)
  exact String.ofList_inj.mp (String.toByteArray_inj.mp harray)

end Json

section Metadata

/-- The flag, the size and the digest, which end both tuples. -/
theorem jsonArray_end {overwrite overwrite' : Bool} {total total' : ℕ} {digest digest' : Text}
    (h : jsonBool overwrite ++ ',' :: (jsonNumber total ++ ',' :: (jsonString digest ++ [']'])) =
      jsonBool overwrite' ++ ',' :: (jsonNumber total' ++ ',' :: (jsonString digest' ++ [']']))) :
    overwrite = overwrite' ∧ total = total' ∧ digest = digest' := by
  obtain ⟨hoverwrite, h⟩ := unambiguous_jsonBool h
  obtain ⟨htotal, h⟩ := unambiguous_jsonNumber
    (show (jsonNumber total ++ [',']) ++ _ = (jsonNumber total' ++ [',']) ++ _ by
      simpa using (List.cons.inj h).2)
  obtain ⟨hdigest, -⟩ := unambiguous_jsonString h
  exact ⟨hoverwrite, htotal, hdigest⟩

theorem PreparedAdminUpload.metadata_inj {first second : PreparedAdminUpload}
    (h : first.metadata = second.metadata) :
    first.name = second.name ∧ first.directory = second.directory ∧
      first.overwriteExisting = second.overwriteExisting ∧ first.total = second.total ∧
      first.contentSha256 = second.contentSha256 := by
  have harray := utf8Bytes_injective h
  simp only [jsonArray, List.intercalate_cons_cons, List.intercalate_singleton, List.append_assoc,
    List.cons_append, List.cons.injEq, true_and] at harray
  obtain ⟨hname, harray⟩ := unambiguous_jsonString harray
  obtain ⟨hdirectory, harray⟩ := unambiguous_jsonString (List.cons.inj harray).2
  exact ⟨hname, hdirectory, jsonArray_end (List.cons.inj harray).2⟩

theorem PreparedPublicForm.metadata_inj {first second : PreparedPublicForm}
    (h : first.metadata = second.metadata) :
    first.fileName = second.fileName ∧ first.uploadBase = second.uploadBase ∧
      first.folderPath = second.folderPath ∧
      first.overwriteRequested = second.overwriteRequested ∧ first.total = second.total ∧
      first.contentSha256 = second.contentSha256 := by
  have harray := utf8Bytes_injective h
  simp only [jsonArray, List.intercalate_cons_cons, List.intercalate_singleton, List.append_assoc,
    List.cons_append, List.cons.injEq, true_and] at harray
  obtain ⟨hname, harray⟩ := unambiguous_jsonString harray
  obtain ⟨hbase, harray⟩ := unambiguous_jsonString (List.cons.inj harray).2
  obtain ⟨hfolder, harray⟩ := unambiguous_jsonString (List.cons.inj harray).2
  exact ⟨hname, hbase, hfolder, jsonArray_end (List.cons.inj harray).2⟩

end Metadata

end VaultLink
