import VaultLink.ByteMatching
import VaultLink.MultipartChunks

/-!
# What the multipart guard accepts

The bodies that pass the scanner form a language: a boundary, at the very start or after a
bounded preamble, and then parts that are each a bounded rest of the boundary line, a bounded
header block and a content, until a boundary is followed by two hyphens. Where the header
block and the content end is always the leftmost place. Each phase of the scanner accepts
what its part of this grammar describes, by induction on the bytes that are left.
-/
namespace VaultLink

open Overlap

section Grammar

variable (boundary : List UInt8) (limits : MultipartGuardLimits)

/-- What may follow a boundary. -/
inductive Delimited : List UInt8 → Prop
  | closing (epilogue : List UInt8) : Delimited (hyphen :: hyphen :: epilogue)
  | part {padding afterLine header afterHeader content rest : List UInt8}
      (padded : ∀ byte ∈ padding, isPadding byte)
      (padding_le : padding.length ≤ limits.maxHeaderBytes)
      (headed : Leftmost headerTerminator afterLine header afterHeader)
      (header_le : header.length ≤ limits.maxHeaderBytes)
      (ended : Leftmost (delimiter boundary) afterHeader content rest)
      (delimited : Delimited rest) :
      Delimited (padding ++ carriageReturn :: newline :: afterLine)

/-- A multipart body. A boundary at its start is never taken for a part of the preamble. -/
inductive Multipart : List UInt8 → Prop
  | atStart {rest : List UInt8} (delimited : Delimited boundary limits rest) :
      Multipart (openingBoundary boundary ++ rest)
  | afterPreamble {body preamble rest : List UInt8}
      (late : ¬openingBoundary boundary <+: body)
      (opened : Leftmost (delimiter boundary) body preamble rest)
      (preamble_le : preamble.length ≤ limits.maxPreambleBytes)
      (delimited : Delimited boundary limits rest) : Multipart body

/-- What may follow a header block. -/
def Contents (bytes : List UInt8) : Prop :=
  ∃ content rest, Leftmost (delimiter boundary) bytes content rest ∧
    Delimited boundary limits rest

/-- What may follow a boundary line. -/
def HeaderBlock (bytes : List UInt8) : Prop :=
  ∃ header after, Leftmost headerTerminator bytes header after ∧
    header.length ≤ limits.maxHeaderBytes ∧ Contents boundary limits after

/-- The rest of a boundary line of which so much padding has been read, and what follows. -/
def BoundaryLine (seen : ℕ) (bytes : List UInt8) : Prop :=
  ∃ padding after, bytes = padding ++ carriageReturn :: newline :: after ∧
    (∀ byte ∈ padding, isPadding byte) ∧ seen + padding.length ≤ limits.maxHeaderBytes ∧
    HeaderBlock boundary limits after

variable {boundary limits}

theorem delimited_iff {bytes : List UInt8} :
    Delimited boundary limits bytes ↔
      (∃ epilogue, bytes = hyphen :: hyphen :: epilogue) ∨
        BoundaryLine boundary limits 0 bytes := by
  constructor
  · rintro (epilogue | ⟨padded, padding_le, headed, header_le, ended, delimited⟩)
    · exact .inl ⟨epilogue, rfl⟩
    · exact .inr ⟨_, _, rfl, padded, by omega, _, _, headed, header_le, _, _, ended, delimited⟩
  · rintro (⟨epilogue, rfl⟩ |
      ⟨padding, after, rfl, padded, hle, header, _, headed, header_le, _, _, ended, delimited⟩)
    · exact .closing epilogue
    · exact .part padded (by omega) headed header_le ended delimited

section Lines

variable {seen : ℕ} {byte : UInt8} {bytes : List UInt8}

theorem not_boundaryLine_nil : ¬BoundaryLine boundary limits seen [] := by
  rintro ⟨padding, after, hnil, -⟩
  cases (List.append_eq_nil_iff.mp hnil.symm).2

theorem boundaryLine_cons_padding (h : isPadding byte) :
    BoundaryLine boundary limits seen (byte :: bytes) ↔
      BoundaryLine boundary limits (seen + 1) bytes := by
  constructor
  · rintro ⟨padding, after, hbytes, padded, hle, hblock⟩
    cases padding with
    | nil =>
      cases hbytes
      cases h
    | cons first padding =>
      cases hbytes
      refine ⟨padding, after, rfl, fun b hb => padded b (List.mem_cons_of_mem _ hb), ?_, hblock⟩
      rw [List.length_cons] at hle
      omega
  · rintro ⟨padding, after, rfl, padded, hle, hblock⟩
    refine ⟨byte :: padding, after, rfl, List.forall_mem_cons.mpr ⟨h, padded⟩, ?_, hblock⟩
    rw [List.length_cons]
    omega

theorem boundaryLine_cons_return (hle : seen ≤ limits.maxHeaderBytes) :
    BoundaryLine boundary limits seen (carriageReturn :: bytes) ↔
      ∃ after, bytes = newline :: after ∧ HeaderBlock boundary limits after := by
  constructor
  · rintro ⟨padding, after, hbytes, padded, -, hblock⟩
    cases padding with
    | nil =>
      cases hbytes
      exact ⟨after, rfl, hblock⟩
    | cons first padding =>
      cases hbytes
      cases padded carriageReturn List.mem_cons_self
  · rintro ⟨after, rfl, hblock⟩
    exact ⟨[], after, rfl, by simp, hle, hblock⟩

theorem not_boundaryLine_cons (hpadding : ¬isPadding byte) (hreturn : byte ≠ carriageReturn) :
    ¬BoundaryLine boundary limits seen (byte :: bytes) := by
  rintro ⟨padding, after, hbytes, padded, -, -⟩
  cases padding with
  | nil =>
    cases hbytes
    exact hreturn rfl
  | cons first padding =>
    cases hbytes
    exact hpadding (padded byte List.mem_cons_self)

end Lines

end Grammar

namespace MultipartScanner

section Acceptance

variable {scanner scanner' : MultipartScanner} {byte : UInt8} {bytes : List UInt8}

/-- The automaton reads the bytes and ends in the epilogue. -/
def Accepts (scanner : MultipartScanner) (bytes : List UInt8) : Prop :=
  ∃ scanner', scanner.runFrom 0 bytes = .ok scanner' ∧ scanner'.finish = .ok ()

theorem accepts_nil : scanner.Accepts [] ↔ scanner.finish = .ok () := by
  constructor
  · rintro ⟨scanner', hrun, hfinish⟩
    cases hrun
    exact hfinish
  · exact fun hfinish => ⟨scanner, rfl, hfinish⟩

theorem accepts_cons (h : scanner.scanByte byte = .ok scanner') :
    scanner.Accepts (byte :: bytes) ↔ scanner'.Accepts bytes := by
  have hrun : scanner.runFrom 0 (byte :: bytes) = (scanner'.runFrom 0 bytes).mapError
      fun failure => ⟨failure.error, 1 + failure.index⟩ := by
    rw [← runFrom_add, runFrom, h]
  rw [Accepts, hrun, Accepts]
  cases scanner'.runFrom 0 bytes <;> simp [Except.mapError]

theorem not_accepts_cons {error : MultipartGuardBodyError}
    (h : scanner.scanByte byte = .error error) : ¬scanner.Accepts (byte :: bytes) := by
  rintro ⟨scanner', hrun, -⟩
  simp [runFrom, h] at hrun

theorem accepts_of_epilogue (h : scanner.phase = .epilogue) (bytes : List UInt8) :
    scanner.Accepts bytes := by
  induction bytes with
  | nil => exact accepts_nil.mpr (by rw [finish, h])
  | cons byte bytes ih =>
    have hstep : scanner.scanByte byte = .ok scanner := by rw [scanByte, h]
    exact (accepts_cons hstep).mpr ih

end Acceptance

section Phases

variable (boundary : List UInt8) (limits : MultipartGuardLimits)

/-- What no phase changes: the limits, and what the matchers look for that are reset. -/
structure Prepared (scanner : MultipartScanner) : Prop where
  limits_eq : scanner.limits = limits
  header : ∃ text, scanner.headerEnd.Tracks headerTerminator text
  body : ∃ text, scanner.bodyBoundary.Tracks (delimiter boundary) text

/-- The scanner has read this much of a content. -/
structure ReadsContent (scanner : MultipartScanner) (text : List UInt8) : Prop
    extends Prepared boundary limits scanner where
  phase : scanner.phase = .body
  tracks : scanner.bodyBoundary.Tracks (delimiter boundary) text

/-- The scanner has read this much of a header block. -/
structure ReadsHeader (scanner : MultipartScanner) (text : List UInt8) : Prop
    extends Prepared boundary limits scanner where
  phase : scanner.phase = .headers
  seen : scanner.headerSeen = text.length
  tracks : scanner.headerEnd.Tracks headerTerminator text

/-- The scanner is behind a boundary, in this state of the rest of its line. -/
structure ReadsSuffix (scanner : MultipartScanner) (suffix : BoundarySuffixPhase) : Prop
    extends Prepared boundary limits scanner where
  phase : scanner.phase = .boundarySuffix
  suffix_eq : scanner.boundarySuffixPhase = suffix

/-- The scanner has read this much without a boundary. -/
structure ReadsPreamble (scanner : MultipartScanner) (text : List UInt8) : Prop
    extends Prepared boundary limits scanner where
  phase : scanner.phase = .preamble
  seen : scanner.preambleSeen = text.length
  initialLen : scanner.initialBoundary.patternLen = (openingBoundary boundary).length
  initial : text.length < (openingBoundary boundary).length →
    scanner.initialBoundary.Tracks (openingBoundary boundary) text
  tracks : scanner.preambleBoundary.Tracks (delimiter boundary) text

theorem readsPreamble_new : ReadsPreamble boundary limits (new boundary limits) [] where
  limits_eq := rfl
  header := ⟨[], ByteMatcher.tracks_new headerTerminator (by decide)⟩
  body := ⟨[], ByteMatcher.tracks_new (delimiter boundary) (by simp [delimiter])⟩
  phase := rfl
  seen := rfl
  initialLen := rfl
  initial _ := ByteMatcher.tracks_new (openingBoundary boundary) (by simp [openingBoundary])
  tracks := ByteMatcher.tracks_new (delimiter boundary) (by simp [delimiter])

/-- What the induction on the length knows about the rests behind a boundary. -/
def KnownBelow (length : ℕ) : Prop :=
  ∀ {scanner : MultipartScanner} {rest : List UInt8}, rest.length < length →
    ReadsSuffix boundary limits scanner .first →
    (scanner.Accepts rest ↔ Delimited boundary limits rest)

variable {boundary limits} {scanner : MultipartScanner} {text bytes : List UInt8}

theorem KnownBelow.mono {m n : ℕ} (h : KnownBelow boundary limits n) (hle : m ≤ n) :
    KnownBelow boundary limits m :=
  fun hrest => h (hrest.trans_le hle)

theorem saturatingAddU64_succ {n : ℕ} (h : n < 2 ^ 63) : saturatingAddU64 n 1 = n + 1 := by
  rw [saturatingAddU64]
  omega

theorem length_of_append_cons {rest : List UInt8} {byte : UInt8}
    (h : text ++ byte :: rest = bytes) :
    text.length + rest.length + 1 = bytes.length := by
  rw [← h, List.length_append, List.length_cons]
  omega

theorem saturatingAddU64_lt_iff {a b n : ℕ} (h : n < 2 ^ 63) :
    saturatingAddU64 a b < n ↔ a + b < n := by
  rw [saturatingAddU64]
  omega

section Content

theorem ReadsContent.scanByte (h : ReadsContent boundary limits scanner text) (byte : UInt8) :
    (delimiter boundary <:+ text ++ [byte] →
      ∃ scanner', scanner.scanByte byte = .ok scanner' ∧
        ReadsSuffix boundary limits scanner' .first) ∧
    (¬delimiter boundary <:+ text ++ [byte] →
      ∃ scanner', scanner.scanByte byte = .ok scanner' ∧
        ReadsContent boundary limits scanner' (text ++ [byte])) := by
  obtain ⟨htra, hended⟩ := h.tracks.feed byte
  rw [MultipartScanner.scanByte, h.phase]
  simp only [scanBody]
  constructor
  · intro hends
    rw [if_pos (hended.mpr hends)]
    exact ⟨_, rfl, ⟨h.limits_eq, h.header, _, htra⟩, rfl, rfl⟩
  · intro hends
    rw [if_neg (mt hended.mp hends)]
    exact ⟨_, rfl, ⟨h.limits_eq, h.header, _, htra⟩, h.phase, htra⟩

theorem ReadsContent.accepts_iff (h : ReadsContent boundary limits scanner [])
    (hnext : KnownBelow boundary limits bytes.length) :
    scanner.Accepts bytes ↔ Contents boundary limits bytes := by
  refine accepts_iff_leftmost (ReadsContent boundary limits)
    (fun _ rest => Delimited boundary limits rest) (by simp [delimiter]) ?_ ?_ ?_ h
  · intro s T hreads
    rw [accepts_nil, finish, hreads.phase]
    exact nofun
  · intro s T byte rest hreads htext hends
    obtain ⟨s', hstep, hsuf⟩ := (hreads.scanByte byte).1 hends
    rw [accepts_cons hstep]
    refine hnext ?_ hsuf
    rw [← htext, List.length_append, List.length_cons]
    omega
  · intro s T byte rest hreads htext hends
    obtain ⟨s', hstep, hreads'⟩ := (hreads.scanByte byte).2 hends
    exact .inl ⟨s', hreads', accepts_cons hstep⟩

end Content

section Header

theorem ReadsHeader.scanByte (h : ReadsHeader boundary limits scanner text) (byte : UInt8)
    (hsho : text.length + 1 < 2 ^ 63) :
    (headerTerminator <:+ text ++ [byte] →
      if text.length + 1 - headerTerminator.length ≤ limits.maxHeaderBytes then
        ∃ scanner', scanner.scanByte byte = .ok scanner' ∧
          ReadsContent boundary limits scanner' []
      else scanner.scanByte byte = .error .headerTooLarge) ∧
    (¬headerTerminator <:+ text ++ [byte] →
      if text.length + 1 ≤ limits.maxHeaderBytes + headerTerminator.length then
        ∃ scanner', scanner.scanByte byte = .ok scanner' ∧
          ReadsHeader boundary limits scanner' (text ++ [byte])
      else scanner.scanByte byte = .error .headerTooLarge) := by
  obtain ⟨htra, hended⟩ := h.tracks.feed byte
  rw [MultipartScanner.scanByte, h.phase]
  simp only [scanHeader, h.seen, saturatingAddU64_succ (show text.length < 2 ^ 63 by omega),
    h.tracks.patternLen, h.limits_eq, saturatingAddU64_lt_iff hsho]
  constructor
  · intro hends
    rw [if_pos (hended.mpr hends)]
    split_ifs with hle hlt hlt
    · omega
    · obtain ⟨bodyText, hbody⟩ := h.body
      exact ⟨_, rfl, ⟨rfl, ⟨_, htra⟩, _, hbody.reset⟩, rfl, hbody.reset⟩
    · rfl
    · omega
  · intro hends
    rw [if_neg (mt hended.mp hends)]
    split_ifs with hle hlt hlt
    · omega
    · exact ⟨_, rfl, ⟨rfl, ⟨_, htra⟩, h.body⟩, h.phase, by simp, htra⟩
    · rfl
    · omega

theorem ReadsHeader.accepts_iff (h : ReadsHeader boundary limits scanner [])
    (hsho : bytes.length < 2 ^ 63)
    (hnext : KnownBelow boundary limits bytes.length) :
    scanner.Accepts bytes ↔ HeaderBlock boundary limits bytes := by
  refine accepts_iff_leftmost (ReadsHeader boundary limits)
    (fun n after => n ≤ limits.maxHeaderBytes ∧ Contents boundary limits after)
    (by decide) ?_ ?_ ?_ h
  · intro s T hreads
    rw [accepts_nil, finish, hreads.phase]
    exact nofun
  · intro s T byte after hreads htext hends
    have htot := length_of_append_cons htext
    have hstep := (hreads.scanByte byte (by omega)).1 hends
    split_ifs at hstep with hle
    · obtain ⟨s', hstep, hcon⟩ := hstep
      rw [accepts_cons hstep, hcon.accepts_iff (hnext.mono (by omega))]
      simp [hle]
    · exact iff_of_false (not_accepts_cons hstep) fun hfol => hle hfol.1
  · intro s T byte rest hreads htext hends
    have htot := length_of_append_cons htext
    have hstep := (hreads.scanByte byte (by omega)).2 hends
    split_ifs at hstep with hle
    · obtain ⟨s', hstep, hreads'⟩ := hstep
      exact .inl ⟨s', hreads', accepts_cons hstep⟩
    · refine .inr ⟨not_accepts_cons hstep, fun n after hlate hfol => ?_⟩
      have := hfol.1
      omega

end Header

section Suffix

theorem ReadsSuffix.not_accepts_nil {suffix : BoundarySuffixPhase}
    (h : ReadsSuffix boundary limits scanner suffix) : ¬scanner.Accepts [] := by
  rw [accepts_nil, finish, h.phase]
  exact nofun

theorem ReadsSuffix.scanByte {suffix : BoundarySuffixPhase}
    (h : ReadsSuffix boundary limits scanner suffix) (byte : UInt8) :
    scanner.scanByte byte = scanner.scanBoundarySuffix byte := by
  rw [MultipartScanner.scanByte, h.phase]

theorem ReadsSuffix.accepts_closingHyphen_iff
    (h : ReadsSuffix boundary limits scanner .closingHyphen) :
    scanner.Accepts bytes ↔ ∃ epilogue, bytes = hyphen :: epilogue := by
  cases bytes with
  | nil => exact iff_of_false h.not_accepts_nil (by simp)
  | cons byte bytes =>
    have hstep := h.scanByte byte
    simp only [scanBoundarySuffix, h.suffix_eq] at hstep
    by_cases hbyte : byte = hyphen
    · rw [if_neg (not_not.mpr hbyte)] at hstep
      rw [accepts_cons hstep, hbyte]
      exact iff_of_true (accepts_of_epilogue rfl bytes) ⟨bytes, rfl⟩
    · rw [if_pos hbyte] at hstep
      refine iff_of_false (not_accepts_cons hstep) ?_
      rintro ⟨epilogue, hbytes⟩
      cases hbytes
      exact hbyte rfl

/-- After the carriage return of a boundary line. -/
theorem ReadsSuffix.accepts_lineFeed_iff (h : ReadsSuffix boundary limits scanner .lineFeed)
    (hsho : bytes.length < 2 ^ 63)
    (hnext : KnownBelow boundary limits bytes.length) :
    scanner.Accepts bytes ↔
      ∃ after, bytes = newline :: after ∧ HeaderBlock boundary limits after := by
  cases bytes with
  | nil => exact iff_of_false h.not_accepts_nil (by simp)
  | cons byte bytes =>
    have hstep := h.scanByte byte
    simp only [scanBoundarySuffix, h.suffix_eq] at hstep
    rw [List.length_cons] at hsho
    by_cases hbyte : byte = newline
    · subst hbyte
      rw [if_neg (by simp)] at hstep
      obtain ⟨headerText, hheader⟩ := h.header
      have hreads : ReadsHeader boundary limits scanner.startHeaders [] :=
        ⟨⟨h.limits_eq, ⟨_, hheader.reset⟩, h.body⟩, rfl, rfl, hheader.reset⟩
      rw [accepts_cons hstep, hreads.accepts_iff (by omega) (hnext.mono (by simp))]
      simp
    · rw [if_pos hbyte] at hstep
      refine iff_of_false (not_accepts_cons hstep) ?_
      rintro ⟨after, hbytes, -⟩
      cases hbytes
      exact hbyte rfl

/-- One byte of a boundary line. -/
theorem accepts_boundaryByte_iff {padded returned : MultipartScanner} {byte : UInt8} {seen : ℕ}
    (hstep : scanner.scanByte byte =
      if isPadding byte then
        if limits.maxHeaderBytes < seen + 1 then .error .boundaryPaddingTooLarge else .ok padded
      else if byte = carriageReturn then .ok returned
      else .error .invalidBoundaryLine)
    (hle : seen ≤ limits.maxHeaderBytes)
    (hpadded : seen + 1 ≤ limits.maxHeaderBytes →
      (padded.Accepts bytes ↔ BoundaryLine boundary limits (seen + 1) bytes))
    (hreturned : returned.Accepts bytes ↔
      ∃ after, bytes = newline :: after ∧ HeaderBlock boundary limits after) :
    scanner.Accepts (byte :: bytes) ↔ BoundaryLine boundary limits seen (byte :: bytes) := by
  by_cases hpadding : isPadding byte
  · rw [if_pos hpadding] at hstep
    rw [boundaryLine_cons_padding hpadding]
    split_ifs at hstep with hlim
    · refine iff_of_false (not_accepts_cons hstep) ?_
      rintro ⟨padding, after, -, -, hpaddingLe, -⟩
      omega
    · rw [accepts_cons hstep]
      exact hpadded (not_lt.mp hlim)
  · rw [if_neg hpadding] at hstep
    by_cases hreturn : byte = carriageReturn
    · rw [if_pos hreturn] at hstep
      rw [accepts_cons hstep, hreturn, boundaryLine_cons_return hle]
      exact hreturned
    · rw [if_neg hreturn] at hstep
      exact iff_of_false (not_accepts_cons hstep) (not_boundaryLine_cons hpadding hreturn)

/-- In the padding of a boundary line. -/
theorem ReadsSuffix.accepts_padding_iff (h : ReadsSuffix boundary limits scanner .padding)
    (hle : scanner.boundaryPaddingSeen ≤ limits.maxHeaderBytes)
    (hsho : scanner.boundaryPaddingSeen + bytes.length < 2 ^ 63)
    (hnext : KnownBelow boundary limits bytes.length) :
    scanner.Accepts bytes ↔
      BoundaryLine boundary limits scanner.boundaryPaddingSeen bytes := by
  induction bytes generalizing scanner with
  | nil => exact iff_of_false h.not_accepts_nil not_boundaryLine_nil
  | cons byte bytes ih =>
    have hstep := h.scanByte byte
    simp only [scanBoundarySuffix, h.suffix_eq, h.limits_eq] at hstep
    rw [List.length_cons] at hsho
    have hnext' : KnownBelow boundary limits bytes.length := hnext.mono (by simp)
    rw [saturatingAddU64_succ (by omega)] at hstep
    refine accepts_boundaryByte_iff hstep hle (fun hlim => ?_) ?_
    · exact ih ⟨⟨rfl, h.header, h.body⟩, h.phase, rfl⟩ (by dsimp only; omega)
        (by dsimp only; omega) hnext'
    · exact ReadsSuffix.accepts_lineFeed_iff ⟨⟨rfl, h.header, h.body⟩, h.phase, rfl⟩ (by omega)
        hnext'

/-- Behind a boundary. The contents of a part are shorter than what is left there, so that the
induction is on the length. -/
theorem ReadsSuffix.accepts_first_iff (h : ReadsSuffix boundary limits scanner .first)
    (hsho : bytes.length < 2 ^ 63) :
    scanner.Accepts bytes ↔ Delimited boundary limits bytes := by
  induction hleng : bytes.length using Nat.strong_induction_on generalizing scanner bytes with
  | h length ih =>
  cases bytes with
  | nil =>
    refine iff_of_false h.not_accepts_nil ?_
    rw [delimited_iff]
    rintro (⟨epilogue, hnil⟩ | hline)
    · cases hnil
    · exact not_boundaryLine_nil hline
  | cons byte bytes =>
    have hstep := h.scanByte byte
    simp only [scanBoundarySuffix, h.suffix_eq, h.limits_eq] at hstep
    rw [List.length_cons] at hsho hleng
    have hnext : KnownBelow boundary limits bytes.length :=
      fun hrest hs' => ih _ (by omega) hs' (by omega) rfl
    rw [delimited_iff]
    by_cases hhyphen : byte = hyphen
    · rw [if_pos hhyphen] at hstep
      subst hhyphen
      have hclosing : ReadsSuffix boundary limits
          { scanner with limits, boundarySuffixPhase := .closingHyphen } .closingHyphen :=
        ⟨⟨rfl, h.header, h.body⟩, h.phase, rfl⟩
      rw [accepts_cons hstep, hclosing.accepts_closingHyphen_iff,
        or_iff_left (not_boundaryLine_cons (by decide) (by decide))]
      simp
    · have hopen : ¬∃ epilogue, byte :: bytes = hyphen :: hyphen :: epilogue := by
        rintro ⟨epilogue, hbytes⟩
        cases hbytes
        exact hhyphen rfl
      rw [if_neg hhyphen] at hstep
      rw [or_iff_right hopen]
      refine accepts_boundaryByte_iff hstep (Nat.zero_le _) (fun hlim => ?_) ?_
      · exact ReadsSuffix.accepts_padding_iff ⟨⟨rfl, h.header, h.body⟩, h.phase, rfl⟩
          (by dsimp only; omega) (by dsimp only; omega) hnext
      · exact ReadsSuffix.accepts_lineFeed_iff ⟨⟨rfl, h.header, h.body⟩, h.phase, rfl⟩
          (by omega) hnext

end Suffix

section Preamble

/-- One byte before the boundary. -/
theorem ReadsPreamble.scanByte (h : ReadsPreamble boundary limits scanner text) (byte : UInt8)
    (hsho : text.length + 1 < 2 ^ 63) :
    (text ++ [byte] = openingBoundary boundary →
      ∃ scanner', scanner.scanByte byte = .ok scanner' ∧
        ReadsSuffix boundary limits scanner' .first) ∧
    (text ++ [byte] ≠ openingBoundary boundary → delimiter boundary <:+ text ++ [byte] →
      if text.length + 1 - (delimiter boundary).length ≤ limits.maxPreambleBytes then
        ∃ scanner', scanner.scanByte byte = .ok scanner' ∧
          ReadsSuffix boundary limits scanner' .first
      else scanner.scanByte byte = .error .preambleTooLarge) ∧
    (text ++ [byte] ≠ openingBoundary boundary → ¬delimiter boundary <:+ text ++ [byte] →
      if text.length + 1 ≤ limits.maxPreambleBytes + (delimiter boundary).length then
        ∃ scanner', scanner.scanByte byte = .ok scanner' ∧
          ReadsPreamble boundary limits scanner' (text ++ [byte])
      else scanner.scanByte byte = .error .preambleTooLarge) := by
  obtain ⟨htra, hended⟩ := h.tracks.feed byte
  -- The initial matcher answers whether the boundary is what has been read.
  obtain ⟨initialBoundary, openingAtStart, hfed, hlen, hinitial, hsta⟩ :
      ∃ initialBoundary openingAtStart,
        (if text.length + 1 ≤ (openingBoundary boundary).length then
          scanner.initialBoundary.feed byte else (scanner.initialBoundary, false)) =
          (initialBoundary, openingAtStart) ∧
        initialBoundary.patternLen = (openingBoundary boundary).length ∧
        (text.length + 1 < (openingBoundary boundary).length →
          initialBoundary.Tracks (openingBoundary boundary) (text ++ [byte])) ∧
        (openingAtStart = true ↔ text ++ [byte] = openingBoundary boundary) := by
    by_cases hearly : text.length + 1 ≤ (openingBoundary boundary).length
    · obtain ⟨hfed, hopg⟩ := (h.initial (by omega)).feed byte
      refine ⟨_, _, if_pos hearly, hfed.patternLen, fun _ => hfed, hopg.trans ?_⟩
      constructor
      · exact fun hsuf => (hsuf.eq_of_length_le (by simpa using hearly)).symm
      · exact fun heq => heq ▸ List.suffix_rfl
    · refine ⟨_, _, if_neg hearly, h.initialLen, fun hlt => absurd hlt (by omega), ?_⟩
      refine iff_of_false nofun fun heq => hearly ?_
      rw [← heq, List.length_append, List.length_singleton]
  rw [MultipartScanner.scanByte, h.phase]
  simp only [scanPreamble, h.seen, saturatingAddU64_succ (show text.length < 2 ^ 63 by omega),
    h.initialLen, hfed, h.tracks.patternLen, h.limits_eq, saturatingAddU64_lt_iff hsho]
  refine ⟨fun hopg => ?_, fun hopg hends => ?_, fun hopg hends => ?_⟩
  · have hleng := congrArg List.length hopg
    rw [List.length_append, List.length_singleton] at hleng
    rw [hsta.mpr hopg, if_pos (Bool.true_or _), if_pos rfl, if_neg (by omega)]
    exact ⟨_, rfl, ⟨rfl, h.header, h.body⟩, rfl, rfl⟩
  · rw [Bool.eq_false_iff.mpr (mt hsta.mp hopg), hended.mpr hends, if_pos (Bool.or_true _),
      if_neg Bool.false_ne_true]
    split_ifs with hle hlt hlt
    · omega
    · exact ⟨_, rfl, ⟨rfl, h.header, h.body⟩, rfl, rfl⟩
    · rfl
    · omega
  · rw [Bool.eq_false_iff.mpr (mt hsta.mp hopg),
      Bool.eq_false_iff.mpr (mt hended.mp hends), if_neg (show ¬(false || false) = true by decide)]
    split_ifs with hle hlt hlt
    · omega
    · exact ⟨_, rfl, ⟨rfl, h.header, h.body⟩, h.phase, by simp, hlen,
        fun hearly => hinitial (by simpa using hearly), htra⟩
    · rfl
    · omega

/-- A body that begins with the boundary. -/
theorem ReadsPreamble.accepts_atStart_iff {rest : List UInt8}
    (h : ReadsPreamble boundary limits scanner text)
    (hearly : text.length < (openingBoundary boundary).length)
    (hbody : text ++ bytes = openingBoundary boundary ++ rest)
    (hsho : (text ++ bytes).length < 2 ^ 63) :
    scanner.Accepts bytes ↔ Delimited boundary limits rest := by
  induction bytes generalizing scanner text with
  | nil =>
    have hleng := congrArg List.length hbody
    rw [List.append_nil, List.length_append] at hleng
    omega
  | cons byte bytes ih =>
    have hread : text ++ [byte] ++ bytes = openingBoundary boundary ++ rest := by
      rw [← hbody, List.append_assoc]
      rfl
    have htot : text.length + bytes.length + 1 < 2 ^ 63 := by
      rw [List.length_append, List.length_cons] at hsho
      omega
    obtain ⟨hopened, -, hcontinued⟩ := h.scanByte byte (by omega)
    by_cases hopg : text ++ [byte] = openingBoundary boundary
    · obtain ⟨s', hstep, hsuf⟩ := hopened hopg
      rw [hopg] at hread
      rw [accepts_cons hstep, List.append_cancel_left hread]
      refine hsuf.accepts_first_iff ?_
      rw [← List.append_cancel_left hread]
      omega
    · have hleng : (text ++ [byte]).length < (openingBoundary boundary).length := by
        refine lt_of_le_of_ne (by simpa using Nat.succ_le_of_lt hearly) fun heq => hopg ?_
        exact (List.append_inj hread heq).1
      have hdelimiter : (openingBoundary boundary).length + 2 = (delimiter boundary).length := by
        simp [openingBoundary, delimiter]
      have hstep := hcontinued hopg fun hends => by
        have := hends.length_le
        omega
      rw [List.length_append, List.length_singleton] at hleng
      rw [if_pos (by omega)] at hstep
      obtain ⟨s', hstep, hreads⟩ := hstep
      rw [accepts_cons hstep]
      refine ih hreads (by simpa using hleng) hread ?_
      rw [List.length_append, List.length_append, List.length_singleton]
      omega

/-- A body that does not begin with the boundary. -/
theorem ReadsPreamble.accepts_afterPreamble_iff (h : ReadsPreamble boundary limits scanner [])
    (hlate : ¬openingBoundary boundary <+: bytes) (hsho : bytes.length < 2 ^ 63) :
    scanner.Accepts bytes ↔ ∃ preamble rest, Leftmost (delimiter boundary) bytes preamble rest ∧
      preamble.length ≤ limits.maxPreambleBytes ∧ Delimited boundary limits rest := by
  have hopg : ∀ {T rest : List UInt8} {byte : UInt8}, T ++ byte :: rest = bytes →
      T ++ [byte] ≠ openingBoundary boundary := by
    rintro T rest byte rfl heq
    exact hlate ⟨rest, by rw [← heq, List.append_assoc]; rfl⟩
  refine accepts_iff_leftmost (ReadsPreamble boundary limits)
    (fun n rest => n ≤ limits.maxPreambleBytes ∧ Delimited boundary limits rest)
    (by simp [delimiter]) ?_ ?_ ?_ h
  · intro s T hreads
    rw [accepts_nil, finish, hreads.phase]
    exact nofun
  · intro s T byte rest hreads htext hends
    have htot := length_of_append_cons htext
    have hstep := (hreads.scanByte byte (by omega)).2.1 (hopg htext) hends
    split_ifs at hstep with hle
    · obtain ⟨s', hstep, hsuf⟩ := hstep
      rw [accepts_cons hstep, hsuf.accepts_first_iff (by omega)]
      simp [hle]
    · exact iff_of_false (not_accepts_cons hstep) fun hfol => hle hfol.1
  · intro s T byte rest hreads htext hends
    have htot := length_of_append_cons htext
    have hstep := (hreads.scanByte byte (by omega)).2.2 (hopg htext) hends
    split_ifs at hstep with hle
    · obtain ⟨s', hstep, hreads'⟩ := hstep
      exact .inl ⟨s', hreads', accepts_cons hstep⟩
    · refine .inr ⟨not_accepts_cons hstep, fun n after hlateN hfol => ?_⟩
      have := hfol.1
      omega

end Preamble

end Phases

end MultipartScanner

section Main

/-- A slice of bytes, which never holds more than `isize::MAX` of them. -/
structure ByteSlice where
  bytes : List UInt8
  length_lt : bytes.length < 2 ^ 63

/-- A fresh scanner is fed the whole body and finished. -/
def scanWhole (boundary : List UInt8) (limits : MultipartGuardLimits) (bytes : List UInt8) :
    Except MultipartGuardBodyError Unit :=
  match (MultipartScanner.new boundary limits).scan bytes with
  | .error failure => .error failure.error
  | .ok scanner => scanner.finish

theorem scanWhole_eq_ok_iff (boundary : List UInt8) (limits : MultipartGuardLimits)
    (bytes : List UInt8) :
    scanWhole boundary limits bytes = .ok () ↔
      (MultipartScanner.new boundary limits).Accepts bytes := by
  rw [scanWhole, MultipartScanner.Accepts,
    MultipartScanner.scan_eq_runFrom (MultipartScanner.seeksReturn_new boundary limits)]
  cases (MultipartScanner.new boundary limits).runFrom 0 bytes <;> simp

/-- The guard accepts the multipart bodies and no others. -/
theorem scanner_accepts_iff_multipart (boundary : List UInt8) (limits : MultipartGuardLimits)
    (slice : ByteSlice) :
    scanWhole boundary limits slice.bytes = .ok () ↔ Multipart boundary limits slice.bytes := by
  obtain ⟨bytes, hsho⟩ := slice
  have hreads := MultipartScanner.readsPreamble_new boundary limits
  rw [scanWhole_eq_ok_iff]
  by_cases hopg : openingBoundary boundary <+: bytes
  · obtain ⟨rest, rfl⟩ := hopg
    have hacpt : (MultipartScanner.new boundary limits).Accepts
        (openingBoundary boundary ++ rest) ↔ Delimited boundary limits rest :=
      hreads.accepts_atStart_iff (by simp [openingBoundary]) rfl hsho
    dsimp only
    rw [hacpt]
    constructor
    · exact .atStart
    · intro hmultipart
      generalize hbody : openingBoundary boundary ++ rest = body at hmultipart
      cases hmultipart with
      | atStart delimited => rwa [List.append_cancel_left hbody]
      | afterPreamble late => exact absurd ⟨rest, hbody⟩ late
  · rw [hreads.accepts_afterPreamble_iff hopg hsho]
    constructor
    · rintro ⟨preamble, rest, opened, preamble_le, delimited⟩
      exact .afterPreamble hopg opened preamble_le delimited
    · intro hmultipart
      cases hmultipart with
      | atStart delimited => exact absurd (List.prefix_append _ _) hopg
      | afterPreamble late opened preamble_le delimited =>
        exact ⟨_, _, opened, preamble_le, delimited⟩

/-- `--bX`, a line break and `--b--`. -/
def lateOpening : List UInt8 := [45, 45, 98, 88, 13, 10, 45, 45, 98, 45, 45]

/-- The leftmost `\r\n--b` of this body would open it after a preamble of four bytes, and the
closing hyphens follow. But it begins with `--b`, the scanner takes that for the boundary, and
rejects the byte after it. -/
theorem scanner_rejects_lateOpening :
    validateBoundary [98] false = .ok () ∧
    scanWhole [98] ⟨8, 8⟩ lateOpening = .error .invalidBoundaryLine ∧
    ∃ preamble rest, Leftmost (delimiter [98]) lateOpening preamble rest ∧
      preamble.length ≤ 8 ∧ Delimited [98] ⟨8, 8⟩ rest := by
  refine ⟨by decide, by decide +kernel, [45, 45, 98, 88], [45, 45], ?_, by decide, .closing []⟩
  have hclear : ¬delimiter [98] <:+: [45, 45, 98, 88, 13, 10, 45, 45] := by decide
  exact (leftmost_iff_of_suffix hclear (by decide)).mpr ⟨rfl, rfl⟩

end Main

end VaultLink
