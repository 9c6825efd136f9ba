import VaultLink.Schema

/-!
# The multipart guard

An upload body passes through a scanner on its way to the multipart parser, which buffers
preambles and header blocks. The scanner bounds both, and accepts nothing that is no
multipart body. It looks for boundaries with a matcher that never reads a byte twice, and
skips ahead in file contents. Counters are `usize`s of 64 bits that saturate.
-/
namespace VaultLink

section Matcher

/-- For each position of the pattern, the length of an overlap that is shorter than the part
up to there. -/
structure PrefixTable (pattern : List UInt8) where
  entry : Fin pattern.length → ℕ
  entry_le : ∀ i, entry i ≤ i

namespace PrefixTable

variable {pattern : List UInt8}

def zeros : PrefixTable pattern := ⟨fun _ => 0, fun _ => Nat.zero_le _⟩

def set (table : PrefixTable pattern) (index : Fin pattern.length) (matched : ℕ)
    (h : matched ≤ index) : PrefixTable pattern where
  entry := Function.update table.entry index matched
  entry_le i := by
    by_cases hi : i = index
    · rw [hi, Function.update_self]
      exact h
    · rw [Function.update_of_ne hi]
      exact table.entry_le i

/-- The overlap to go on with when the pattern does not continue after `matched` bytes. -/
def shorter (table : PrefixTable pattern) (matched : Fin pattern.length) : Fin pattern.length :=
  ⟨table.entry ⟨matched - 1, by have := matched.isLt; omega⟩,
    (table.entry_le _).trans_lt (by have := matched.isLt; dsimp; omega)⟩

/-- The inner loop of `new` and of `feed`. -/
def fallBack (table : PrefixTable pattern) (byte : UInt8) (matched : Fin pattern.length) :
    Fin pattern.length :=
  if 0 < matched.val ∧ byte ≠ pattern[matched] then table.fallBack byte (table.shorter matched)
  else matched
termination_by matched.val
decreasing_by
  have hle := table.entry_le ⟨matched - 1, by have := matched.isLt; omega⟩
  dsimp only [shorter] at hle ⊢
  omega

theorem shorter_lt (table : PrefixTable pattern) {matched : Fin pattern.length}
    (h : 0 < matched.val) : (table.shorter matched).val < matched.val := by
  have hle := table.entry_le ⟨matched - 1, by have := matched.isLt; omega⟩
  dsimp only [shorter] at hle ⊢
  omega

theorem fallBack_le (table : PrefixTable pattern) (byte : UInt8) (matched : Fin pattern.length) :
    (table.fallBack byte matched).val ≤ matched.val := by
  fun_induction fallBack table byte matched with
  | case1 matched hback ih =>
    have := table.shorter_lt hback.1
    omega
  | case2 matched hstop => exact le_rfl

end PrefixTable

/-- The state of the loop of `ByteMatcher::new` before the round of `index`. -/
structure TableLoop (pattern : List UInt8) (index : ℕ) where
  table : PrefixTable pattern
  matched : Fin pattern.length
  matched_lt : matched.val < index

namespace TableLoop

variable {pattern : List UInt8}

def round {index : ℕ} (loop : TableLoop pattern index) (h : index < pattern.length) :
    TableLoop pattern (index + 1) :=
  let byte := pattern[index]
  let matched := loop.table.fallBack byte loop.matched
  have hmatched : matched.val < index :=
    (loop.table.fallBack_le byte loop.matched).trans_lt loop.matched_lt
  if byte = pattern[matched] then
    ⟨loop.table.set ⟨index, h⟩ (matched + 1) hmatched, ⟨matched + 1, by omega⟩, by dsimp; omega⟩
  else ⟨loop.table, matched, by omega⟩

def finish {index : ℕ} (loop : TableLoop pattern index) : PrefixTable pattern :=
  if h : index < pattern.length then (loop.round h).finish else loop.table
termination_by pattern.length - index

end TableLoop

structure ByteMatcher where
  pattern : List UInt8
  table : PrefixTable pattern
  matched : Fin pattern.length

namespace ByteMatcher

def new (pattern : List UInt8) (h : 0 < pattern.length) : ByteMatcher where
  pattern := pattern
  table := TableLoop.finish (⟨.zeros, ⟨0, h⟩, Nat.zero_lt_one⟩ : TableLoop pattern 1)
  matched := ⟨0, h⟩

def feed (matcher : ByteMatcher) (byte : UInt8) : ByteMatcher × Bool :=
  let matched := matcher.table.fallBack byte matcher.matched
  if byte = matcher.pattern[matched] then
    if h : matched + 1 = matcher.pattern.length then
      ({ matcher with
        matched := ⟨matcher.table.entry matched, (matcher.table.entry_le matched).trans_lt
          matched.isLt⟩ }, true)
    else ({ matcher with matched := ⟨matched + 1, by have := matched.isLt; omega⟩ }, false)
  else ({ matcher with matched }, false)

def patternLen (matcher : ByteMatcher) : ℕ := matcher.pattern.length

def reset (matcher : ByteMatcher) : ByteMatcher :=
  { matcher with matched := ⟨0, matcher.matched.pos⟩ }

@[simp] theorem feed_pattern (matcher : ByteMatcher) (byte : UInt8) :
    (matcher.feed byte).1.pattern = matcher.pattern := by
  rw [feed]
  split_ifs <;> rfl

end ByteMatcher

end Matcher

section Boundary

inductive MultipartGuardError
  | missingContentType
  | unsupportedContentType
  | missingBoundary
  | invalidContentType
  | invalidBoundary
deriving DecidableEq

def maxBoundaryBytes : ℕ := 70

def isBoundaryByte (byte : UInt8) : Bool :=
  (48 ≤ byte && byte ≤ 57) || (65 ≤ byte && byte ≤ 90) || (97 ≤ byte && byte ≤ 122) ||
    [39, 40, 41, 43, 95, 44, 45, 46, 47, 58, 61, 63].contains byte

/-- `validate_boundary`; a space is allowed in a quoted boundary, but not at its end. -/
def validateBoundary (boundary : List UInt8) (quoted : Bool) : Except MultipartGuardError Unit :=
  if boundary.isEmpty || maxBoundaryBytes < boundary.length then .error .invalidBoundary
  else if boundary.getLast? = some 32 then .error .invalidBoundary
  else if boundary.any fun byte => !(isBoundaryByte byte || quoted && byte = 32) then
    .error .invalidBoundary
  else .ok ()

end Boundary

section Scanner

structure MultipartGuardLimits where
  maxPreambleBytes : ℕ
  maxHeaderBytes : ℕ

inductive MultipartGuardBodyError
  | preambleTooLarge
  | headerTooLarge
  | missingOpeningBoundary
  | incompleteHeaderBlock
  | invalidBoundaryLine
  | incompleteBoundaryLine
  | boundaryPaddingTooLarge
  | missingClosingBoundary
deriving DecidableEq

/-- An error and the index of the byte it was found at. -/
structure ScanFailure where
  error : MultipartGuardBodyError
  index : ℕ
deriving DecidableEq

inductive ScannerPhase
  | preamble
  | boundarySuffix
  | headers
  | body
  | epilogue
deriving DecidableEq

inductive BoundarySuffixPhase
  | first
  | closingHyphen
  | padding
  | lineFeed
deriving DecidableEq

def carriageReturn : UInt8 := 13

def newline : UInt8 := 10

def hyphen : UInt8 := 45

def isPadding (byte : UInt8) : Bool := byte = 32 || byte = 9

/-- `--b`. -/
def openingBoundary (boundary : List UInt8) : List UInt8 := [hyphen, hyphen] ++ boundary

/-- `\r\n--b`. -/
def delimiter (boundary : List UInt8) : List UInt8 :=
  [carriageReturn, newline, hyphen, hyphen] ++ boundary

/-- `\r\n\r\n`. -/
def headerTerminator : List UInt8 := [carriageReturn, newline, carriageReturn, newline]

structure MultipartScanner where
  phase : ScannerPhase
  limits : MultipartGuardLimits
  preambleSeen : ℕ
  headerSeen : ℕ
  boundaryPaddingSeen : ℕ
  boundarySuffixPhase : BoundarySuffixPhase
  initialBoundary : ByteMatcher
  preambleBoundary : ByteMatcher
  bodyBoundary : ByteMatcher
  headerEnd : ByteMatcher

namespace MultipartScanner

def new (boundary : List UInt8) (limits : MultipartGuardLimits) : MultipartScanner where
  phase := .preamble
  limits := limits
  preambleSeen := 0
  headerSeen := 0
  boundaryPaddingSeen := 0
  boundarySuffixPhase := .first
  initialBoundary := .new (openingBoundary boundary) (by simp [openingBoundary])
  preambleBoundary := .new (delimiter boundary) (by simp [delimiter])
  bodyBoundary := .new (delimiter boundary) (by simp [delimiter])
  headerEnd := .new headerTerminator (by decide)

def startBoundarySuffix (scanner : MultipartScanner) : MultipartScanner :=
  { scanner with
    phase := .boundarySuffix, boundaryPaddingSeen := 0, boundarySuffixPhase := .first }

def startHeaders (scanner : MultipartScanner) : MultipartScanner :=
  { scanner with phase := .headers, headerSeen := 0, headerEnd := scanner.headerEnd.reset }

def scanPreamble (scanner : MultipartScanner) (byte : UInt8) :
    Except MultipartGuardBodyError MultipartScanner :=
  let seen := saturatingAddU64 scanner.preambleSeen 1
  -- The initial matcher is only fed while the boundary could still be at the start.
  let (initialBoundary, openingAtStart) :=
    if seen ≤ scanner.initialBoundary.patternLen then scanner.initialBoundary.feed byte
    else (scanner.initialBoundary, false)
  let (preambleBoundary, openingAfterPreamble) := scanner.preambleBoundary.feed byte
  let scanner' := { scanner with preambleSeen := seen, initialBoundary, preambleBoundary }
  if openingAtStart || openingAfterPreamble then
    let matchedLen := if openingAtStart then scanner.initialBoundary.patternLen
      else scanner.preambleBoundary.patternLen
    if scanner.limits.maxPreambleBytes < seen - matchedLen then .error .preambleTooLarge
    else .ok scanner'.startBoundarySuffix
  else if saturatingAddU64 scanner.limits.maxPreambleBytes scanner.preambleBoundary.patternLen <
      seen then .error .preambleTooLarge
  else .ok scanner'

def scanBoundarySuffix (scanner : MultipartScanner) (byte : UInt8) :
    Except MultipartGuardBodyError MultipartScanner :=
  match scanner.boundarySuffixPhase with
  | .first =>
    if byte = hyphen then .ok { scanner with boundarySuffixPhase := .closingHyphen }
    else if isPadding byte then
      if scanner.limits.maxHeaderBytes < 1 then .error .boundaryPaddingTooLarge
      else .ok { scanner with boundaryPaddingSeen := 1, boundarySuffixPhase := .padding }
    else if byte = carriageReturn then .ok { scanner with boundarySuffixPhase := .lineFeed }
    else .error .invalidBoundaryLine
  | .closingHyphen =>
    if byte ≠ hyphen then .error .invalidBoundaryLine
    else .ok { scanner with phase := .epilogue }
  | .padding =>
    if isPadding byte then
      let seen := saturatingAddU64 scanner.boundaryPaddingSeen 1
      if scanner.limits.maxHeaderBytes < seen then .error .boundaryPaddingTooLarge
      else .ok { scanner with boundaryPaddingSeen := seen }
    else if byte = carriageReturn then .ok { scanner with boundarySuffixPhase := .lineFeed }
    else .error .invalidBoundaryLine
  | .lineFeed =>
    if byte ≠ newline then .error .invalidBoundaryLine else .ok scanner.startHeaders

def scanHeader (scanner : MultipartScanner) (byte : UInt8) :
    Except MultipartGuardBodyError MultipartScanner :=
  let seen := saturatingAddU64 scanner.headerSeen 1
  let (headerEnd, ended) := scanner.headerEnd.feed byte
  let scanner' := { scanner with headerSeen := seen, headerEnd }
  if ended then
    if scanner.limits.maxHeaderBytes < seen - scanner.headerEnd.patternLen then
      .error .headerTooLarge
    else .ok { scanner' with phase := .body, bodyBoundary := scanner.bodyBoundary.reset }
  else if saturatingAddU64 scanner.limits.maxHeaderBytes scanner.headerEnd.patternLen < seen then
    .error .headerTooLarge
  else .ok scanner'

def scanBody (scanner : MultipartScanner) (byte : UInt8) : MultipartScanner :=
  let (bodyBoundary, ended) := scanner.bodyBoundary.feed byte
  let scanner' := { scanner with bodyBoundary }
  if ended then scanner'.startBoundarySuffix else scanner'

/-- The match on the phase in `scan`. -/
def scanByte (scanner : MultipartScanner) (byte : UInt8) :
    Except MultipartGuardBodyError MultipartScanner :=
  match scanner.phase with
  | .preamble => scanner.scanPreamble byte
  | .boundarySuffix => scanner.scanBoundarySuffix byte
  | .headers => scanner.scanHeader byte
  | .body => .ok (scanner.scanBody byte)
  | .epilogue => .ok scanner

/-- How far `memchr` lets the loop of `scan` skip. -/
def skipped (scanner : MultipartScanner) (bytes : List UInt8) : ℕ :=
  if scanner.phase = .body ∧ scanner.bodyBoundary.matched.val = 0 then
    bytes.findIdx fun byte => byte = carriageReturn
  else 0

/-- The loop of `scan` from `index` on, where `bytes` is left. -/
def scanFrom (scanner : MultipartScanner) (index : ℕ) (bytes : List UInt8) :
    Except ScanFailure MultipartScanner :=
  match _h : bytes.drop (scanner.skipped bytes) with
  | [] => .ok scanner
  | byte :: rest =>
    let found := index + scanner.skipped bytes
    match scanner.scanByte byte with
    | .error error => .error ⟨error, found⟩
    | .ok scanner' => scanner'.scanFrom (found + 1) rest
termination_by bytes.length
decreasing_by
  have hlen := congrArg List.length _h
  rw [List.length_drop, List.length_cons] at hlen
  omega

def scan (scanner : MultipartScanner) (bytes : List UInt8) :
    Except ScanFailure MultipartScanner := scanner.scanFrom 0 bytes

def finish (scanner : MultipartScanner) : Except MultipartGuardBodyError Unit :=
  match scanner.phase with
  | .preamble => .error .missingOpeningBoundary
  | .boundarySuffix => .error .incompleteBoundaryLine
  | .headers => .error .incompleteHeaderBlock
  | .body => .error .missingClosingBoundary
  | .epilogue => .ok ()

end MultipartScanner

end Scanner

section Stream

/-- What polling the request body gives while it has not ended. -/
inductive BodyPoll
  | pending
  | chunk (bytes : List UInt8)
  | failed
deriving DecidableEq

/-- What polling the guarded body gives. -/
inductive GuardedPoll
  | pending
  | chunk (bytes : List UInt8)
  | sourceError
  | violation (error : MultipartGuardBodyError)
  | ended
deriving DecidableEq

/-- The body that is still to come, the scanner, and whether the stream has ended. -/
structure GuardedMultipartStream where
  inner : List BodyPoll
  scanner : MultipartScanner
  terminal : Bool

namespace GuardedMultipartStream

def pollNext (stream : GuardedMultipartStream) : GuardedMultipartStream × GuardedPoll :=
  if stream.terminal then (stream, .ended)
  else match stream.inner with
    | .pending :: inner => ({ stream with inner }, .pending)
    | .chunk bytes :: inner =>
      match stream.scanner.scan bytes with
      | .ok scanner => ({ stream with inner, scanner }, .chunk bytes)
      | .error failure => ({ stream with inner, terminal := true }, .violation failure.error)
    | .failed :: inner => ({ stream with inner, terminal := true }, .sourceError)
    | [] =>
      match stream.scanner.finish with
      | .ok _ => ({ stream with terminal := true }, .ended)
      | .error error => ({ stream with terminal := true }, .violation error)

/-- The results of so many polls. -/
def polls : ℕ → GuardedMultipartStream → List GuardedPoll
  | 0, _ => []
  | n + 1, stream => stream.pollNext.2 :: polls n stream.pollNext.1

end GuardedMultipartStream

end Stream

end VaultLink
