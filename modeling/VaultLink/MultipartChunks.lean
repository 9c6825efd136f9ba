import VaultLink.MultipartGuard

/-!
# Scanning a body in chunks

The loop of `scan` jumps to the next carriage return whenever the scanner is in a file
content and no part of the boundary has been matched. The bytes it jumps over would not have
changed the scanner, so that `scan` is a fold over the bytes, and a body may be cut into
chunks anywhere.
-/
namespace VaultLink

open GuardedMultipartStream
open MultipartScanner

namespace MultipartScanner

section Bytes

variable {scanner scanner' : MultipartScanner} {byte : UInt8} {bytes : List UInt8}

/-- The automaton, one byte after another. -/
def runFrom (scanner : MultipartScanner) (index : ℕ) :
    List UInt8 → Except ScanFailure MultipartScanner
  | [] => .ok scanner
  | byte :: rest =>
    match scanner.scanByte byte with
    | .error error => .error ⟨error, index⟩
    | .ok scanner' => scanner'.runFrom (index + 1) rest

/-- The body matcher looks for something that begins with a carriage return. -/
def SeeksReturn (scanner : MultipartScanner) : Prop :=
  scanner.bodyBoundary.pattern.head? = some carriageReturn

theorem seeksReturn_new (boundary : List UInt8) (limits : MultipartGuardLimits) :
    (new boundary limits).SeeksReturn := rfl

/-- No step changes what the body matcher looks for. -/
theorem bodyPattern_scanByte (h : scanner.scanByte byte = .ok scanner') :
    scanner'.bodyBoundary.pattern = scanner.bodyBoundary.pattern := by
  rw [scanByte] at h
  split at h
  · simp only [scanPreamble] at h
    split_ifs at h <;> cases h <;> rfl
  · simp only [scanBoundarySuffix] at h
    split at h <;> split_ifs at h <;> cases h <;> rfl
  · simp only [scanHeader] at h
    split_ifs at h <;> cases h <;> rfl
  · cases h
    simp only [scanBody]
    split_ifs <;> simp [startBoundarySuffix]
  · cases h
    rfl

variable (hsee : scanner.SeeksReturn)

include hsee

theorem SeeksReturn.scanByte (h : scanner.scanByte byte = .ok scanner') : scanner'.SeeksReturn := by
  rw [SeeksReturn, bodyPattern_scanByte h]
  exact hsee

/-- While nothing is matched, only a carriage return matters in a file content. -/
theorem scanByte_of_idle (hph : scanner.phase = .body)
    (hidle : scanner.bodyBoundary.matched.val = 0) (hbyte : byte ≠ carriageReturn) :
    scanner.scanByte byte = .ok scanner := by
  have hstay : scanner.bodyBoundary.table.fallBack byte scanner.bodyBoundary.matched =
      scanner.bodyBoundary.matched := by
    rw [PrefixTable.fallBack, if_neg (by omega)]
  have hfirst : scanner.bodyBoundary.pattern[scanner.bodyBoundary.matched] = carriageReturn := by
    rw [SeeksReturn, List.head?_eq_getElem?, List.getElem?_eq_some_iff] at hsee
    obtain ⟨hpos, hfirst⟩ := hsee
    simpa [hidle] using hfirst
  have hfeed : scanner.bodyBoundary.feed byte = (scanner.bodyBoundary, false) := by
    rw [ByteMatcher.feed]
    simp only [hstay]
    rw [if_neg (by rw [hfirst]; exact hbyte)]
  rw [scanByte, hph]
  simp only [scanBody, hfeed]
  rfl

/-- Jumping over bytes and stepping over them is the same. -/
theorem runFrom_skipped (index : ℕ) (bytes : List UInt8) :
    scanner.runFrom index bytes =
      scanner.runFrom (index + scanner.skipped bytes) (bytes.drop (scanner.skipped bytes)) := by
  by_cases hidle : scanner.phase = .body ∧ scanner.bodyBoundary.matched.val = 0
  · simp only [skipped, if_pos hidle]
    induction bytes generalizing index with
    | nil => simp [runFrom]
    | cons byte rest ih =>
      by_cases hbyte : byte = carriageReturn
      · simp [List.findIdx_cons, hbyte]
      · rw [runFrom, scanByte_of_idle hsee hidle.1 hidle.2 hbyte]
        simp only [List.findIdx_cons, hbyte, decide_false, cond_false, List.drop_succ_cons]
        rw [ih (index + 1), Nat.add_assoc, Nat.add_comm 1]
  · simp [skipped, hidle]

theorem scanFrom_eq_runFrom (index : ℕ) (bytes : List UInt8) :
    scanner.scanFrom index bytes = scanner.runFrom index bytes := by
  fun_induction scanFrom scanner index bytes with
  | case1 scanner index bytes hdrop =>
    rw [runFrom_skipped hsee, hdrop]
    rfl
  | case2 scanner index bytes byte rest hdrop found error herr =>
    rw [runFrom_skipped hsee, hdrop, runFrom, herr]
  | case3 scanner index bytes byte rest hdrop found next hnext ih =>
    rw [ih (hsee.scanByte hnext), runFrom_skipped hsee, hdrop, runFrom, hnext]

theorem scan_eq_runFrom (bytes : List UInt8) :
    scanner.scan bytes = scanner.runFrom 0 bytes := scanFrom_eq_runFrom hsee 0 bytes

end Bytes

section Chunks

variable {scanner scanner' : MultipartScanner}

theorem SeeksReturn.runFrom (hsee : scanner.SeeksReturn) {index : ℕ} {bytes : List UInt8}
    (h : scanner.runFrom index bytes = .ok scanner') : scanner'.SeeksReturn := by
  induction bytes generalizing scanner index with
  | nil =>
    cases h
    exact hsee
  | cons byte rest ih =>
    rw [runFrom] at h
    cases hbyte : scanner.scanByte byte with
    | error => simp [hbyte] at h
    | ok =>
      simp only [hbyte] at h
      exact ih (hsee.scanByte hbyte) h

theorem runFrom_append (scanner : MultipartScanner) (index : ℕ) (first rest : List UInt8) :
    scanner.runFrom index (first ++ rest) =
      scanner.runFrom index first >>= fun scanner' =>
        scanner'.runFrom (index + first.length) rest := by
  induction first generalizing scanner index with
  | nil => rfl
  | cons byte first ih =>
    rw [List.cons_append, runFrom, runFrom]
    cases scanner.scanByte byte with
    | error => rfl
    | ok =>
      simp only [ih, List.length_cons]
      congr 2
      funext scanner'
      rw [Nat.add_assoc, Nat.add_comm 1]

/-- Where the scan started only shifts the index of the error. -/
theorem runFrom_add (scanner : MultipartScanner) (index shift : ℕ) (bytes : List UInt8) :
    scanner.runFrom (shift + index) bytes = (scanner.runFrom index bytes).mapError
      fun failure => ⟨failure.error, shift + failure.index⟩ := by
  induction bytes generalizing scanner index with
  | nil => rfl
  | cons byte rest ih =>
    rw [runFrom, runFrom]
    cases scanner.scanByte byte with
    | error => rfl
    | ok next => exact ih next (index + 1)

theorem index_of_runFrom_error {failure : ScanFailure} {index : ℕ} {bytes : List UInt8}
    (h : scanner.runFrom index bytes = .error failure) :
    index ≤ failure.index ∧ failure.index < index + bytes.length := by
  induction bytes generalizing scanner index with
  | nil => cases h
  | cons byte rest ih =>
    rw [runFrom] at h
    cases hbyte : scanner.scanByte byte with
    | error =>
      simp only [hbyte] at h
      cases h
      simp
    | ok =>
      simp only [hbyte] at h
      have := ih h
      rw [List.length_cons]
      omega

/-- The chunks are scanned one after another, and `consumed` bytes came before them. -/
def scanChunks (scanner : MultipartScanner) (consumed : ℕ) :
    List (List UInt8) → Except ScanFailure MultipartScanner
  | [] => .ok scanner
  | chunk :: chunks =>
    match scanner.scan chunk with
    | .error failure => .error ⟨failure.error, consumed + failure.index⟩
    | .ok scanner' => scanner'.scanChunks (consumed + chunk.length) chunks

theorem scanChunks_eq_runFrom (hsee : scanner.SeeksReturn) (consumed : ℕ)
    (chunks : List (List UInt8)) :
    scanner.scanChunks consumed chunks = scanner.runFrom consumed chunks.flatten := by
  induction chunks generalizing scanner consumed with
  | nil => rfl
  | cons chunk chunks ih =>
    have hshift := scanner.runFrom_add 0 consumed chunk
    rw [Nat.add_zero] at hshift
    rw [scanChunks, List.flatten_cons, runFrom_append, scan_eq_runFrom hsee, hshift]
    cases hchunk : scanner.runFrom 0 chunk with
    | error => rfl
    | ok => exact ih (hsee.runFrom hchunk) (consumed + chunk.length)

end Chunks

end MultipartScanner

section Stream

variable {scanner : MultipartScanner}

def BodyPoll.bytes? : BodyPoll → Option (List UInt8)
  | chunk bytes => some bytes
  | pending | failed => none

theorem polls_terminal (inner : List BodyPoll) (n : ℕ) :
    polls n ⟨inner, scanner, true⟩ = List.replicate n .ended := by
  induction n with
  | zero => rfl
  | succ n ih =>
    rw [List.replicate_succ, ← ih]
    rfl

/-- What a stream delivers that scans to this result: the chunks before the failing one and
the error, or all chunks and the verdict of `finish`. -/
def Delivers (chunks : List (List UInt8)) (consumed : ℕ) (outputs : List GuardedPoll) :
    Except ScanFailure MultipartScanner → Prop
  | .ok scanner => ∃ m, outputs = chunks.map .chunk ++ (match scanner.finish with
      | .ok _ => []
      | .error error => [.violation error]) ++ List.replicate m .ended
  | .error failure => ∃ k m, outputs = (chunks.take k).map .chunk ++
      .violation failure.error :: List.replicate m .ended ∧
      consumed + (chunks.take k).flatten.length ≤ failure.index ∧
      failure.index < consumed + (chunks.take (k + 1)).flatten.length

theorem Delivers.cons {chunk : List UInt8} {chunks : List (List UInt8)} {consumed : ℕ}
    {outputs : List GuardedPoll} {result : Except ScanFailure MultipartScanner}
    (h : Delivers chunks (consumed + chunk.length) outputs result) :
    Delivers (chunk :: chunks) consumed (.chunk chunk :: outputs) result := by
  cases result with
  | ok =>
    obtain ⟨m, rfl⟩ := h
    exact ⟨m, by simp⟩
  | error =>
    obtain ⟨k, m, rfl, hfrom, hto⟩ := h
    refine ⟨k + 1, m, by simp, ?_, ?_⟩
    · rw [List.take_succ_cons, List.flatten_cons, List.length_append]
      omega
    · rw [List.take_succ_cons, List.flatten_cons, List.length_append]
      omega

theorem polls_delivers (hsee : scanner.SeeksReturn) (consumed : ℕ) (inner : List BodyPoll)
    (hsrc : .failed ∉ inner) (n : ℕ) (hn : inner.length < n) :
    Delivers (inner.filterMap BodyPoll.bytes?) consumed
      ((polls n ⟨inner, scanner, false⟩).filter (· ≠ .pending))
      (scanner.scanChunks consumed (inner.filterMap BodyPoll.bytes?)) := by
  have hended : ∀ m, (List.replicate m GuardedPoll.ended).filter (· ≠ .pending) =
      List.replicate m .ended := by
    intro m
    simp
  induction inner generalizing scanner consumed n with
  | nil =>
    obtain ⟨n, rfl⟩ : ∃ m, n = m + 1 := ⟨n - 1, by simp at hn; omega⟩
    rw [polls]
    cases hfinish : scanner.finish with
    | ok =>
      have hpoll : pollNext ⟨[], scanner, false⟩ =
          (⟨[], scanner, true⟩, .ended) := by
        simp [pollNext, hfinish]
      refine ⟨n + 1, ?_⟩
      rw [hpoll, polls_terminal, ← List.replicate_succ, hended]
      simp [hfinish]
    | error error =>
      have hpoll : pollNext ⟨[], scanner, false⟩ =
          (⟨[], scanner, true⟩, .violation error) := by
        simp [pollNext, hfinish]
      refine ⟨n, ?_⟩
      rw [hpoll, polls_terminal, List.filter_cons_of_pos (by simp), hended]
      simp [hfinish]
  | cons poll inner ih =>
    obtain ⟨n, rfl⟩ : ∃ m, n = m + 1 := ⟨n - 1, by simp at hn; omega⟩
    have hrest : inner.length < n := by simpa using hn
    have hsrc' : .failed ∉ inner := fun hmem => hsrc (List.mem_cons_of_mem _ hmem)
    rw [polls]
    cases poll with
    | failed => exact absurd List.mem_cons_self hsrc
    | pending =>
      have hpoll : pollNext ⟨.pending :: inner, scanner, false⟩ =
          (⟨inner, scanner, false⟩, .pending) := rfl
      rw [hpoll, List.filter_cons_of_neg (by simp)]
      exact ih hsee consumed hsrc' n hrest
    | chunk bytes =>
      have hbytes : (BodyPoll.chunk bytes :: inner).filterMap BodyPoll.bytes? =
          bytes :: inner.filterMap BodyPoll.bytes? := rfl
      rw [hbytes, scanChunks]
      cases hscan : scanner.scan bytes with
      | error failure =>
        have hpoll : pollNext ⟨.chunk bytes :: inner, scanner, false⟩ =
            (⟨inner, scanner, true⟩, .violation failure.error) := by
          simp [pollNext, hscan]
        have hidx := index_of_runFrom_error
          ((scan_eq_runFrom hsee bytes).symm.trans hscan)
        refine ⟨0, n, ?_, by simp, by simp; omega⟩
        rw [hpoll, polls_terminal, List.filter_cons_of_pos (by simp), hended]
        simp
      | ok next =>
        have hpoll : pollNext ⟨.chunk bytes :: inner, scanner, false⟩ =
            (⟨inner, next, false⟩, .chunk bytes) := by
          simp [pollNext, hscan]
        have hnext : next.SeeksReturn :=
          hsee.runFrom ((scan_eq_runFrom hsee bytes).symm.trans hscan)
        rw [hpoll, List.filter_cons_of_pos (by simp)]
        exact (ih hnext (consumed + bytes.length) hsrc' n hrest).cons

end Stream

section Main

/-- However a body is cut into chunks: scanning them one after another ends as the scan of
the whole body does, in the same state or with the same error at the same byte; that is what
the automaton does byte by byte; and the guarded stream, polled to its end, passes on all
chunks, or those before the one with the failing byte and then the error. -/
theorem chunks_scan_as_whole (boundary : List UInt8) (limits : MultipartGuardLimits)
    (chunks : List (List UInt8)) :
    let scanner := new boundary limits
    scanner.scanChunks 0 chunks = scanner.scan chunks.flatten ∧
    scanner.scan chunks.flatten = scanner.runFrom 0 chunks.flatten ∧
    ∀ inner : List BodyPoll, inner.filterMap BodyPoll.bytes? = chunks → .failed ∉ inner →
      ∀ n, inner.length < n →
        let outputs := (polls n ⟨inner, scanner, false⟩).filter
          (· ≠ .pending)
        match scanner.scan chunks.flatten with
        | .ok scanned => ∃ m, outputs = chunks.map .chunk ++ (match scanned.finish with
            | .ok _ => []
            | .error error => [.violation error]) ++ List.replicate m .ended
        | .error failure => ∃ k m, outputs = (chunks.take k).map .chunk ++
            .violation failure.error :: List.replicate m .ended ∧
            (chunks.take k).flatten.length ≤ failure.index ∧
            failure.index < (chunks.take (k + 1)).flatten.length := by
  intro scanner
  have hsee : scanner.SeeksReturn := seeksReturn_new boundary limits
  have hwhole : scanner.scan chunks.flatten = scanner.runFrom 0 chunks.flatten :=
    scan_eq_runFrom hsee chunks.flatten
  have hchunks : scanner.scanChunks 0 chunks = scanner.scan chunks.flatten := by
    rw [hwhole, scanChunks_eq_runFrom hsee]
  refine ⟨hchunks, hwhole, ?_⟩
  rintro inner rfl hsrc n hn
  have hdelivers := polls_delivers hsee 0 inner hsrc n hn
  rw [hchunks] at hdelivers
  cases hscan : scanner.scan (inner.filterMap BodyPoll.bytes?).flatten with
  | ok | error => simpa [Delivers, hscan] using hdelivers

def failureOf : Except ScanFailure MultipartScanner → Option ScanFailure
  | .ok _ => none
  | .error failure => some failure

/-- The boundary `b` is cut in two, and a byte that may not follow it is in the second chunk. -/
theorem chunks_scan_as_whole_cutBoundary :
    let scanner := new [98] ⟨8, 8⟩
    ∃ k m, (polls 5 ⟨[.chunk [45, 45], .pending, .chunk [98, 88],
        .chunk [1]], scanner, false⟩).filter (· ≠ .pending) =
      (([[45, 45], [98, 88], [1]] : List (List UInt8)).take k).map .chunk ++
        .violation .invalidBoundaryLine :: List.replicate m .ended := by
  intro scanner
  have hdel := (chunks_scan_as_whole [98] ⟨8, 8⟩ [[45, 45], [98, 88], [1]]).2.2
    [.chunk [45, 45], .pending, .chunk [98, 88], .chunk [1]] rfl (by decide) 5 (by decide)
  have hfailure : failureOf (scanner.scan [45, 45, 98, 88, 1]) =
      some ⟨.invalidBoundaryLine, 3⟩ := by decide +kernel
  cases hscan : scanner.scan [45, 45, 98, 88, 1] with
  | ok => simp [hscan, failureOf] at hfailure
  | error =>
    rw [hscan, failureOf, Option.some.injEq] at hfailure
    subst hfailure
    have hwhole : scanner.scan ([[45, 45], [98, 88], [1]] : List (List UInt8)).flatten =
        .error ⟨.invalidBoundaryLine, 3⟩ := hscan
    simp only [scanner] at hwhole
    simp only [hwhole] at hdel
    obtain ⟨k, m, houtputs, -⟩ := hdel
    exact ⟨k, m, houtputs⟩

end Main

end VaultLink
