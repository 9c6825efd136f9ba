import VaultLink.Zip64Format
import VaultLink.ZipPlanning

/-!
# Writing a planned archive

The archive is written in one pass to an output that takes as many bytes at a time as it likes,
while the planned files are read in chunks and may change under the reader. Offsets and sizes come
from a writer that counts. Whenever the pass succeeds, the bytes are a ZIP64 archive with the
planned members, in the length that was announced.
-/
namespace VaultLink

section Output

/-- The bytes that the output has taken, their count, and the time. -/
structure ZipWorld where
  output : List UInt8
  written : ℕ
  clock : ℕ

/-- What the output and the file system answer, by the time they are asked. Interrupted writes are
repeated, so that the answer is that of the last attempt. -/
structure ZipEnvironment where
  /-- The number of bytes that a write takes. -/
  write : ℕ → Except IoError ℕ
  flush : ℕ → Except IoError Unit
  openRegularFile : ℕ → Text → Except IoError Unit
  metadataLen : ℕ → Except IoError ℕ
  /-- The bytes that are there to be read. -/
  read : ℕ → Except IoError (List UInt8)

abbrev ZipM := Action ZipEnvironment ZipWorld

/-- A question to the environment. -/
def ask {α : Type} (answer : ZipEnvironment → ℕ → Except IoError α) : ZipM IoError α := fun env w =>
  match answer env w.clock with
  | .ok value => .ok value { w with clock := w.clock + 1 }
  | .error error => .err error { w with clock := w.clock + 1 }

/-- `CountingWriter::write`. -/
def countingWrite (buffer : List UInt8) : ZipM IoError ℕ := do
  let taken ← ask fun env time => (env.write time).map buffer.take
  fun _ w =>
    let w := { w with output := w.output ++ taken }
    if w.written + taken.length < 2 ^ 64 then
      .ok taken.length { w with written := w.written + taken.length }
    else .err ⟨.invalidData, "zip size overflow"⟩ w

/-- The loop of `write_all`, which takes at most one round for each byte. -/
def writeAllLoop : ℕ → List UInt8 → ZipM IoError Unit
  | 0, _ => pure ()
  | rounds + 1, buffer =>
    if buffer.isEmpty then pure ()
    else do
      let written ← countingWrite buffer
      if written = 0 then Action.fail ⟨.other, "failed to write whole buffer"⟩
      else writeAllLoop rounds (buffer.drop written)

def writeAll (buffer : List UInt8) : ZipM IoError Unit := writeAllLoop buffer.length buffer

def writeZipU16 (value : ℕ) : ZipM IoError Unit := writeAll (leBytes 2 value)

def writeZipU32 (value : ℕ) : ZipM IoError Unit := writeAll (leBytes 4 value)

def writeZipU64 (value : ℕ) : ZipM IoError Unit := writeAll (leBytes 8 value)

end Output

section Records

def zip64Version : ℕ := 45

structure StreamingZipEntry where
  name : Text
  crc : ℕ
  size : ℕ
  localOffset : ℕ
  isDirectory : Bool

def writeStreamingLocalHeader (name : List UInt8) : ZipM IoError Unit := do
  writeZipU32 0x04034b50
  writeZipU16 zip64Version
  writeZipU16 0x0808
  writeZipU16 0
  writeZipU16 0
  writeZipU16 33
  writeZipU32 0
  writeZipU32 (2 ^ 32 - 1)
  writeZipU32 (2 ^ 32 - 1)
  writeZipU16 name.length
  writeZipU16 20 -- ZIP64_LOCAL_EXTRA_SIZE
  writeAll name
  writeZipU16 0x0001
  writeZipU16 16 -- ZIP64_SIZE_FIELDS_SIZE
  writeZipU64 0
  writeZipU64 0

def writeStreamingDescriptor (crc size : ℕ) : ZipM IoError Unit := do
  writeZipU32 0x08074b50
  writeZipU32 crc
  writeZipU64 size
  writeZipU64 size

def writeStreamingCentralEntry (entry : StreamingZipEntry) : ZipM IoError Unit := do
  let name := utf8Bytes entry.name
  writeZipU32 0x02014b50
  writeZipU16 zip64Version
  writeZipU16 zip64Version
  writeZipU16 0x0808
  writeZipU16 0
  writeZipU16 0
  writeZipU16 33
  writeZipU32 entry.crc
  writeZipU32 (2 ^ 32 - 1)
  writeZipU32 (2 ^ 32 - 1)
  writeZipU16 name.length
  writeZipU16 28 -- ZIP64_CENTRAL_EXTRA_SIZE
  writeZipU16 0
  writeZipU16 0
  writeZipU16 0
  writeZipU32 (if entry.isDirectory then 0x10 else 0)
  writeZipU32 (2 ^ 32 - 1)
  writeAll name
  writeZipU16 0x0001
  writeZipU16 24 -- ZIP64_EXTRA_PAYLOAD_SIZE
  writeZipU64 entry.size
  writeZipU64 entry.size
  writeZipU64 entry.localOffset

def writeStreamingEocd : ZipM IoError Unit := do
  writeZipU32 0x06054b50
  writeZipU16 0
  writeZipU16 0
  writeZipU16 (2 ^ 16 - 1)
  writeZipU16 (2 ^ 16 - 1)
  writeZipU32 (2 ^ 32 - 1)
  writeZipU32 (2 ^ 32 - 1)
  writeZipU16 0

def writeStreamingZip64Eocd (entries centralSize centralOffset : ℕ) : ZipM IoError Unit := do
  writeZipU32 0x06064b50
  writeZipU64 44
  writeZipU16 zip64Version
  writeZipU16 zip64Version
  writeZipU32 0
  writeZipU32 0
  writeZipU64 entries
  writeZipU64 entries
  writeZipU64 centralSize
  writeZipU64 centralOffset

def writeStreamingZip64Locator (zip64EocdOffset : ℕ) : ZipM IoError Unit := do
  writeZipU32 0x07064b50
  writeZipU32 0
  writeZipU64 zip64EocdOffset
  writeZipU32 1

end Records

section Archive

open Crc32Hasher

variable [Crc32Hasher]

/-- What a planned file was when its data were read. -/
def sourceChanged : ZipBuildError :=
  .source ⟨.invalidData, "zip source size changed after planning"⟩

def checkedZipData (current added maximum : ℕ) : Except ZipBuildError ℕ :=
  if 2 ^ 64 ≤ current + added then .error (.limit "zip size overflow")
  else if maximum ≠ 0 && maximum < current + added then .error (.limit "zip size limit exceeded")
  else .ok (current + added)

def bufferedResponseChunkBytes : ℕ := 64 * 1024

def readSource (wanted : ℕ) : ZipM ZipBuildError (List UInt8) :=
  Action.mapError .source (ask fun env time => (env.read time).map (·.take wanted))

/-- The loop that copies a file, in at most one round for each byte; it gives the size of the
file, the size of all data and the checksum. -/
def copyZipData (plan : ZipPlan) :
    ℕ → ℕ → ℕ → ℕ → Hasher → ZipM ZipBuildError (ℕ × ℕ × Hasher)
  | 0, _, size, total, hasher => pure (size, total, hasher)
  | rounds + 1, remaining, size, total, hasher =>
    if remaining = 0 then pure (size, total, hasher)
    else do
      let chunk ← readSource (min remaining bufferedResponseChunkBytes)
      if chunk.isEmpty then Action.fail sourceChanged
      else do
        let size ← Action.ofExcept (checkedZipData size chunk.length 0)
        let total ← Action.ofExcept (checkedZipData total chunk.length plan.maxDataSize)
        Action.mapError .output (writeAll chunk)
        copyZipData plan rounds (remaining - chunk.length) size total
          (update hasher chunk)

def sourceLen : ZipM ZipBuildError ℕ := Action.mapError .source (ask ZipEnvironment.metadataLen)

/-- `CountingWriter::written`. -/
def writtenBytes : ZipM ZipBuildError ℕ := fun _ w => .ok w.written w

/-- The part of `write_zip_file` for a regular file, between header and descriptor. -/
def copyRegularFile (plan : ZipPlan) (planned : ZipFilePlan) (total : ℕ) :
    ZipM ZipBuildError (ℕ × ℕ × Hasher) := do
  Action.mapError .source (ask fun env time => env.openRegularFile time planned.sourcePath)
  let len ← sourceLen
  if len ≠ planned.scannedLen then Action.fail sourceChanged
  else do
    let copied ← copyZipData plan planned.scannedLen planned.scannedLen 0 total new
    let more ← readSource 1
    if more ≠ [] then Action.fail sourceChanged
    else do
      let len ← sourceLen
      if len ≠ planned.scannedLen then Action.fail sourceChanged
      else pure copied

/-- `write_zip_file`: gives the central entries and the size of all data so far. -/
def writeZipFile (plan : ZipPlan) (planned : ZipFilePlan) (entries : List StreamingZipEntry)
    (total : ℕ) : ZipM ZipBuildError (List StreamingZipEntry × ℕ) := do
  let localOffset ← writtenBytes
  Action.mapError .output (writeStreamingLocalHeader (utf8Bytes planned.archiveName))
  if planned.isDirectory then do
    Action.mapError .output (writeStreamingDescriptor 0 0)
    pure (entries ++ [⟨planned.archiveName, 0, 0, localOffset, true⟩], total)
  else do
    let (size, total, hasher) ← copyRegularFile plan planned total
    let crc := (finalize hasher).toNat
    Action.mapError .output (writeStreamingDescriptor crc size)
    pure (entries ++ [⟨planned.archiveName, crc, size, localOffset, false⟩], total)

/-- The loop of `write_zip_archive`. -/
def writeZipFiles (plan : ZipPlan) : List ZipFilePlan → List StreamingZipEntry → ℕ →
    ZipM ZipBuildError (List StreamingZipEntry)
  | [], entries, _ => pure entries
  | planned :: files, entries, total => do
    let (entries, total) ← writeZipFile plan planned entries total
    writeZipFiles plan files entries total

def finishZip (entries : List StreamingZipEntry) : ZipM ZipBuildError Unit := do
  let centralOffset ← writtenBytes
  Action.each (fun entry => Action.mapError .output (writeStreamingCentralEntry entry)) entries
  let zip64EocdOffset ← writtenBytes
  if zip64EocdOffset < centralOffset then
    Action.fail (.limit "zip central directory overflow")
  else if 2 ^ 64 ≤ entries.length then Action.fail (.limit "zip file count overflow")
  else do
    Action.mapError .output
      (writeStreamingZip64Eocd entries.length (zip64EocdOffset - centralOffset) centralOffset)
    Action.mapError .output (writeStreamingZip64Locator zip64EocdOffset)
    Action.mapError .output writeStreamingEocd

def writeZipArchive (plan : ZipPlan) : ZipM ZipBuildError Unit := do
  let entries ← writeZipFiles plan plan.files [] 0
  finishZip entries
  Action.mapError .output (ask fun env time => env.flush time)

end Archive

section Appending

variable {ε ε' α β : Type} {env : ZipEnvironment} {w : ZipWorld}

/-- The count is that of the bytes that were written, and fits its type. -/
def ZipWorld.Counted (w : ZipWorld) : Prop := w.written = w.output.length ∧ w.written < 2 ^ 64

/-- Where the action succeeds, `Q` holds of its value and of the bytes it has written. -/
def Writes (m : ZipM ε α) (env : ZipEnvironment) (w : ZipWorld)
    (Q : α → List UInt8 → Prop) : Prop :=
  Action.Meets m env w
    (fun a w' => ∃ bytes, w'.output = w.output ++ bytes ∧ w'.Counted ∧ Q a bytes)
    (fun _ _ => True) fun _ => True

namespace Writes

variable {m : ZipM ε α} {next : α → ZipM ε β} {Q Q' : α → List UInt8 → Prop}
  {R : β → List UInt8 → Prop}

theorem pure {a : α} (hw : w.Counted) (hQ : Q a []) : Writes (Pure.pure a : ZipM ε α) env w Q :=
  ⟨[], by simp, hw, hQ⟩

theorem fail {error : ε} : Writes (Action.fail error : ZipM ε α) env w Q := trivial

theorem mono (h : Writes m env w Q) (hQ : ∀ a bytes, Q a bytes → Q' a bytes) :
    Writes m env w Q' :=
  Action.Meets.mono h (fun a _ ⟨bytes, houtp, hcounted, hbytes⟩ =>
    ⟨bytes, houtp, hcounted, hQ a bytes hbytes⟩) (fun _ _ h => h) fun _ h => h

theorem mapError {f : ε → ε'} (h : Writes m env w Q) : Writes (Action.mapError f m) env w Q :=
  Action.Meets.mapError h fun _ _ h => h

/-- What two actions write stands one after the other. -/
theorem bind (h : Writes m env w Q)
    (hnext : ∀ a bytes w', w'.output = w.output ++ bytes → w'.Counted → Q a bytes →
      Writes (next a) env w' fun b more => R b (bytes ++ more)) : Writes (m >>= next) env w R := by
  refine Action.Meets.bind h ?_ fun _ _ h => h
  rintro a w' ⟨bytes, houtp, hcounted, hbytes⟩
  refine Action.Meets.mono (hnext a bytes w' houtp hcounted hbytes) ?_ (fun _ _ h => h) fun _ h => h
  rintro b w'' ⟨more, houtp', hcounted', hmore⟩
  exact ⟨bytes ++ more, by rw [houtp', houtp, List.append_assoc], hcounted', hmore⟩

theorem ofExcept {result : Except ε α} (hw : w.Counted) :
    Writes (Action.ofExcept result) env w fun a bytes => bytes = [] ∧ result = .ok a := by
  cases result with
  | ok a => exact .pure hw ⟨rfl, rfl⟩
  | error error => trivial

theorem ask {answer : ZipEnvironment → ℕ → Except IoError α} (hw : w.Counted) :
    Writes (VaultLink.ask answer) env w fun a bytes => bytes = [] ∧ answer env w.clock = .ok a := by
  unfold Writes Action.Meets VaultLink.ask
  cases answer env w.clock with
  | ok a => exact ⟨[], by simp, hw, rfl, rfl⟩
  | error error => trivial

end Writes

/-- Wherever the action succeeds, it has written the bytes. -/
def Appends (m : ZipM ε α) (bytes : List UInt8) : Prop :=
  ∀ env w, w.Counted → Writes m env w fun _ written => written = bytes

theorem Appends.bind {m : ZipM ε α} {next : α → ZipM ε β} {bytes more : List UInt8}
    (h : Appends m bytes) (hnext : ∀ a, Appends (next a) more) :
    Appends (m >>= next) (bytes ++ more) := by
  intro env w hw
  refine (h env w hw).bind fun a _ w' _ hw' hbytes => ?_
  exact (hnext a env w' hw').mono fun _ _ hmore => by rw [hbytes, hmore]

theorem Appends.last {m : ZipM ε α} {bytes : List UInt8} (h : Appends m bytes) :
    Appends m (bytes ++ []) := by
  rwa [List.append_nil]

theorem Appends.mapError {m : ZipM ε α} {bytes : List UInt8} {f : ε → ε'} (h : Appends m bytes) :
    Appends (Action.mapError f m) bytes :=
  fun env w hw => (h env w hw).mapError

theorem Appends.each {ι : Type} {body : ι → ZipM ε Unit} {bytes : ι → List UInt8}
    (h : ∀ i, Appends (body i) (bytes i)) (items : List ι) :
    Appends (Action.each body items) (items.flatMap bytes) := by
  induction items with
  | nil => exact fun env w hw => .pure hw rfl
  | cons i items ih => exact (h i).bind fun _ => ih

theorem writes_countingWrite (buffer : List UInt8) (hw : w.Counted) :
    Writes (countingWrite buffer) env w fun written bytes => bytes = buffer.take written := by
  refine Action.Meets.bind (Writes.ask hw) ?_ fun _ _ h => h
  rintro taken w' ⟨bytes, houtp, ⟨hcount, -⟩, rfl, hans⟩
  have htaken : taken = buffer.take taken.length := by
    cases hwrite : env.write w.clock with
    | error error => simp [hwrite, Except.map] at hans
    | ok count =>
      obtain rfl : buffer.take count = taken := by simpa [hwrite, Except.map] using hans
      rw [List.length_take, List.take_eq_take_min, min_comm]
  unfold Action.Meets
  dsimp only
  split
  · rename_i hroom
    refine ⟨taken, by rw [houtp, List.append_nil], ⟨?_, hroom⟩, htaken⟩
    rw [hcount, List.length_append]
  · trivial

theorem appends_writeAll (buffer : List UInt8) : Appends (writeAll buffer) buffer := by
  have hloop : ∀ rounds (buffer : List UInt8), buffer.length ≤ rounds →
      Appends (writeAllLoop rounds buffer) buffer := by
    intro rounds
    induction rounds with
    | zero =>
      intro buffer hbuffer env w hw
      exact .pure hw (List.length_eq_zero_iff.mp (Nat.le_zero.mp hbuffer)).symm
    | succ rounds ih =>
      intro buffer hbuffer env w hw
      rw [writeAllLoop]
      split
      · rename_i hemp
        exact .pure hw (List.isEmpty_iff.mp hemp).symm
      · refine (writes_countingWrite buffer hw).bind fun written bytes w' _ hw' hbytes => ?_
        split
        · exact .fail
        · refine (ih _ ?_ env w' hw').mono fun _ more hmore => ?_
          · rw [List.length_drop]
            omega
          · rw [hbytes, hmore, List.take_append_drop]
  exact hloop buffer.length buffer le_rfl

end Appending

section Pass

open Crc32Hasher

variable {env : ZipEnvironment} {w : ZipWorld} {plan : ZipPlan} {planned : ZipFilePlan}

def StreamingZipEntry.central (entry : StreamingZipEntry) : CentralEntry :=
  ⟨utf8Bytes entry.name, entry.crc, entry.size, entry.localOffset, entry.isDirectory⟩

theorem appends_localHeader (name : List UInt8) :
    Appends (writeStreamingLocalHeader name) (encode name localHeader []) := by
  iterate 15 refine (appends_writeAll _).bind fun _ => ?_
  exact (appends_writeAll _).last

theorem appends_descriptor (crc size : ℕ) :
    Appends (writeStreamingDescriptor crc size) (encode [] descriptor [crc, size, size]) := by
  iterate 3 refine (appends_writeAll _).bind fun _ => ?_
  exact (appends_writeAll _).last

theorem appends_centralEntry (entry : StreamingZipEntry) :
    Appends (writeStreamingCentralEntry entry) entry.central.bytes := by
  iterate 22 refine (appends_writeAll _).bind fun _ => ?_
  exact (appends_writeAll _).last

theorem appends_zip64Eocd (entries centralSize centralOffset : ℕ) :
    Appends (writeStreamingZip64Eocd entries centralSize centralOffset)
      (encode [] zip64End [entries, entries, centralSize, centralOffset]) := by
  iterate 9 refine (appends_writeAll _).bind fun _ => ?_
  exact (appends_writeAll _).last

theorem appends_zip64Locator (offset : ℕ) :
    Appends (writeStreamingZip64Locator offset) (encode [] zip64Locator [offset]) := by
  iterate 3 refine (appends_writeAll _).bind fun _ => ?_
  exact (appends_writeAll _).last

theorem appends_eocd : Appends writeStreamingEocd (encode [] endRecord []) := by
  iterate 7 refine (appends_writeAll _).bind fun _ => ?_
  exact (appends_writeAll _).last

/-- A member as it was planned. -/
structure PlannedAs (planned : ZipFilePlan) (m : ZipMember) : Prop where
  name_eq : m.name = utf8Bytes planned.archiveName
  length_eq : m.data.length = planned.scannedLen
  isDirectory_eq : m.isDirectory = planned.isDirectory

theorem checkedZipData_ok {current added maximum total : ℕ}
    (h : checkedZipData current added maximum = .ok total) : total = current + added := by
  unfold checkedZipData at h
  split_ifs at h
  cases h
  rfl

theorem writes_readSource (wanted : ℕ) (hw : w.Counted) :
    Writes (readSource wanted) env w fun chunk bytes => bytes = [] ∧ chunk.length ≤ wanted := by
  refine (Writes.ask hw).mapError.mono fun chunk bytes ⟨hbytes, hchunk⟩ => ⟨hbytes, ?_⟩
  cases hread : env.read w.clock with
  | error error => simp [hread, Except.map] at hchunk
  | ok there =>
    obtain rfl : there.take wanted = chunk := by simpa [hread, Except.map] using hchunk
    exact List.length_take_le wanted there

theorem writes_sourceLen (hw : w.Counted) :
    Writes sourceLen env w fun _ bytes => bytes = [] :=
  (Writes.ask hw).mapError.mono fun _ _ h => h.1

theorem writes_writtenBytes (hw : w.Counted) :
    Writes writtenBytes env w fun offset bytes => bytes = [] ∧ offset = w.output.length :=
  ⟨[], by simp, hw, rfl, hw.1⟩

variable [Crc32Hasher]

/-- The copy loop writes what it reads, in the planned length. -/
theorem writes_copyZipData (rounds remaining size total : ℕ) (hasher : Hasher)
    (hrounds : remaining ≤ rounds) (hw : w.Counted) :
    Writes (copyZipData plan rounds remaining size total hasher) env w fun copied data =>
      data.length = remaining ∧ copied.1 = size + remaining ∧ copied.2.2 = update hasher data := by
  induction rounds generalizing remaining size total hasher w with
  | zero =>
    obtain rfl := Nat.le_zero.mp hrounds
    exact .pure hw ⟨rfl, rfl, (update_nil hasher).symm⟩
  | succ rounds ih =>
    rw [copyZipData]
    split
    · rename_i hdone
      exact .pure hw ⟨hdone.symm, by rw [hdone]; rfl, (update_nil hasher).symm⟩
    · refine (writes_readSource _ hw).bind fun chunk bytes w₁ _ hw₁ ⟨hbytes, hchunk⟩ => ?_
      subst hbytes
      split
      · exact .fail
      · rename_i hnonempty
        refine (Writes.ofExcept hw₁).bind fun size' bytes w₂ _ hw₂ ⟨hbytes, hsize⟩ => ?_
        subst hbytes
        refine (Writes.ofExcept hw₂).bind fun total' bytes w₃ _ hw₃ ⟨hbytes, _⟩ => ?_
        subst hbytes
        refine ((appends_writeAll chunk env w₃ hw₃).mapError).bind fun _ bytes w₄ _ hw₄ hbytes => ?_
        have hpositive : 0 < chunk.length := List.length_pos_iff.mpr (by simpa using hnonempty)
        have hle : chunk.length ≤ remaining := hchunk.trans (min_le_left _ _)
        refine (ih _ size' total' _ (by omega) hw₄).mono fun copied data ⟨hlen, hcopied, hcrc⟩ => ?_
        have hsize' := checkedZipData_ok hsize
        refine ⟨?_, by omega, ?_⟩
        · simp [hbytes, hlen]
          omega
        · simpa [hbytes, update_append] using hcrc

theorem writes_copyRegularFile (total : ℕ) (hw : w.Counted) :
    Writes (copyRegularFile plan planned total) env w fun copied data =>
      data.length = planned.scannedLen ∧ copied.1 = planned.scannedLen ∧
        (finalize copied.2.2).toNat = crc32 data := by
  refine ((Writes.ask hw).mapError).bind fun _ bytes w₁ _ hw₁ ⟨hbytes, _⟩ => ?_
  subst hbytes
  refine (writes_sourceLen hw₁).bind fun _ bytes w₂ _ hw₂ hbytes => ?_
  subst hbytes
  split
  · exact .fail
  · refine (writes_copyZipData _ _ 0 total new le_rfl hw₂).bind ?_
    intro copied data w₃ _ hw₃ hdata
    refine (writes_readSource 1 hw₃).bind fun _ bytes w₄ _ hw₄ ⟨hbytes, _⟩ => ?_
    subst hbytes
    split
    · exact .fail
    · refine (writes_sourceLen hw₄).bind fun _ bytes w₅ _ hw₅ hbytes => ?_
      subst hbytes
      split
      · exact .fail
      · obtain ⟨hlen, hsize, hcrc⟩ := hdata
        exact .pure hw₅ ⟨by simpa using hlen, by simpa using hsize, by simp [hcrc, crc32]⟩

/-- A planned file becomes a member, and its entry tells where. -/
theorem writes_writeZipFile (hdir : planned.isDirectory = true → planned.scannedLen = 0)
    (entries : List StreamingZipEntry) (total : ℕ) (hw : w.Counted) :
    Writes (writeZipFile plan planned entries total) env w fun result bytes =>
      ∃ m, PlannedAs planned m ∧ bytes = localRecord m ∧
        result.1.map StreamingZipEntry.central = entries.map StreamingZipEntry.central ++
          centralEntries w.output.length [m] := by
  refine (writes_writtenBytes hw).bind ?_
  rintro offset _ w₁ - hw₁ ⟨rfl, hoff⟩
  refine ((appends_localHeader _ env w₁ hw₁).mapError).bind fun _ bytes w₂ _ hw₂ hheader => ?_
  split
  · rename_i hisDirectory
    refine ((appends_descriptor 0 0 env w₂ hw₂).mapError).bind fun _ bytes w₃ _ hw₃ hbytes => ?_
    refine .pure hw₃ ⟨⟨utf8Bytes planned.archiveName, [], true⟩,
      ⟨rfl, (hdir hisDirectory).symm, hisDirectory.symm⟩, ?_, ?_⟩
    · simp [hheader, hbytes, localRecord, crc32_nil]
    · simp [StreamingZipEntry.central, centralEntries, hoff, crc32_nil]
  · rename_i hregular
    refine (writes_copyRegularFile total hw₂).bind ?_
    rintro copied data w₃ - hw₃ ⟨hlen, hsize, hcrc⟩
    refine ((appends_descriptor _ _ env w₃ hw₃).mapError).bind fun _ bytes w₄ _ hw₄ hbytes => ?_
    refine .pure hw₄ ⟨⟨utf8Bytes planned.archiveName, data, false⟩,
      ⟨rfl, hlen, by simpa using hregular⟩, ?_, ?_⟩
    · rw [List.nil_append, List.append_nil, hbytes, hheader, hcrc, hsize, ← hlen]
      rfl
    · simp [StreamingZipEntry.central, centralEntries, hoff, hcrc, hsize, hlen]

theorem centralEntries_append (offset : ℕ) (members members' : List ZipMember) :
    centralEntries offset (members ++ members') = centralEntries offset members ++
      centralEntries (offset + (members.flatMap localRecord).length) members' := by
  induction members generalizing offset with
  | nil => simp [centralEntries]
  | cons m members ih => simp [centralEntries, ih, Nat.add_assoc]

theorem writes_writeZipFiles {files : List ZipFilePlan}
    (hdirs : ∀ file ∈ files, file.isDirectory = true → file.scannedLen = 0)
    (entries : List StreamingZipEntry) (total : ℕ) (hw : w.Counted) :
    Writes (writeZipFiles plan files entries total) env w fun result bytes =>
      ∃ members, List.Forall₂ PlannedAs files members ∧ bytes = members.flatMap localRecord ∧
        result.map StreamingZipEntry.central = entries.map StreamingZipEntry.central ++
          centralEntries w.output.length members := by
  induction files generalizing entries total w with
  | nil => exact .pure hw ⟨[], .nil, rfl, by simp [centralEntries]⟩
  | cons planned files ih =>
    obtain ⟨hdir, hrest⟩ := List.forall_mem_cons.mp hdirs
    refine (writes_writeZipFile hdir entries total hw).bind ?_
    rintro result bytes w₁ houtp hw₁ ⟨m, hm, hbytes, hents⟩
    refine (ih hrest result.1 result.2 hw₁).mono ?_
    rintro final more ⟨members, hmemb, hmore, hfinal⟩
    refine ⟨m :: members, .cons hm hmemb, by simp [hbytes, hmore], ?_⟩
    rw [hfinal, hents, List.append_assoc, houtp, List.length_append, hbytes]
    exact congrArg _ (centralEntries_append w.output.length [m] members ▸ by simp)

/-- After the members comes all that an archive needs. -/
theorem writes_finishZip {entries : List StreamingZipEntry} {members : List ZipMember}
    (hents : entries.map StreamingZipEntry.central = centralEntries 0 members)
    (houtp : w.output = members.flatMap localRecord) (hw : w.Counted) :
    Writes (finishZip entries) env w fun _ bytes => w.output ++ bytes = zip64Archive members := by
  have hcount : entries.length = members.length := by
    simpa using congrArg List.length hents
  have hcentral : entries.flatMap (fun entry => entry.central.bytes) =
      (centralEntries 0 members).flatMap CentralEntry.bytes := by
    rw [← hents, List.flatMap_map]
  refine (writes_writtenBytes hw).bind ?_
  rintro offset _ w₁ houtp₁ hw₁ ⟨rfl, hoff⟩
  have heach := Appends.each (fun entry => (appends_centralEntry entry).mapError
    (f := ZipBuildError.output)) entries
  refine (heach env w₁ hw₁).bind fun _ central w₂ houtp₂ hw₂ hbytes => ?_
  refine (writes_writtenBytes hw₂).bind ?_
  rintro offset' _ w₃ - hw₃ ⟨rfl, hoff'⟩
  split
  · exact .fail
  split
  · exact .fail
  refine ((appends_zip64Eocd _ _ _ env w₃ hw₃).mapError).bind fun _ zip64 w₄ _ hw₄ hzip64 => ?_
  refine ((appends_zip64Locator _ env w₄ hw₄).mapError).bind fun _ locator w₅ _ hw₅ hlocator => ?_
  refine ((appends_eocd env w₅ hw₅).mapError).mono fun _ last hlast => ?_
  have hlen : offset' = offset + central.length := by
    rw [hoff', houtp₂, houtp₁, hoff]
    simp
  rw [hcentral] at hbytes
  simp [zip64Archive, hlast, hlocator, hzip64, hlen, hcount, hoff, hbytes, houtp]

end Pass

section Estimate

theorem length_utf8Bytes (text : Text) : (utf8Bytes text).length = byteLength text :=
  rfl

theorem exists_planned {files : List ZipFilePlan} {members : List ZipMember}
    (h : List.Forall₂ PlannedAs files members) {m : ZipMember} (hm : m ∈ members) :
    ∃ file ∈ files, PlannedAs file m := by
  induction h with
  | nil => cases hm
  | @cons file _ _ _ hfile _ ih =>
    obtain rfl | hm := List.mem_cons.mp hm
    · exact ⟨file, List.mem_cons_self, hfile⟩
    · obtain ⟨file', hmem, hplanned⟩ := ih hm
      exact ⟨file', List.mem_cons_of_mem _ hmem, hplanned⟩

variable [Crc32Hasher]

theorem estimateZipArchiveSize_eq {files : List ZipFilePlan} {members : List ZipMember}
    (hmemb : List.Forall₂ PlannedAs files members) {size : ℕ}
    (h : estimateZipArchiveSize files = .ok size) : size = (zip64Archive members).length := by
  have hsum : ∀ (start offset : ℕ), files.foldlM (fun size file =>
      let next := size + file.scannedLen + zip64EntryFixedSize + byteLength file.archiveName * 2
      if next < 2 ^ 64 then Except.ok next
      else .error (ZipBuildError.limit "zip archive size overflow"))
      start = .ok size → size = start + (members.flatMap localRecord).length +
        ((centralEntries offset members).flatMap CentralEntry.bytes).length := by
    clear h
    induction hmemb with
    | nil =>
      intro start offset h
      cases h
      rfl
    | @cons file m files members hm _ ih =>
      intro start offset h
      rw [List.foldlM_cons, except_bind_eq_ok] at h
      obtain ⟨next, hnext, h⟩ := h
      dsimp only at hnext
      split_ifs at hnext
      cases hnext
      have hname : m.name.length = byteLength file.archiveName := by
        rw [hm.name_eq, length_utf8Bytes]
      rw [ih _ (offset + (localRecord m).length) h]
      simp only [List.flatMap_cons, centralEntries, List.length_append, length_localRecord,
        CentralEntry.length_bytes, hname, hm.length_eq, zip64EntryFixedSize]
      omega
  rw [hsum _ 0 h, length_zip64Archive, zip64ArchiveEndSize]
  omega

end Estimate

section Result

/-- The state before the first byte. -/
def ZipWorld.start : ZipWorld := ⟨[], 0, 0⟩

/-- Whenever the archive of a plan is written without an error, the output is a ZIP64 archive: its
local records are those of the planned entries in their order, every central record leads to its
own, the records at the end say where the central directory is, and a reader that checks all this
finds the members again. Its length is the one that was estimated. -/
theorem written_zip_is_well_formed [Crc32Hasher] (access : DirectoryAccess) (alloc : Allocator)
    (root : Text) (settings : RuntimeSettings) (plan : ZipPlan)
    (hplan : planZip access alloc root settings = .ok plan) (env : ZipEnvironment) (w : ZipWorld)
    (hwrite : writeZipArchive plan env .start = .ok () w) :
    ∃ members, List.Forall₂ PlannedAs plan.files members ∧ w.output = zip64Archive members ∧
      readZip64 w.output = some members ∧
      estimateZipArchiveSize plan.files = .ok w.output.length ∧
      plan.estimatedArchiveSize = w.output.length := by
  obtain ⟨_, s, _, _, hwalk, hfiles, hestimate⟩ := planZip_walk hplan
  have hdirs : ∀ file ∈ plan.files, file.isDirectory = true → file.scannedLen = 0 := by
    intro file hfile hdir
    rw [hfiles, hwalk.files_eq] at hfile
    obtain ⟨⟨path, entry⟩, -, rfl⟩ := List.mem_map.mp hfile
    simp only [planned, plannedFile] at hdir ⊢
    split_ifs at hdir ⊢
    rfl
  have hwrites : Writes (writeZipArchive plan) env .start fun _ bytes => ∃ members,
      List.Forall₂ PlannedAs plan.files members ∧ bytes = zip64Archive members := by
    refine (writes_writeZipFiles hdirs [] 0 ⟨rfl, by decide⟩).bind ?_
    rintro entries bytes w₁ houtp hw₁ ⟨members, hmemb, hbytes, hents⟩
    refine (writes_finishZip (by simpa [ZipWorld.start] using hents)
      (by simpa [hbytes, ZipWorld.start] using houtp) hw₁).bind
      fun _ more w₂ _ hw₂ hmore => ?_
    refine ((Writes.ask hw₂).mapError).mono ?_
    rintro - _ ⟨rfl, -⟩
    refine ⟨members, hmemb, ?_⟩
    simpa [houtp, ZipWorld.start] using hmore
  obtain ⟨bytes, houtp, ⟨hcount, hsmall⟩, members, hmemb, hbytes⟩ := Action.Meets.ok hwrites hwrite
  have hall : w.output = zip64Archive members := by simpa [ZipWorld.start, hbytes] using houtp
  have hsize := estimateZipArchiveSize_eq hmemb hestimate
  rw [← hall] at hsize
  refine ⟨members, hmemb, hall, ?_, hsize ▸ hestimate, hsize⟩
  rw [hall]
  refine readZip64_zip64Archive ⟨fun m hm => ?_, by rw [← hall, ← hcount]; exact hsmall⟩
  obtain ⟨file, hfile, hplanned⟩ := exists_planned hmemb hm
  have hname := hwalk.name_le file (hfiles ▸ hfile)
  rw [hplanned.name_eq, length_utf8Bytes]
  omega

/-- The sum of the bytes. -/
instance byteSum : Crc32Hasher where
  Hasher := UInt32
  new := 0
  update hasher bytes := bytes.foldl (fun sum byte => sum + byte.toUInt32) hasher
  finalize := id
  update_nil _ := rfl
  update_append _ _ _ := List.foldl_append
  finalize_new := rfl

/-- Answers in which the files of the small tree are read as they were planned. -/
def steadyZipEnvironment : ZipEnvironment where
  write _ := .ok 65536
  flush _ := .ok ()
  openRegularFile _ _ := .ok ()
  metadataLen time := .ok (if time < 50 then 3 else 4)
  read time := .ok (if time = 38 then [1, 2, 3] else if time = 64 then [4, 5, 6, 7] else [])

/-- The plan of the small tree. -/
def smallPlan : ZipPlan :=
  ⟨[⟨['d'], ['d', '/'], 0, true⟩, ⟨['f'], ['f'], 3, false⟩,
    ⟨['d', '/', 'g'], ['d', '/', 'g'], 4, false⟩], 7, 561⟩

theorem written_zip_is_well_formed_small :
    ∃ plan w members, planZip smallTree exactAllocator [] tightSettings = .ok plan ∧
      writeZipArchive plan steadyZipEnvironment .start = .ok () w ∧
      List.Forall₂ PlannedAs plan.files members ∧ readZip64 w.output = some members := by
  have hplan : (planZip smallTree exactAllocator [] tightSettings).toOption = some smallPlan := by
    decide +kernel
  have hok : (writeZipArchive smallPlan steadyZipEnvironment .start).isOk = true := by
    decide +kernel
  cases hres : planZip smallTree exactAllocator [] tightSettings with
  | error stop =>
    rw [hres] at hplan
    cases hplan
  | ok plan =>
    rw [hres] at hplan
    cases hplan
    cases hwrite : writeZipArchive smallPlan steadyZipEnvironment .start with
    | ok _ w =>
      obtain ⟨members, hmemb, -, hread, -⟩ := written_zip_is_well_formed smallTree exactAllocator
        [] tightSettings smallPlan hres steadyZipEnvironment w hwrite
      exact ⟨smallPlan, w, members, rfl, hwrite, hmemb, hread⟩
    | err | crash =>
      rw [hwrite] at hok
      cases hok

end Result

end VaultLink
