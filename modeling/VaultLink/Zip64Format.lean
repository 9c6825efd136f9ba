import VaultLink.LittleEndian

/-!
# ZIP64 archives of stored members

An archive without compression: for each member a local header, its data and a descriptor with
checksum and size, then a central record for each member that points back to its local header,
and at the end the records that tell where the central directory is. A reader starts at the end,
as unpacking programs do, and checks all that is said twice. It reads back the members an
archive was made of.
-/
namespace VaultLink

/-- A checksum that may be computed piece by piece, and is zero where there is nothing. -/
class Crc32Hasher where
  Hasher : Type
  new : Hasher
  update : Hasher → List UInt8 → Hasher
  finalize : Hasher → UInt32
  update_nil : ∀ hasher, update hasher [] = hasher
  update_append : ∀ hasher bytes more,
    update hasher (bytes ++ more) = update (update hasher bytes) more
  finalize_new : finalize new = 0

section Checksum

variable [Crc32Hasher]

open Crc32Hasher

def crc32 (bytes : List UInt8) : ℕ := (finalize (update new bytes)).toNat

theorem crc32_nil : crc32 [] = 0 := by
  rw [crc32, update_nil, finalize_new]
  rfl

theorem crc32_lt (bytes : List UInt8) : crc32 bytes < 256 ^ 4 :=
  (finalize (update new bytes)).toNat_lt

end Checksum

section Layouts

/-- One field of a record: a constant, a number, or a text whose length stands before it. -/
inductive RecordField
  | const (width value : ℕ)
  | number (width : ℕ)
  | textLength (width : ℕ)
  | text
deriving DecidableEq

/-- The bytes of a record with its text and its numbers. -/
def encode (text : List UInt8) : List RecordField → List ℕ → List UInt8
  | [], _ => []
  | .const width value :: layout, numbers => leBytes width value ++ encode text layout numbers
  | .number width :: layout, numbers =>
    leBytes width (numbers.headD 0) ++ encode text layout numbers.tail
  | .textLength width :: layout, numbers =>
    leBytes width text.length ++ encode text layout numbers
  | .text :: layout, numbers => text ++ encode text layout numbers

def RecordField.width (textLength : ℕ) : RecordField → ℕ
  | .const width _ | .number width | .textLength width => width
  | .text => textLength

def cut (length : ℕ) (bytes : List UInt8) : Option (List UInt8 × List UInt8) :=
  if length ≤ bytes.length then some (bytes.take length, bytes.drop length) else none

/-- Reads a record from the front of the bytes; `length` is that of the text to come. -/
def decode : List RecordField → ℕ → List UInt8 → Option ((List ℕ × List UInt8) × List UInt8)
  | [], _, bytes => some (([], []), bytes)
  | .const width value :: layout, length, bytes => do
    let (field, bytes) ← cut width bytes
    guard (leNat field = value)
    decode layout length bytes
  | .number width :: layout, length, bytes => do
    let (field, bytes) ← cut width bytes
    let ((numbers, text), bytes) ← decode layout length bytes
    return ((leNat field :: numbers, text), bytes)
  | .textLength width :: layout, _, bytes => do
    let (field, bytes) ← cut width bytes
    decode layout (leNat field) bytes
  | .text :: layout, length, bytes => do
    let (text, bytes) ← cut length bytes
    let ((numbers, _), bytes) ← decode layout length bytes
    return ((numbers, text), bytes)

/-- All numbers fit their fields, and a text comes after its length. -/
def FitsLayout (text : List UInt8) : Bool → List RecordField → List ℕ → Prop
  | _, [], numbers => numbers = []
  | known, .const width value :: layout, numbers =>
    value < 256 ^ width ∧ FitsLayout text known layout numbers
  | known, .number width :: layout, numbers => ∃ n rest, numbers = n :: rest ∧ n < 256 ^ width ∧
    FitsLayout text known layout rest
  | _, .textLength width :: layout, numbers =>
    text.length < 256 ^ width ∧ FitsLayout text true layout numbers
  | known, .text :: layout, numbers => known = true ∧ FitsLayout text known layout numbers

variable {text : List UInt8} {layout : List RecordField} {numbers : List ℕ} {known : Bool}
  {length : ℕ}

@[simp] theorem cut_append (field rest : List UInt8) :
    cut field.length (field ++ rest) = some (field, rest) := by
  simp [cut]

@[simp] theorem cut_leBytes (width n : ℕ) (rest : List UInt8) :
    cut width (leBytes width n ++ rest) = some (leBytes width n, rest) := by
  simpa using cut_append (leBytes width n) rest

@[simp] theorem length_encode (text : List UInt8) (layout : List RecordField) (numbers : List ℕ) :
    (encode text layout numbers).length = (layout.map (RecordField.width text.length)).sum := by
  induction layout generalizing numbers with
  | nil => rfl
  | cons field layout ih => cases field <;> simp [encode, RecordField.width, ih]

/-- A record is read back, whatever comes after it. -/
theorem decode_encode (h : FitsLayout text known layout numbers)
    (hlen : known = true → length = text.length) (rest : List UInt8) :
    ∃ found, decode layout length (encode text layout numbers ++ rest) =
      some ((numbers, found), rest) ∧ (.text ∈ layout → found = text) := by
  induction layout generalizing known length numbers with
  | nil =>
    subst h
    exact ⟨[], rfl, by nofun⟩
  | cons field layout ih =>
    cases field with
    | const width value =>
      obtain ⟨hval, h⟩ := h
      obtain ⟨found, hdec, hfound⟩ := ih h hlen
      exact ⟨found, by simp [decode, encode, leNat_leBytes hval, hdec], by simpa using hfound⟩
    | number width =>
      obtain ⟨n, numbers, rfl, hn, h⟩ := h
      obtain ⟨found, hdec, hfound⟩ := ih h hlen
      exact ⟨found, by simp [decode, encode, leNat_leBytes hn, hdec], by simpa using hfound⟩
    | textLength width =>
      obtain ⟨htext, h⟩ := h
      obtain ⟨found, hdec, hfound⟩ := ih h fun _ => rfl
      exact ⟨found, by simp [decode, encode, leNat_leBytes htext, hdec], by simpa using hfound⟩
    | text =>
      obtain ⟨hknown, h⟩ := h
      obtain ⟨found, hdec, -⟩ := ih h hlen
      rw [hlen hknown] at hdec ⊢
      exact ⟨text, by simp [decode, encode, hdec], fun _ => rfl⟩

theorem decode_record (h : FitsLayout text false layout numbers) (rest : List UInt8) :
    ∃ found, decode layout 0 (encode text layout numbers ++ rest) =
      some ((numbers, found), rest) ∧ (.text ∈ layout → found = text) :=
  decode_encode h (by nofun) rest

end Layouts

section Records

structure ZipMember where
  name : List UInt8
  data : List UInt8
  isDirectory : Bool

/-- A local header whose checksum and sizes follow in a descriptor. -/
def localHeader : List RecordField :=
  [.const 4 0x04034b50, .const 2 45, .const 2 0x0808, .const 2 0, .const 2 0, .const 2 33,
    .const 4 0, .const 4 0xFFFFFFFF, .const 4 0xFFFFFFFF, .textLength 2, .const 2 20, .text,
    .const 2 1, .const 2 16, .const 8 0, .const 8 0]

/-- The checksum and both sizes. -/
def descriptor : List RecordField := [.const 4 0x08074b50, .number 4, .number 8, .number 8]

/-- The checksum, the attributes, both sizes and the offset of the local header. -/
def centralRecord : List RecordField :=
  [.const 4 0x02014b50, .const 2 45, .const 2 45, .const 2 0x0808, .const 2 0, .const 2 0,
    .const 2 33, .number 4, .const 4 0xFFFFFFFF, .const 4 0xFFFFFFFF, .textLength 2, .const 2 28,
    .const 2 0, .const 2 0, .const 2 0, .number 4, .const 4 0xFFFFFFFF, .text, .const 2 1,
    .const 2 24, .number 8, .number 8, .number 8]

/-- The number of entries on this disk and in all, and the central directory's size and offset. -/
def zip64End : List RecordField :=
  [.const 4 0x06064b50, .const 8 44, .const 2 45, .const 2 45, .const 4 0, .const 4 0, .number 8,
    .number 8, .number 8, .number 8]

/-- The offset of the ZIP64 end record. -/
def zip64Locator : List RecordField := [.const 4 0x07064b50, .const 4 0, .number 8, .const 4 1]

/-- The end record, whose fields all refer to the ZIP64 one. -/
def endRecord : List RecordField :=
  [.const 4 0x06054b50, .const 2 0, .const 2 0, .const 2 0xFFFF, .const 2 0xFFFF,
    .const 4 0xFFFFFFFF, .const 4 0xFFFFFFFF, .const 2 0]

/-- What a central record says about a member. -/
structure CentralEntry where
  name : List UInt8
  crc : ℕ
  size : ℕ
  offset : ℕ
  isDirectory : Bool

def CentralEntry.numbers (entry : CentralEntry) : List ℕ :=
  [entry.crc, if entry.isDirectory then 0x10 else 0, entry.size, entry.size, entry.offset]

def CentralEntry.bytes (entry : CentralEntry) : List UInt8 :=
  encode entry.name centralRecord entry.numbers

theorem CentralEntry.length_bytes (entry : CentralEntry) :
    entry.bytes.length = 74 + entry.name.length := by
  simp only [CentralEntry.bytes, length_encode, centralRecord, List.map_cons, List.map_nil,
    RecordField.width, List.sum_cons, List.sum_nil]
  omega

variable [Crc32Hasher]

def localRecord (m : ZipMember) : List UInt8 :=
  encode m.name localHeader [] ++
    (m.data ++ encode [] descriptor [crc32 m.data, m.data.length, m.data.length])

/-- The central entries of members whose local headers start at the offset. -/
def centralEntries : ℕ → List ZipMember → List CentralEntry
  | _, [] => []
  | offset, m :: members =>
    ⟨m.name, crc32 m.data, m.data.length, offset, m.isDirectory⟩ ::
      centralEntries (offset + (localRecord m).length) members

/-- The archive of some members. -/
def zip64Archive (members : List ZipMember) : List UInt8 :=
  let locals := members.flatMap localRecord
  let central := (centralEntries 0 members).flatMap CentralEntry.bytes
  locals ++ (central ++ (encode [] zip64End
    [members.length, members.length, central.length, locals.length] ++
      (encode [] zip64Locator [locals.length + central.length] ++ encode [] endRecord [])))

theorem length_localRecord (m : ZipMember) :
    (localRecord m).length = 74 + m.name.length + m.data.length := by
  simp [localRecord, localHeader, descriptor, RecordField.width]
  omega

end Records

section Reading

variable {members : List ZipMember} {m : ZipMember} {entry : CentralEntry}

/-- Reads a central record, whose sizes must agree. -/
def readCentralRecord (bytes : List UInt8) : Option (CentralEntry × List UInt8) := do
  let (([crc, attributes, compressed, size, offset], name), rest) ← decode centralRecord 0 bytes
    | none
  guard (compressed = size)
  return (⟨name, crc, size, offset, attributes = 0x10⟩, rest)

def readCentralRecords : ℕ → List UInt8 → Option (List CentralEntry × List UInt8)
  | 0, bytes => some ([], bytes)
  | count + 1, bytes => do
    let (entry, bytes) ← readCentralRecord bytes
    let (entries, bytes) ← readCentralRecords count bytes
    return (entry :: entries, bytes)

theorem readCentralRecord_bytes (hname : entry.name.length < 2 ^ 16) (hcrc : entry.crc < 2 ^ 32)
    (hsize : entry.size < 2 ^ 64) (hoff : entry.offset < 2 ^ 64) (rest : List UInt8) :
    readCentralRecord (entry.bytes ++ rest) = some (entry, rest) := by
  have hfits : FitsLayout entry.name false centralRecord entry.numbers := by
    obtain ⟨name, crc, size, offset, _ | _⟩ := entry <;>
      simpa [FitsLayout, centralRecord, CentralEntry.numbers] using ⟨hcrc, hname, hsize, hoff⟩
  obtain ⟨found, hdec, hfound⟩ := decode_record hfits rest
  obtain rfl := hfound (by decide)
  simp only [readCentralRecord, CentralEntry.bytes, hdec]
  simp [CentralEntry.numbers]

theorem readCentralRecords_bytes {entries : List CentralEntry}
    (h : ∀ entry ∈ entries, ∀ rest, readCentralRecord (entry.bytes ++ rest) = some (entry, rest)) :
    readCentralRecords entries.length (entries.flatMap CentralEntry.bytes) =
      some (entries, []) := by
  induction entries with
  | nil => rfl
  | cons entry entries ih =>
    obtain ⟨hent, hents⟩ := List.forall_mem_cons.mp h
    simp [readCentralRecords, hent, ih hents]

variable [Crc32Hasher]

/-- Reads the member of a central entry: its local header has the same name, and descriptor and
data have the checksum and the sizes that the entry says. -/
def readMember (entry : CentralEntry) (bytes : List UInt8) : Option ZipMember := do
  let ((_, name), bytes) ← decode localHeader 0 bytes
  guard (name = entry.name)
  let (data, bytes) ← cut entry.size bytes
  let ((numbers, _), _) ← decode descriptor 0 bytes
  guard (numbers = [entry.crc, entry.size, entry.size] ∧ crc32 data = entry.crc)
  return ⟨name, data, entry.isDirectory⟩

/-- Reads an archive from its end. -/
def readZip64 (bytes : List UInt8) : Option (List ZipMember) := do
  guard (98 ≤ bytes.length)
  let _ ← decode endRecord 0 (bytes.drop (bytes.length - 22))
  let (([endOffset], _), _) ← decode zip64Locator 0 (bytes.drop (bytes.length - 42)) | none
  guard (endOffset + 98 = bytes.length)
  let (([onDisk, count, size, offset], _), _) ← decode zip64End 0 (bytes.drop endOffset) | none
  guard (onDisk = count ∧ offset + size = endOffset)
  let (entries, rest) ← readCentralRecords count ((bytes.drop offset).take size)
  guard (rest = [])
  entries.mapM fun entry => readMember entry (bytes.drop entry.offset)

theorem readMember_localRecord {offset : ℕ} (hname : m.name.length < 2 ^ 16)
    (hsize : m.data.length < 2 ^ 64) (rest : List UInt8) :
    readMember ⟨m.name, crc32 m.data, m.data.length, offset, m.isDirectory⟩
      (localRecord m ++ rest) = some m := by
  have hheader : FitsLayout m.name false localHeader [] := by
    simpa [FitsLayout, localHeader] using hname
  have hsums : FitsLayout [] false descriptor [crc32 m.data, m.data.length, m.data.length] := by
    simpa [FitsLayout, descriptor] using ⟨crc32_lt m.data, hsize⟩
  obtain ⟨found, hdec, hfound⟩ := decode_record hheader
    (m.data ++ (encode [] descriptor [crc32 m.data, m.data.length, m.data.length] ++ rest))
  obtain rfl := hfound (by decide)
  obtain ⟨_, hdescriptor, _⟩ := decode_record hsums rest
  simp [readMember, localRecord, hdec, hdescriptor]

@[simp] theorem length_centralEntries (offset : ℕ) (members : List ZipMember) :
    (centralEntries offset members).length = members.length := by
  induction members generalizing offset with
  | nil => rfl
  | cons m members ih => simp [centralEntries, ih]

/-- Central entries tell the names, and offsets within the local records. -/
theorem mem_centralEntries {offset : ℕ} (h : entry ∈ centralEntries offset members) :
    ∃ m ∈ members, entry.name = m.name ∧ entry.crc = crc32 m.data ∧
      entry.size = m.data.length ∧ entry.offset + (localRecord m).length ≤
        offset + (members.flatMap localRecord).length := by
  induction members generalizing offset with
  | nil => cases h
  | cons m members ih =>
    rw [List.flatMap_cons, List.length_append]
    obtain rfl | h := List.mem_cons.mp h
    · exact ⟨m, List.mem_cons_self, rfl, rfl, rfl, by dsimp only; omega⟩
    · obtain ⟨m', hm', hname, hcrc, hsize, hoff⟩ := ih h
      exact ⟨m', List.mem_cons_of_mem m hm', hname, hcrc, hsize, by omega⟩

/-- Every central entry leads to its member. -/
theorem mapM_readMember {after : List UInt8} (before : List UInt8)
    (hfits : ∀ m ∈ members, m.name.length < 2 ^ 16 ∧ m.data.length < 2 ^ 64) :
    (centralEntries before.length members).mapM (fun entry => readMember entry
      ((before ++ (members.flatMap localRecord ++ after)).drop entry.offset)) = some members := by
  induction members generalizing before with
  | nil => rfl
  | cons m members ih =>
    obtain ⟨⟨hname, hsize⟩, hrest⟩ := List.forall_mem_cons.mp hfits
    have hnext := ih (before ++ localRecord m) hrest
    rw [List.length_append, List.append_assoc] at hnext
    rw [centralEntries, List.mapM_cons, List.flatMap_cons, List.append_assoc, hnext, List.drop_left,
      readMember_localRecord hname hsize]
    rfl

/-- Names and positions fit their fields. -/
structure ZipFits (members : List ZipMember) : Prop where
  name_lt : ∀ m ∈ members, m.name.length < 2 ^ 16
  length_lt : (zip64Archive members).length < 2 ^ 64

theorem length_zip64Archive (members : List ZipMember) : (zip64Archive members).length =
    (members.flatMap localRecord).length +
      ((centralEntries 0 members).flatMap CentralEntry.bytes).length + 98 := by
  simp [zip64Archive, zip64End, zip64Locator, endRecord, RecordField.width]
  omega

theorem ZipFits.member (h : ZipFits members) (hm : m ∈ members) :
    m.name.length < 2 ^ 16 ∧ m.data.length < 2 ^ 64 := by
  have hlen := length_zip64Archive members
  have hbound := h.length_lt
  obtain ⟨before, after, rfl⟩ := List.append_of_mem hm
  simp only [List.flatMap_append, List.flatMap_cons, List.length_append, length_localRecord]
    at hlen
  exact ⟨h.name_lt m hm, by omega⟩

theorem length_le_flatMap_localRecord (members : List ZipMember) :
    members.length ≤ (members.flatMap localRecord).length := by
  induction members with
  | nil => exact le_rfl
  | cons m members ih =>
    rw [List.flatMap_cons, List.length_append, List.length_cons, length_localRecord]
    omega

theorem ZipFits.readCentral (h : ZipFits members) :
    readCentralRecords members.length ((centralEntries 0 members).flatMap CentralEntry.bytes) =
      some (centralEntries 0 members, []) := by
  have hlen := length_zip64Archive members
  have hbound := h.length_lt
  rw [← length_centralEntries 0 members]
  refine readCentralRecords_bytes fun entry hent => ?_
  obtain ⟨m, hm, hname, hcrc, hsize, hoff⟩ := mem_centralEntries hent
  obtain ⟨hsho, hsmall⟩ := h.member hm
  exact readCentralRecord_bytes (hname ▸ hsho) (hcrc ▸ crc32_lt m.data) (hsize ▸ hsmall) (by omega)

/-- The records at the end of an archive lead to its central directory. -/
theorem readZip64_tail {locals central : List UInt8} {count : ℕ} {members : List ZipMember}
    {entries : List CentralEntry} (hcount : count < 2 ^ 64)
    (hbound : locals.length + central.length < 2 ^ 64)
    (hcentral : readCentralRecords count central = some (entries, []))
    (hmem : ∀ after, entries.mapM (fun entry => readMember entry
      ((locals ++ (central ++ after)).drop entry.offset)) = some members) :
    readZip64 (locals ++ (central ++ (encode [] zip64End
      [count, count, central.length, locals.length] ++
        (encode [] zip64Locator [locals.length + central.length] ++ encode [] endRecord [])))) =
      some members := by
  have hfitsEnd : FitsLayout [] false endRecord [] := by simp [FitsLayout, endRecord]
  have hfitsLocator : FitsLayout [] false zip64Locator [locals.length + central.length] := by
    simpa [FitsLayout, zip64Locator] using hbound
  have hfitsZip64 : FitsLayout [] false zip64End [count, count, central.length, locals.length] := by
    simp [FitsLayout, zip64End]
    omega
  obtain ⟨_, hend, _⟩ := decode_record hfitsEnd []
  obtain ⟨_, hlocator, _⟩ := decode_record hfitsLocator (encode [] endRecord [])
  obtain ⟨_, hzip64, _⟩ := decode_record hfitsZip64
    (encode [] zip64Locator [locals.length + central.length] ++ encode [] endRecord [])
  have hendLength : (encode [] endRecord []).length = 22 := by
    simp [endRecord, RecordField.width]
  have hlocatorLength : (encode [] zip64Locator [locals.length + central.length]).length = 20 := by
    simp [zip64Locator, RecordField.width]
  have hzip64Length : (encode [] zip64End [count, count, central.length, locals.length]).length =
      56 := by
    simp [zip64End, RecordField.width]
  rw [List.append_nil] at hend
  have hmem := hmem (encode [] zip64End [count, count, central.length, locals.length] ++
    (encode [] zip64Locator [locals.length + central.length] ++ encode [] endRecord []))
  generalize encode [] endRecord [] = last at *
  generalize encode [] zip64Locator [locals.length + central.length] = locator at *
  generalize encode [] zip64End [count, count, central.length, locals.length] = zip64 at *
  have hlen : (locals ++ (central ++ (zip64 ++ (locator ++ last)))).length =
      locals.length + central.length + 98 := by
    simp only [List.length_append]
    omega
  have hdrop : ∀ before after, (locals ++ (central ++ (zip64 ++ (locator ++ last)))) =
      before ++ after → ∀ n, n = before.length →
      (locals ++ (central ++ (zip64 ++ (locator ++ last)))).drop n = after := by
    rintro before after hsplit n rfl
    rw [hsplit, List.drop_left]
  have hlast := hdrop (locals ++ central ++ zip64 ++ locator) last (by simp)
    (locals.length + central.length + 98 - 22) (by simp only [List.length_append]; omega)
  have hlocators := hdrop (locals ++ central ++ zip64) (locator ++ last) (by simp)
    (locals.length + central.length + 98 - 42) (by simp only [List.length_append]; omega)
  simp only [readZip64, hlen, hlast, hend, hlocators, hlocator]
  simp [hzip64, hcentral, hmem]

/-- The reader finds the members an archive was made of. -/
theorem readZip64_zip64Archive (h : ZipFits members) :
    readZip64 (zip64Archive members) = some members := by
  have hlen := length_zip64Archive members
  have hbound := h.length_lt
  have hcount := length_le_flatMap_localRecord members
  refine readZip64_tail (by omega) (by omega) h.readCentral fun after => ?_
  exact mapM_readMember [] fun m hm => h.member hm

end Reading

end VaultLink
