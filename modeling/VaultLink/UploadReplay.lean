import VaultLink.FingerprintBytes

/-!
# A repeated form has the fingerprint of the first pass

The reader of repeated forms follows the two parsers of first passes: as long as a parser
accepts, the reader does too, and what it remembers determines what the parser prepares. The
chunks in which the contents arrive do not matter. For administrator uploads there is one
exception, a folder path that names the upload directory itself.
-/
namespace VaultLink

section Fields

/-- The same field, maybe in other chunks. -/
structure SameField (first second : FormField) : Prop where
  name : second.name = first.name
  fileName : second.fileName = first.fileName
  content : second.content = first.content
  aborted : second.aborted = first.aborted

/-- The same form, maybe in other chunks. -/
structure SameForm (first second : MultipartForm) : Prop where
  fields : List.Forall₂ SameField first.fields second.fields
  aborted : second.aborted = first.aborted

variable {field field' : FormField} {maximum : ℕ} {text : Text}

theorem SameField.kind (h : SameField field field') : field'.kind = field.kind := by
  rw [FormField.kind, FormField.kind, h.name]

theorem collectText_eq_ok_iff {aborted : Option BodyAbort} {chunks : List (List UInt8)}
    {value : List UInt8} (hval : value.length ≤ maximum) :
    collectText maximum aborted chunks value = .ok text ↔
      (value ++ chunks.flatten).length ≤ maximum ∧ aborted = none ∧
        decodeUtf8 (value ++ chunks.flatten) = some text := by
  induction chunks generalizing value with
  | nil =>
    rw [List.flatten_nil, List.append_nil]
    cases aborted <;> cases hdecoded : decodeUtf8 value <;> simp [collectText, hdecoded, hval]
  | cons chunk chunks ih =>
    rw [collectText, List.flatten_cons, ← List.append_assoc]
    split_ifs with hlong
    · refine iff_of_false nofun fun h => ?_
      have hlen := h.1
      rw [List.length_append, List.length_append] at hlen
      omega
    · exact ih (by rw [List.length_append]; omega)

theorem FormField.text_eq_ok_iff :
    field.text maximum = .ok text ↔
      field.content.length ≤ maximum ∧ field.aborted = none ∧
        decodeUtf8 field.content = some text := by
  rw [FormField.text, collectText_eq_ok_iff (Nat.zero_le _)]
  rfl

/-- The replay reads every text that the first pass has read, with the same or a larger limit. -/
theorem SameField.limitedText (h : SameField field field') {limit : ℕ} (hle : maximum ≤ limit)
    (htext : field.text maximum = .ok text) :
    ReplayState.limitedText field' limit = .ok text := by
  rw [FormField.text_eq_ok_iff] at htext
  rw [ReplayState.limitedText, mapError_eq_ok, FormField.text_eq_ok_iff, h.content, h.aborted]
  exact ⟨htext.1.trans hle, htext.2⟩

theorem stageChunks_eq_ok {ε : Type} {tooLarge : ε} {aborted : BodyAbort → ε}
    {storage : ℕ → Option ε} {abort : Option BodyAbort} {step total : ℕ}
    {chunks : List (List UInt8)} {digested : List UInt8} {result : ℕ × List UInt8}
    (htot : total ≤ maximum)
    (h : stageChunks maximum tooLarge aborted storage abort step chunks total digested =
      .ok result) :
    abort = none ∧ result = (total + chunks.flatten.length, digested ++ chunks.flatten) ∧
      total + chunks.flatten.length ≤ maximum := by
  induction chunks generalizing step total digested with
  | nil =>
    cases abort with
    | some => simp [stageChunks] at h
    | none =>
      cases hstor : storage step with
      | some => simp [stageChunks, hstor] at h
      | none =>
        simp only [stageChunks, hstor] at h
        cases h
        simpa using htot
  | cons chunk chunks ih =>
    rw [stageChunks, addUploadBytes] at h
    split_ifs at h with hfits
    cases hstor : storage step with
    | some => simp [hstor] at h
    | none =>
      simp only [hstor] at h
      obtain ⟨habort, hres, hle⟩ := ih hfits.2 h
      rw [List.flatten_cons, List.length_append, ← Nat.add_assoc, ← List.append_assoc]
      exact ⟨habort, hres, hle⟩

theorem hashChunks_eq_ok {chunks : List (List UInt8)} {size : ℕ} {digested : List UInt8}
    (h : size + chunks.flatten.length ≤ maximumUploadSize) :
    ReplayState.hashChunks none chunks size digested =
      .ok (size + chunks.flatten.length, digested ++ chunks.flatten) := by
  induction chunks generalizing size digested with
  | nil => simp [ReplayState.hashChunks]
  | cons chunk chunks ih =>
    rw [List.flatten_cons, List.length_append, ← Nat.add_assoc] at h ⊢
    rw [ReplayState.hashChunks, addUploadBytes,
      if_pos ⟨by simp only [maximumUploadSize] at h; omega, by omega⟩]
    dsimp only
    rw [ih h, List.append_assoc]

/-- The replay hashes every file that a first pass has staged within the ceiling. -/
theorem SameField.hashFile (h : SameField field field') {sha256 : List UInt8 → List UInt8}
    {name : Text} (hname : field.fileName = some name) (hsafe : safeAdminFilename name = true)
    (habo : field.aborted = none) (hsize : field.content.length ≤ maximumUploadSize) :
    ReplayState.hashFile sha256 field' =
      .ok (name, field.content.length, hexLower (sha256 field.content)) := by
  have hchunks : ReplayState.hashChunks none field'.chunks 0 [] =
      .ok (field.content.length, field.content) := by
    rw [← h.content] at hsize ⊢
    have hall : 0 + field'.chunks.flatten.length ≤ maximumUploadSize := by
      rwa [Nat.zero_add]
    rw [hashChunks_eq_ok hall, Nat.zero_add, List.nil_append]
    rfl
  rw [ReplayState.hashFile, h.fileName, hname, h.aborted, habo]
  simp only [hsafe, hchunks]
  rfl

end Fields

section Values

variable {fields : List UploadPrefixField} {form : MultipartForm}

/-- The texts of one kind that a form holds. -/
def submittedValues (prefixKind : UploadPrefixKind) (formKind : UploadFormField)
    (fields : List UploadPrefixField) (form : MultipartForm) : List Text :=
  (fields.filter (·.kind = prefixKind)).map UploadPrefixField.value ++
    (form.fields.filter (·.kind = formKind)).filterMap fun field => decodeUtf8 field.content

def submittedPaths := submittedValues .path .path

def submittedFolders := submittedValues .folderPath .folderPath

/-- The folder path does not name the upload directory itself, unless that is the root. -/
def FolderProper (fields : List UploadPrefixField) (form : MultipartForm) : Prop :=
  ∀ folder ∈ submittedFolders fields form, ∀ path ∈ submittedPaths fields form,
    validateRelative folder = some [] → validateRelative path = some []

/-- What one of the texts stands for. -/
def Offered (values : List Text) (path : Text) : Prop :=
  ∃ value ∈ values, normalizedPath value = some path

theorem offered_of_prefixField {field : UploadPrefixField} {prefixKind : UploadPrefixKind}
    {formKind : UploadFormField} {path : Text} (hmem : field ∈ fields)
    (hkind : field.kind = prefixKind) (hpath : normalizedPath field.value = some path) :
    Offered (submittedValues prefixKind formKind fields form) path := by
  refine ⟨field.value, List.mem_append_left _ (List.mem_map_of_mem ?_), hpath⟩
  exact List.mem_filter.mpr ⟨hmem, by simpa using hkind⟩

theorem offered_of_field {field : FormField} {prefixKind : UploadPrefixKind}
    {formKind : UploadFormField} {path value : Text} {maximum : ℕ} (hmem : field ∈ form.fields)
    (hkind : field.kind = formKind) (htext : field.text maximum = .ok value)
    (hpath : normalizedPath value = some path) :
    Offered (submittedValues prefixKind formKind fields form) path := by
  have hdecoded := (FormField.text_eq_ok_iff.mp htext).2.2
  refine ⟨value, List.mem_append_right _ (List.mem_filterMap.mpr ⟨field, ?_, hdecoded⟩), hpath⟩
  exact List.mem_filter.mpr ⟨hmem, by simpa using hkind⟩

/-- Only the root is rendered as the empty text. -/
theorem normalizedPath_eq_nil_iff {value : Text} :
    normalizedPath value = some [] ↔ validateRelative value = some [] := by
  rw [normalizedPath, Option.map_eq_some_iff]
  constructor
  · rintro ⟨components, hvalid, hnil⟩
    have hplain := PlainComponent.of_validateRelative hvalid
    cases components with
    | nil => exact hvalid
    | cons first rest =>
      have hfirst := (hplain first List.mem_cons_self).nonempty
      cases rest with
      | nil => exact absurd (by simpa using hnil) hfirst
      | cons => simp [List.intercalate_cons_cons] at hnil
  · exact fun hvalid => ⟨[], hvalid, rfl⟩

/-- A form holds the text in a field of the prefix or in one behind it. -/
theorem mem_submittedValues {prefixKind : UploadPrefixKind} {formKind : UploadFormField}
    {value : Text} : value ∈ submittedValues prefixKind formKind fields form ↔
      (∃ field ∈ fields, field.kind = prefixKind ∧ field.value = value) ∨
        ∃ field ∈ form.fields, field.kind = formKind ∧ decodeUtf8 field.content = some value := by
  simp [submittedValues, and_assoc]

/-- Joined with an empty folder, only the root is itself. -/
theorem joinDisplay_nil_eq_iff {base : Text} : joinDisplay base [] = base ↔ base = [] := by
  unfold joinDisplay
  split_ifs with hroot
  · exact eq_comm
  · refine ⟨fun heq => ?_, fun heq => absurd heq (by simp_all)⟩
    simpa using congrArg List.length heq

end Values

section Reader

/-- The field of a form that submits what a prefix field submits. -/
def UploadPrefixKind.formKind : UploadPrefixKind → UploadFormField
  | .id => .uploadId
  | .path => .path
  | .folderPath => .folderPath
  | .overwrite => .overwrite
  | .csrf => .csrf

/-- How long the reader lets the text of the field be. -/
def UploadPrefixKind.limit : UploadPrefixKind → ℕ
  | .id => 64
  | .path | .folderPath => maxUploadPathFieldBytes
  | .overwrite => maxUploadOptionFieldBytes
  | .csrf => 512

/-- What the reader makes of the text of one field. -/
inductive ReplayState.Accepts (expectedId : Text) (kind : ReplayKind) (value : Text)
    (state : ReplayState) : UploadPrefixKind → ReplayState → Prop
  | id (hseen : state.idSeen = false) (hval : value = expectedId) :
      Accepts expectedId kind value state .id { state with idSeen := true }
  | path {base : Text} (hseen : state.base.isSome = false)
      (hval : kind.normalizePath value = some base) :
      Accepts expectedId kind value state .path { state with base := some base }
  | folderPath {folder : Text} (hseen : state.folder.isSome = false)
      (hval : normalizedPath value = some folder) :
      Accepts expectedId kind value state .folderPath { state with folder := some folder }
  | overwrite (hseen : state.overwrite.isSome = false) :
      Accepts expectedId kind value state .overwrite (state.setOverwrite value)
  | csrf (hseen : state.csrfSeen = false)
      (hval : ∀ expected, kind.expectedCsrf = some expected → expected = value) :
      Accepts expectedId kind value state .csrf { state with csrfSeen := true }

variable {expectedId value : Text} {kind : ReplayKind} {state counted state' : ReplayState}
  {prefixKind : UploadPrefixKind}

theorem ReplayState.setCsrf_eq_ok
    (hval : ∀ expected, kind.expectedCsrf = some expected → expected = value) :
    state.setCsrf kind value = .ok { state with csrfSeen := true } := by
  rw [ReplayState.setCsrf, if_neg]
  cases hcsrf : kind.expectedCsrf with
  | none => simp
  | some expected => simp [hval expected hcsrf]

theorem prefixField_of_accepts {field : UploadPrefixField} (hkind : field.kind = prefixKind)
    (hcount : state.count = .ok counted)
    (h : counted.Accepts expectedId kind field.value prefixKind state') :
    state.prefixField expectedId kind field = .ok state' := by
  refine except_bind_eq_ok.mpr ⟨counted, hcount, ?_⟩
  rw [hkind]
  cases h with
  | id hseen hval => simp [hseen, ReplayState.setId, hval]
  | path hseen hval => simp [hseen, ReplayState.setBase, hval]
  | folderPath hseen hval => simp [hseen, ReplayState.setFolder, hval]
  | overwrite hseen => simp [hseen]
  | csrf hseen hval => simp [hseen, ReplayState.setCsrf_eq_ok hval]

/-- Only the option of a public form may come after the file. -/
theorem formField_of_accepts {sha256 : List UInt8 → List UInt8} {field : FormField}
    (hkind : field.kind = prefixKind.formKind) (hcount : state.count = .ok counted)
    (hfile : counted.file.isSome = false ∨ prefixKind = .overwrite ∧ kind.isAdmin = false)
    (htext : ReplayState.limitedText field prefixKind.limit = .ok value)
    (h : counted.Accepts expectedId kind value prefixKind state') :
    state.formField sha256 expectedId kind field = .ok state' := by
  refine except_bind_eq_ok.mpr ⟨counted, hcount, ?_⟩
  rw [hkind]
  have hbind : ∀ f : Text → Except String ReplayState, f value = .ok state' →
      (ReplayState.limitedText field prefixKind.limit >>= f) = .ok state' :=
    fun f hf => except_bind_eq_ok.mpr ⟨value, htext, hf⟩
  cases h with
  | id hseen hval =>
    refine (if_neg ?_).trans (hbind _ ?_)
    · simpa [hseen] using hfile
    · simp [ReplayState.setId, hval]
  | path hseen hval =>
    refine (if_neg ?_).trans (hbind _ ?_)
    · simpa [hseen] using hfile
    · simp [ReplayState.setBase, hval]
  | folderPath hseen hval =>
    refine (if_neg ?_).trans (hbind _ ?_)
    · simpa [hseen] using hfile
    · simp [ReplayState.setFolder, hval]
  | overwrite hseen =>
    refine (if_neg (by simp [hseen])).trans ((if_neg ?_).trans (hbind _ rfl))
    rcases hfile with hfile | ⟨-, hpublic⟩
    · simp [hfile]
    · simp [hpublic]
  | csrf hseen hval =>
    refine (if_neg ?_).trans (hbind _ (ReplayState.setCsrf_eq_ok hval))
    simpa [hseen] using hfile

end Reader

section Admin

variable (context : AdminUploadContext) (fields : List UploadPrefixField) (form : MultipartForm)

/-- What the parser makes of the text of one field. -/
inductive AdminUploadParser.Accepts (value : Text) (parser : AdminUploadParser) :
    UploadPrefixKind → AdminUploadParser → Prop
  | id (hseen : parser.idSeen = false) (hval : value = context.uploadId) :
      Accepts value parser .id { parser with idSeen := true }
  | path {path : Text} (hseen : parser.directory.isSome = false)
      (hval : normalizedPath value = some path) :
      Accepts value parser .path { parser with directory := some path }
  | folderPath {path : Text} (hseen : parser.folderPath.isSome = false)
      (hval : normalizedPath value = some path) :
      Accepts value parser .folderPath { parser with folderPath := some path }
  | overwrite (hseen : parser.sawOverwrite = false) : Accepts value parser .overwrite
      { parser with sawOverwrite := true, overwriteExisting := value = ['1'] }
  | csrf (hseen : parser.csrfSeen = false) (hval : context.csrfToken = value) :
      Accepts value parser .csrf { parser with csrfSeen := true }

/-- What the reader remembers of what the parser has accepted. -/
structure AdminAgrees (parser : AdminUploadParser) (state : ReplayState) : Prop where
  base : state.base = parser.directory
  folder : state.folder = parser.folderPath
  overwriteSeen : state.overwrite.isSome = parser.sawOverwrite
  overwrite : state.overwrite.getD false = parser.overwriteExisting
  csrf : state.csrfSeen = parser.csrfSeen
  id : state.idSeen = parser.idSeen
  count : state.fields = parser.fieldsSeen
  file : state.file = parser.staged.map fun upload =>
    (upload.name, upload.total, upload.contentSha256)
  basePath : ∀ base, parser.directory = some base → Offered (submittedPaths fields form) base
  folderPath : ∀ folder, parser.folderPath = some folder →
    Offered (submittedFolders fields form) folder
  staged : ∀ upload, parser.staged = some upload → parser.csrfSeen = true ∧
    upload.overwriteExisting = parser.overwriteExisting ∧
    ∃ base, parser.directory = some base ∧ upload.directory =
      if (parser.folderPath.getD []).isEmpty then base
      else joinDisplay base (parser.folderPath.getD [])

theorem adminAgrees_new : AdminAgrees fields form .new .new :=
  ⟨rfl, rfl, rfl, rfl, rfl, rfl, rfl, rfl, nofun, nofun, nofun⟩

variable {context fields form} {parser parser' : AdminUploadParser} {state : ReplayState}
variable {field field' : FormField} {value : Text}

section Parser

open AdminUploadParser

theorem AdminUploadParser.setOverwrite_accepts (hseen : parser.sawOverwrite = false)
    (hok : parser.setOverwrite context value = .ok parser') :
    parser.Accepts context value .overwrite parser' := by
  rw [setOverwrite] at hok
  split_ifs at hok
  cases hok
  exact .overwrite hseen

theorem AdminUploadParser.setCsrf_accepts (hseen : parser.csrfSeen = false)
    (hok : parser.setCsrf context value = .ok parser') :
    parser.Accepts context value .csrf parser' := by
  rw [setCsrf] at hok
  split_ifs at hok with hval
  cases hok
  exact .csrf hseen hval

theorem AdminUploadParser.handlePrefix_accepts {field : UploadPrefixField}
    (hok : parser.handlePrefix context field = .ok parser') :
    parser.Accepts context field.value field.kind parser' := by
  rw [handlePrefix] at hok
  cases hkind : field.kind with simp only [hkind] at hok
  | id =>
    split_ifs at hok with hid
    cases hok
    simp only [Bool.or_eq_true, decide_eq_true_eq, not_or, not_not, Bool.not_eq_true] at hid
    exact .id hid.1 hid.2
  | path =>
    cases hpath : normalizedPath field.value with
    | none => simp [hpath] at hok
    | some =>
      simp only [hpath] at hok
      split_ifs at hok with hseen
      cases hok
      exact .path (by simpa using hseen) hpath
  | folderPath =>
    cases hpath : normalizedPath field.value with
    | none => simp [hpath] at hok
    | some =>
      simp only [hpath] at hok
      split_ifs at hok with hseen
      cases hok
      exact .folderPath (by simpa using hseen) hpath
  | overwrite =>
    split_ifs at hok with hseen
    exact setOverwrite_accepts (by simpa using hseen) hok
  | csrf =>
    split_ifs at hok with hseen
    exact setCsrf_accepts (by simpa using hseen) hok

theorem AdminUploadParser.normalizedMultipartPath_eq_ok {message : String} {path : Text}
    (hok : normalizedMultipartPath field message = .ok path) :
    ∃ value, field.text maxUploadPathFieldBytes = .ok value ∧
      normalizedPath value = some path := by
  obtain ⟨value, hval, hok⟩ := except_bind_eq_ok.mp hok
  rw [readText, mapError_eq_ok] at hval
  refine ⟨value, hval, ?_⟩
  cases hpath : normalizedPath value with
  | none => simp [hpath] at hok
  | some => simpa [hpath] using hok

/-- Before the file is staged, a field submits a text or the file. -/
theorem AdminUploadParser.handleField_accepts
    (hok : parser.handleField context field = .ok parser') :
    (∃ prefixKind value, field.kind = prefixKind.formKind ∧ parser.staged.isSome = false ∧
      field.text prefixKind.limit = .ok value ∧ parser.Accepts context value prefixKind parser') ∨
    field.kind = .file ∧ parser.fileField context field = .ok parser' := by
  rw [handleField] at hok
  cases hkind : field.kind with
  | uploadId =>
    simp only [hkind, uploadIdField] at hok
    split_ifs at hok with hseen
    obtain ⟨value, hval, hok⟩ := except_bind_eq_ok.mp hok
    rw [readText, mapError_eq_ok] at hval
    split_ifs at hok with hid
    cases hok
    rw [Bool.not_eq_true, Bool.or_eq_false_iff] at hseen
    exact .inl ⟨.id, value, rfl, hseen.2, hval, .id hseen.1 (not_not.mp hid)⟩
  | path =>
    simp only [hkind, pathField] at hok
    split_ifs at hok with hseen
    obtain ⟨path, hpath, hok⟩ := except_bind_eq_ok.mp hok
    cases hok
    obtain ⟨value, hval, hnormalized⟩ := normalizedMultipartPath_eq_ok hpath
    rw [Bool.not_eq_true, Bool.or_eq_false_iff] at hseen
    exact .inl ⟨.path, value, rfl, hseen.2, hval, .path hseen.1 hnormalized⟩
  | folderPath =>
    simp only [hkind, folderPathField] at hok
    split_ifs at hok with hseen
    obtain ⟨path, hpath, hok⟩ := except_bind_eq_ok.mp hok
    cases hok
    obtain ⟨value, hval, hnormalized⟩ := normalizedMultipartPath_eq_ok hpath
    rw [Bool.not_eq_true, Bool.or_eq_false_iff] at hseen
    exact .inl ⟨.folderPath, value, rfl, hseen.2, hval, .folderPath hseen.1 hnormalized⟩
  | overwrite =>
    simp only [hkind, overwriteField] at hok
    split_ifs at hok with hseen
    obtain ⟨value, hval, hok⟩ := except_bind_eq_ok.mp hok
    rw [readText, mapError_eq_ok] at hval
    rw [Bool.not_eq_true, Bool.or_eq_false_iff] at hseen
    exact .inl ⟨.overwrite, value, rfl, hseen.2, hval, setOverwrite_accepts hseen.1 hok⟩
  | csrf =>
    simp only [hkind, csrfField] at hok
    split_ifs at hok with hseen
    obtain ⟨value, hval, hok⟩ := except_bind_eq_ok.mp hok
    rw [readText, mapError_eq_ok] at hval
    rw [Bool.not_eq_true, Bool.or_eq_false_iff] at hseen
    exact .inl ⟨.csrf, value, rfl, hseen.2, hval, setCsrf_accepts hseen.1 hok⟩
  | file =>
    rw [hkind] at hok
    exact .inr ⟨rfl, hok⟩
  | unknown =>
    rw [hkind] at hok
    cases hok

theorem AdminUploadParser.stageAdminUpload_hashes (hsame : SameField field field')
    {file : Text × ℕ × Text}
    (hok : stageAdminUpload context field = .ok file) :
    ReplayState.hashFile context.sha256 field' = .ok file := by
  rw [stageAdminUpload] at hok
  cases hname : field.fileName with
  | none => simp [hname] at hok
  | some =>
    simp only [hname] at hok
    split_ifs at hok with hsafe hblocked
    cases hstor : context.storage 0 with
    | some => simp [hstor] at hok
    | none =>
      simp only [hstor] at hok
      obtain ⟨⟨total, digested⟩, hstaged, hok⟩ := except_bind_eq_ok.mp hok
      cases hok
      obtain ⟨habo, hres, hle⟩ := stageChunks_eq_ok (Nat.zero_le _) hstaged
      rw [Nat.zero_add] at hle
      rw [Nat.zero_add, List.nil_append] at hres
      cases hres
      exact hsame.hashFile hname (by simpa using hsafe) habo
        (hle.trans context.maxUploadSize_le)

end Parser

/-- The parser has taken the text for what it stands for. -/
def AdminUploadParser.Records (parser : AdminUploadParser) (value : Text) :
    UploadPrefixKind → Prop
  | .path => ∃ path, normalizedPath value = some path ∧ parser.directory = some path
  | .folderPath => ∃ path, normalizedPath value = some path ∧ parser.folderPath = some path
  | _ => True

section Records

variable {prefixKind kind : UploadPrefixKind} {text : Text}

theorem AdminUploadParser.Accepts.records (h : parser.Accepts context value kind parser') :
    parser'.Records value kind := by
  cases h with
  | path _ hval => exact ⟨_, hval, rfl⟩
  | folderPath _ hval => exact ⟨_, hval, rfl⟩
  | _ => trivial

/-- A second path or folder path would not have been accepted. -/
theorem AdminUploadParser.Records.accepts (hrec : parser.Records text prefixKind)
    (h : parser.Accepts context value kind parser') : parser'.Records text prefixKind := by
  cases prefixKind with
  | path =>
    obtain ⟨path, hpath, hdir⟩ := hrec
    cases h with
    | path hseen => simp [hdir] at hseen
    | _ => exact ⟨path, hpath, hdir⟩
  | folderPath =>
    obtain ⟨path, hpath, hfol⟩ := hrec
    cases h with
    | folderPath hseen => simp [hfol] at hseen
    | _ => exact ⟨path, hpath, hfol⟩
  | _ => trivial

theorem AdminUploadParser.Records.congr (hrec : parser.Records text prefixKind)
    (hdir : parser'.directory = parser.directory)
    (hfol : parser'.folderPath = parser.folderPath) : parser'.Records text prefixKind := by
  cases prefixKind with
  | path => rwa [Records, hdir]
  | folderPath => rwa [Records, hfol]
  | _ => trivial

theorem AdminUploadParser.Records.recordField (hrec : parser.Records text prefixKind)
    (hok : parser.recordField = .ok parser') : parser'.Records text prefixKind := by
  rw [AdminUploadParser.recordField] at hok
  split_ifs at hok
  cases hok
  exact hrec.congr rfl rfl

theorem AdminUploadParser.Records.fileField (hrec : parser.Records text prefixKind)
    (hok : parser.fileField context field = .ok parser') : parser'.Records text prefixKind := by
  rw [AdminUploadParser.fileField] at hok
  cases hdir : parser.directory with
  | none =>
    simp only [hdir] at hok
    split_ifs at hok
  | some base =>
    simp only [hdir] at hok
    split_ifs at hok
    all_goals
      obtain ⟨_, _, hok⟩ := except_bind_eq_ok.mp hok
      cases hok
      exact hrec.congr hdir.symm rfl

/-- Whatever path and folder path the form holds, the parser ends up with them. -/
theorem AdminUploadParser.records_of_mem {parser₁ : AdminUploadParser}
    (hstarts : fields.foldlM (fun parser field => do
      (← AdminUploadParser.recordField parser).handlePrefix context field) parser = .ok parser₁)
    (hfields : form.fields.foldlM (fun parser field => do
      (← AdminUploadParser.recordField parser).handleField context field) parser₁ = .ok parser')
    (hmem : text ∈ submittedValues kind kind.formKind fields form) :
    parser'.Records text kind := by
  refine foldlM_establishes (P := fun i parser => parser.Records i.2 i.1)
    (S := fun (field : FormField) (i : UploadPrefixKind × Text) =>
      field.kind = i.1.formKind ∧ decodeUtf8 field.content = some i.2) ?_ ?_ hfields
    (i := (kind, text)) ((mem_submittedValues.mp hmem).imp_left fun hprefix => ?_)
  · rintro parser field ⟨kind, text⟩ parser' hok ⟨hkind, htext⟩
    obtain ⟨counted, -, hok⟩ := except_bind_eq_ok.mp hok
    obtain ⟨kind', value, hkind', -, hval, hacpt⟩ | ⟨hfile, -⟩ := handleField_accepts hok
    · obtain rfl : kind = kind' := by
        cases kind <;> cases kind' <;> simp_all [UploadPrefixKind.formKind]
      cases htext.symm.trans (FormField.text_eq_ok_iff.mp hval).2.2
      exact hacpt.records
    · cases kind <;> simp_all [UploadPrefixKind.formKind]
  · rintro parser field i parser' hok hrec
    obtain ⟨counted, hcounted, hok⟩ := except_bind_eq_ok.mp hok
    obtain ⟨_, _, -, -, -, hacpt⟩ | ⟨-, hfile⟩ := handleField_accepts hok
    · exact (hrec.recordField hcounted).accepts hacpt
    · exact (hrec.recordField hcounted).fileField hfile
  · refine foldlM_establishes (P := fun i parser => parser.Records i.2 i.1)
      (S := fun (field : UploadPrefixField) (i : UploadPrefixKind × Text) =>
        field.kind = i.1 ∧ field.value = i.2) ?_ ?_ hstarts (i := (kind, text)) (.inr hprefix)
    · rintro parser field ⟨_, _⟩ parser' hok ⟨rfl, rfl⟩
      obtain ⟨counted, -, hok⟩ := except_bind_eq_ok.mp hok
      exact (handlePrefix_accepts hok).records
    · rintro parser field i parser' hok hrec
      obtain ⟨counted, hcounted, hok⟩ := except_bind_eq_ok.mp hok
      exact (hrec.recordField hcounted).accepts (handlePrefix_accepts hok)

end Records

namespace AdminAgrees

variable (h : AdminAgrees fields form parser state)

include h

theorem file_isSome : state.file.isSome = parser.staged.isSome := by
  rw [h.file, Option.isSome_map]

theorem recordField (hok : parser.recordField = .ok parser') :
    ∃ state', state.count = .ok state' ∧ AdminAgrees fields form parser' state' ∧
      parser'.staged = parser.staged := by
  rw [AdminUploadParser.recordField] at hok
  split_ifs at hok with hmany
  cases hok
  refine ⟨{ state with fields := state.fields + 1 }, ?_, { h with count := by rw [h.count] }, rfl⟩
  rw [ReplayState.count, if_neg (by rwa [h.count])]

/-- The reader follows the parser until the file is staged. -/
theorem accepts {prefixKind : UploadPrefixKind} (hstaged : parser.staged = none)
    (hoffered : ∀ path, normalizedPath value = some path →
      Offered (submittedValues prefixKind prefixKind.formKind fields form) path)
    (hacpt : parser.Accepts context value prefixKind parser') :
    ∃ state', state.Accepts context.uploadId (.admin context.csrfToken) value prefixKind state' ∧
      AdminAgrees fields form parser' state' ∧ parser'.staged = none := by
  have hnone : ∀ {P : PreparedAdminUpload → Prop} upload, parser.staged = some upload →
      P upload := by simp [hstaged]
  cases hacpt with
  | id hseen hval => exact ⟨_, .id (h.id.trans hseen) hval, { h with id := rfl }, hstaged⟩
  | path hseen hval =>
    exact ⟨_, .path (h.base ▸ hseen) hval, { h with
      base := rfl
      basePath := fun _ heq => by cases heq; exact hoffered _ hval
      staged := hnone }, hstaged⟩
  | folderPath hseen hval =>
    exact ⟨_, .folderPath (h.folder ▸ hseen) hval, { h with
      folder := rfl
      folderPath := fun _ heq => by cases heq; exact hoffered _ hval
      staged := hnone }, hstaged⟩
  | overwrite hseen =>
    exact ⟨_, .overwrite (h.overwriteSeen.trans hseen), { h with
      overwriteSeen := rfl
      overwrite := rfl
      staged := hnone }, hstaged⟩
  | csrf hseen hval =>
    exact ⟨_, .csrf (h.csrf.trans hseen) (by rintro _ ⟨⟩; exact hval), { h with
      csrf := rfl
      staged := hnone }, hstaged⟩

theorem handlePrefix (hstaged : parser.staged = none) {field : UploadPrefixField}
    (hmem : field ∈ fields)
    (hok : (parser.recordField >>= fun parser => parser.handlePrefix context field) =
      .ok parser') :
    ∃ state', state.prefixField context.uploadId (.admin context.csrfToken) field = .ok state' ∧
      AdminAgrees fields form parser' state' ∧ parser'.staged = none := by
  obtain ⟨counted, hcounted, hok⟩ := except_bind_eq_ok.mp hok
  obtain ⟨state₁, hcount, h₁, hsame⟩ := h.recordField hcounted
  obtain ⟨state', hacpt, h'⟩ := h₁.accepts (hsame.trans hstaged)
    (fun _ => offered_of_prefixField hmem rfl) (AdminUploadParser.handlePrefix_accepts hok)
  exact ⟨state', prefixField_of_accepts rfl hcount hacpt, h'⟩

theorem fileField (hsame : SameField field field')
    (hok : parser.fileField context field = .ok parser') :
    ∃ state', state.fileField context.sha256 field' = .ok state' ∧
      AdminAgrees fields form parser' state' := by
  rw [AdminUploadParser.fileField] at hok
  by_cases hseen : parser.staged.isSome
  · simp [hseen] at hok
  rw [if_neg hseen] at hok
  cases hbase : parser.directory with
  | none => simp [hbase] at hok
  | some base =>
    simp only [hbase] at hok
    by_cases hcsrf : !parser.csrfSeen
    · simp [hcsrf] at hok
    rw [if_neg hcsrf] at hok
    obtain ⟨⟨name, total, digest⟩, hstaged, hok⟩ := except_bind_eq_ok.mp hok
    cases hok
    refine ⟨{ state with file := some (name, total, digest) }, ?_, { h with
      base := h.base.trans hbase
      file := rfl
      basePath := fun _ heq => h.basePath _ (hbase.trans heq)
      staged := ?_ }⟩
    · rw [ReplayState.fileField, h.file_isSome, if_neg hseen, except_bind_eq_ok]
      exact ⟨_, AdminUploadParser.stageAdminUpload_hashes hsame hstaged, rfl⟩
    · rintro upload ⟨⟩
      exact ⟨by simpa using hcsrf, rfl, base, rfl, rfl⟩

theorem handleField (hsame : SameField field field') (hmem : field ∈ form.fields)
    (hok : (parser.recordField >>= fun parser => parser.handleField context field) =
      .ok parser') :
    ∃ state', state.formField context.sha256 context.uploadId (.admin context.csrfToken) field' =
      .ok state' ∧ AdminAgrees fields form parser' state' := by
  obtain ⟨counted, hcounted, hok⟩ := except_bind_eq_ok.mp hok
  obtain ⟨state₁, hcount, h₁, -⟩ := h.recordField hcounted
  obtain ⟨prefixKind, value, hkind, hstaged, htext, hacpt⟩ | ⟨hkind, hfile⟩ :=
    AdminUploadParser.handleField_accepts hok
  · obtain ⟨state', hacpt, h', -⟩ := h₁.accepts (by simpa using hstaged)
      (fun _ => offered_of_field hmem hkind htext) hacpt
    refine ⟨state', ?_, h'⟩
    exact formField_of_accepts (hsame.kind.trans hkind) hcount (.inl (h₁.file_isSome.trans hstaged))
      (hsame.limitedText le_rfl htext) hacpt
  · obtain ⟨state', hst, h'⟩ := h₁.fileField hsame hfile
    refine ⟨state', except_bind_eq_ok.mpr ⟨state₁, hcount, ?_⟩, h'⟩
    rw [hsame.kind, hkind]
    exact hst

/-- The condition on a form is one on what the parser has taken from it. -/
theorem folderProper_iff {base : Text} (hbase : parser.directory = some base)
    (hrecords : ∀ kind text, text ∈ submittedValues kind kind.formKind fields form →
      parser.Records text kind) :
    FolderProper fields form ↔ (parser.folderPath = some [] → base = []) := by
  constructor
  · intro hproper hfol
    obtain ⟨path, hpath, hbase⟩ := h.basePath base hbase
    obtain ⟨folder, hfolder, hfol⟩ := h.folderPath [] hfol
    have hroot := hproper folder hfolder path hpath (normalizedPath_eq_nil_iff.mp hfol)
    rw [normalizedPath_eq_nil_iff.mpr hroot, Option.some.injEq] at hbase
    exact hbase.symm
  · intro himp folder hfolder path hpath hfol
    obtain ⟨path', hpath', hdir⟩ := hrecords .path path hpath
    obtain ⟨folder', hfolder', hfol'⟩ := hrecords .folderPath folder hfolder
    rw [normalizedPath_eq_nil_iff.mpr hfol, Option.some.injEq] at hfolder'
    cases hbase.symm.trans hdir
    rw [himp (hfolder' ▸ hfol')] at hpath'
    exact normalizedPath_eq_nil_iff.mp hpath'

/-- What the reader hashes when the parser has accepted the whole form: the same as the parser,
unless an empty folder path follows a directory. -/
theorem metadata {upload : PreparedAdminUpload} (hok : parser.finish = .ok upload) :
    ∃ base, parser.directory = some base ∧ ∃ metadata,
      state.metadata (.admin context.csrfToken) = .ok metadata ∧
      (metadata = upload.metadata ↔ (parser.folderPath = some [] → base = [])) := by
  have hstaged : parser.staged = some upload := by
    rw [AdminUploadParser.finish] at hok
    split at hok
    · cases hok
    · split_ifs at hok
      split at hok
      · cases hok
      · cases hok
        assumption
  obtain ⟨hcsrf, hove, base, hbase, hdir⟩ := h.staged upload hstaged
  have hfile : state.file = some (upload.name, upload.total, upload.contentSha256) := by
    rw [h.file, hstaged]
    rfl
  set joined := parser.folderPath.elim base (joinDisplay base) with hjoined
  refine ⟨base, hbase, PreparedAdminUpload.metadata { upload with directory := joined }, ?_, ?_⟩
  · simp only [ReplayState.metadata, hfile, h.csrf, hcsrf, h.base, hbase, h.overwrite, h.folder,
      PreparedAdminUpload.metadata, hove, hjoined]
    cases parser.folderPath <;> simp
  · have hmet : PreparedAdminUpload.metadata { upload with directory := joined } =
        upload.metadata ↔ joined = upload.directory := by
      refine ⟨fun heq => (PreparedAdminUpload.metadata_inj heq).2.1, fun heq => ?_⟩
      rw [heq]
    rw [hmet, hdir, hjoined]
    cases hfol : parser.folderPath with
    | none => simp
    | some folder =>
      cases folder with
      | nil => simp [joinDisplay_nil_eq_iff]
      | cons => simp

end AdminAgrees

theorem parseAdminUpload_replays {form' : MultipartForm} {upload : PreparedAdminUpload}
    (hsame : SameForm form form') (hok : parseAdminUpload context fields form = .ok upload) :
    ∃ metadata, replayMetadata context.sha256 context.uploadId (.admin context.csrfToken) fields
        form' = .ok metadata ∧ (metadata = upload.metadata ↔ FolderProper fields form) := by
  rw [parseAdminUpload] at hok
  obtain ⟨parser₁, hstarts, hok⟩ := except_bind_eq_ok.mp hok
  obtain ⟨parser₂, hfields, hok⟩ := except_bind_eq_ok.mp hok
  obtain ⟨state₁, hst₁, h₁, hnone⟩ := foldlM_follows
    (R := fun parser state => AdminAgrees fields form parser state ∧ parser.staged = none)
    (S := Eq) (g := ReplayState.prefixField context.uploadId (.admin context.csrfToken))
    (List.forall₂_same.mpr fun _ _ => rfl)
    (fun parser state field _ parser' hmem heq hR hstep => heq ▸
      hR.1.handlePrefix hR.2 hmem hstep) ⟨adminAgrees_new fields form, rfl⟩ hstarts
  obtain ⟨state₂, hst₂, h₂⟩ := foldlM_follows
    (R := fun parser state => AdminAgrees fields form parser state)
    (g := ReplayState.formField context.sha256 context.uploadId (.admin context.csrfToken))
    hsame.fields (fun parser state field field' parser' hmem hfield hR hstep =>
      hR.handleField hfield hmem hstep) h₁ hfields
  cases habo : form.aborted with
  | some => simp [habo] at hok
  | none =>
    simp only [habo] at hok
    obtain ⟨base, hbase, metadata, hmet, hiff⟩ := h₂.metadata hok
    refine ⟨metadata, ?_, hiff.trans (h₂.folderProper_iff hbase fun _ _ =>
      AdminUploadParser.records_of_mem hstarts hfields).symm⟩
    rw [replayMetadata, except_bind_eq_ok]
    refine ⟨state₁, hst₁, except_bind_eq_ok.mpr ⟨state₂, hst₂, ?_⟩⟩
    rw [hsame.aborted, habo, if_neg (by simp)]
    exact hmet

end Admin

section Public

open PublicUploadParser

variable (context : PublicUploadContext)

/-- How a public upload is replayed. -/
def PublicUploadContext.replayKind : ReplayKind :=
  .publicShare context.share.permission context.requiredCsrf context.csrfHeaderValid

/-- What the reader remembers of what the parser has accepted. The parser forgets the upload
directory when it has staged the file, which then holds it. -/
structure PublicAgrees (parser : PublicUploadParser) (state : ReplayState) : Prop where
  baseSeen : state.base.isSome = parser.formState.sawPath
  folderSeen : state.folder.isSome = parser.formState.sawFolderPath
  folder : state.folder = parser.folderPath
  overwriteSeen : state.overwrite.isSome = parser.formState.sawOverwrite
  overwrite : state.overwrite.getD false = parser.overwriteRequested
  csrfSeen : state.csrfSeen = parser.formState.sawCsrf
  csrf : parser.csrfValidated =
    (context.requiredCsrf.isNone || context.csrfHeaderValid || state.csrfSeen)
  id : state.idSeen = parser.formState.sawUploadId
  fileSeen : state.file.isSome = parser.formState.sawFile
  file : state.file = parser.stagedUpload.map fun upload =>
    (upload.fileName, upload.total, upload.contentSha256)
  count : state.fields = parser.formState.fieldsSeen
  few : state.fields ≤ maxMultipartFields
  base : parser.stagedUpload = none → parser.uploadSubdir = state.base.getD []
  staged : ∀ upload, parser.stagedUpload = some upload → parser.csrfValidated = true ∧
    upload.uploadBase = state.base.getD [] ∧ upload.folderPath = state.folder.getD [] ∧
    upload.uploadSubdir = joinDisplay upload.uploadBase upload.folderPath

theorem publicAgrees_new : PublicAgrees context (.new context) .new :=
  ⟨rfl, rfl, rfl, rfl, rfl, rfl, by simp [new, ReplayState.new], rfl, rfl, rfl,
    rfl, Nat.zero_le _, fun _ => rfl, nofun⟩

variable {context} {parser parser' : PublicUploadParser} {state : ReplayState}
variable {formState : UploadFormState} {value : Text}

/-- The reader after it has counted one more field. -/
def ReplayState.counted (state : ReplayState) : ReplayState :=
  { state with fields := state.fields + 1 }

section Parser

/-- What the parser does with the text of a field it has observed. -/
def PublicUploadParser.submit (context : PublicUploadContext) (parser : PublicUploadParser)
    (value : Text) : UploadPrefixKind → Except UploadPhaseError PublicUploadParser
  | .id => parser.checkUploadId context value
  | .path => parser.setPath context value
  | .folderPath => parser.setFolder value
  | .overwrite => parser.setOverwrite context value
  | .csrf => parser.setCsrf context value

theorem PublicUploadParser.observeField_eq_ok {field : UploadFormField}
    (hok : parser.observeField field = .ok parser') :
    ∃ formState, parser.formState.observe field maxMultipartFields = .ok formState ∧
      parser' = { parser with formState } := by
  rw [observeField] at hok
  cases hst : parser.formState.observe field maxMultipartFields with
  | error => simp [hst, rejection] at hok
  | ok formState => exact ⟨formState, rfl, by simpa [hst, eq_comm] using hok⟩

theorem PublicUploadParser.handlePrefix_eq_ok {field : UploadPrefixField}
    (hok : parser.handlePrefix context field = .ok parser') :
    ∃ formState, parser.formState.observe field.kind.formKind maxMultipartFields = .ok formState ∧
      submit context { parser with formState } field.value field.kind = .ok parser' := by
  have hsubmit : ∃ observed, parser.observeField field.kind.formKind = .ok observed ∧
      observed.submit context field.value field.kind = .ok parser' := by
    rw [handlePrefix] at hok
    cases hkind : field.kind with
    | csrf =>
      simp only [hkind] at hok
      obtain ⟨observed, hobs, hok⟩ := except_bind_eq_ok.mp hok
      simp only [rejection] at hok
      split_ifs at hok
      exact ⟨observed, hobs, hok⟩
    | _ =>
      rw [hkind] at hok
      exact except_bind_eq_ok.mp hok
  obtain ⟨observed, hobs, hok⟩ := hsubmit
  obtain ⟨formState, hst, rfl⟩ := observeField_eq_ok hobs
  exact ⟨formState, hst, hok⟩

/-- A field submits a text within the reader's limit, or the file. -/
theorem PublicUploadParser.handleField_eq_ok {field field' : FormField}
    (hsame : SameField field field') (hok : parser.handleField context field = .ok parser') :
    ∃ formState, parser.formState.observe field.kind maxMultipartFields = .ok formState ∧
      ((∃ prefixKind value, field.kind = prefixKind.formKind ∧
        ReplayState.limitedText field' prefixKind.limit = .ok value ∧
        submit context { parser with formState } value prefixKind = .ok parser') ∨
      field.kind = .file ∧
        handleFile context { parser with formState } field = .ok parser') := by
  obtain ⟨observed, hobs, hok⟩ := except_bind_eq_ok.mp hok
  obtain ⟨formState, hst, rfl⟩ := observeField_eq_ok hobs
  refine ⟨formState, hst, ?_⟩
  have htext : ∀ {maximum limit status : ℕ} {message : String}, maximum ≤ limit →
      ∀ value, readText { parser with formState } field maximum status
        message = .ok value → ReplayState.limitedText field' limit = .ok value := by
    intro maximum limit status message hle value hread
    rw [readText, mapError_eq_ok] at hread
    exact hsame.limitedText hle hread
  cases hkind : field.kind with
  | uploadId =>
    simp only [hkind] at hok
    obtain ⟨value, hread, hok⟩ := except_bind_eq_ok.mp hok
    exact .inl ⟨.id, value, rfl, htext le_rfl value hread, hok⟩
  | path =>
    simp only [hkind] at hok
    obtain ⟨value, hread, hok⟩ := except_bind_eq_ok.mp hok
    exact .inl ⟨.path, value, rfl, htext le_rfl value hread, hok⟩
  | folderPath =>
    simp only [hkind] at hok
    obtain ⟨value, hread, hok⟩ := except_bind_eq_ok.mp hok
    exact .inl ⟨.folderPath, value, rfl, htext le_rfl value hread, hok⟩
  | overwrite =>
    simp only [hkind] at hok
    obtain ⟨value, hread, hok⟩ := except_bind_eq_ok.mp hok
    exact .inl ⟨.overwrite, value, rfl, htext le_rfl value hread, hok⟩
  | csrf =>
    simp only [hkind] at hok
    obtain ⟨value, hread, hok⟩ := except_bind_eq_ok.mp hok
    exact .inl ⟨.csrf, value, rfl, htext (by decide) value hread, hok⟩
  | file =>
    simp only [hkind] at hok
    exact .inr ⟨rfl, hok⟩
  | unknown => simp [hkind, rejection] at hok

theorem normalizedPath_of_setFolderPath {folder : Text} (h : setFolderPath value = some folder) :
    normalizedPath value = some folder := by
  rw [setFolderPath] at h
  cases hvalid : validateRelative value with
  | none => simp [hvalid] at h
  | some =>
    simp only [hvalid] at h
    split_ifs at h
    rw [normalizedPath, hvalid]
    exact h

end Parser

namespace PublicAgrees

variable (h : PublicAgrees context parser state)

include h

theorem stagedUpload_eq_none (hfile : parser.formState.sawFile = false) :
    parser.stagedUpload = none := by
  rw [← h.fileSeen, h.file, Option.isSome_map] at hfile
  simpa using hfile

/-- What the parser counts, the reader counts too. -/
theorem observe {field : UploadFormField}
    (hok : parser.formState.observe field maxMultipartFields = .ok formState) :
    state.count = .ok state.counted ∧ state.counted.fields ≤ maxMultipartFields ∧
      saturatingAddU64 parser.formState.fieldsSeen 1 = state.counted.fields := by
  have hfew := h.few
  have hsum : saturatingAddU64 parser.formState.fieldsSeen 1 = state.fields + 1 := by
    rw [saturatingAddU64, ← h.count]
    simp only [maxMultipartFields] at hfew
    omega
  simp only [UploadFormState.observe, hsum] at hok
  by_cases hmany : maxMultipartFields < state.fields + 1
  · simp [hmany] at hok
  · refine ⟨?_, not_lt.mp hmany, hsum⟩
    rw [ReplayState.count, if_neg hmany]
    rfl

/-- The reader follows the parser in every text. The option may come after the file, in both
passes. -/
theorem submit {prefixKind : UploadPrefixKind}
    (hst : parser.formState.observe prefixKind.formKind maxMultipartFields = .ok formState)
    (hok : submit context { parser with formState } value prefixKind = .ok parser') :
    (state.file.isSome = false ∨ prefixKind = .overwrite) ∧
      ∃ state', state.counted.Accepts context.uploadId context.replayKind value prefixKind state' ∧
        PublicAgrees context parser' state' := by
  obtain ⟨-, hfew, hsum⟩ := h.observe hst
  cases prefixKind with (
    simp only [UploadPrefixKind.formKind, UploadFormState.observe, hsum] at hst
    split_ifs at hst with hmany hseen
    cases hst)
  | id =>
    rw [Bool.not_eq_true, ← h.id, ← h.fileSeen, Bool.or_eq_false_iff] at hseen
    simp only [submit, checkUploadId, rejection] at hok
    split_ifs at hok with hval
    cases hok
    exact ⟨.inl hseen.2, _, .id hseen.1 (not_not.mp hval),
      { h with id := rfl, count := rfl, few := hfew }⟩
  | path =>
    rw [Bool.not_eq_true, ← h.baseSeen, Bool.or_eq_false_iff] at hseen
    simp only [submit, setPath, rejection] at hok
    split at hok <;> cases hok
    have hnone := h.stagedUpload_eq_none hseen.2
    exact ⟨.inl (h.fileSeen.trans hseen.2), _, .path hseen.1 (by assumption), { h with
      baseSeen := rfl, count := rfl, few := hfew, base := fun _ => rfl
      staged := by simp [hnone] }⟩
  | folderPath =>
    rw [Bool.not_eq_true, ← h.folderSeen, Bool.or_eq_false_iff] at hseen
    simp only [submit, setFolder, rejection] at hok
    split at hok <;> cases hok
    rename_i hval
    have hnone := h.stagedUpload_eq_none hseen.2
    exact ⟨.inl (h.fileSeen.trans hseen.2), _,
      .folderPath hseen.1 (normalizedPath_of_setFolderPath hval), { h with
        folderSeen := rfl, folder := rfl, count := rfl, few := hfew
        staged := by simp [hnone] }⟩
  | overwrite =>
    rw [Bool.not_eq_true, ← h.overwriteSeen] at hseen
    simp only [submit, setOverwrite, rejection] at hok
    split_ifs at hok
    cases hok
    exact ⟨.inr rfl, _, .overwrite hseen,
      { h with overwriteSeen := rfl, overwrite := rfl, count := rfl, few := hfew }⟩
  | csrf =>
    rw [Bool.not_eq_true, ← h.csrfSeen, ← h.fileSeen, Bool.or_eq_false_iff] at hseen
    simp only [submit, setCsrf, rejection] at hok
    split_ifs at hok with hval
    cases hok
    have hexp : ∀ expected, context.replayKind.expectedCsrf = some expected →
        expected = value := by
      intro expected hexp
      have hcsrf : context.requiredCsrf = some expected := hexp
      simpa [hcsrf] using hval
    exact ⟨.inl hseen.2, _, .csrf hseen.1 hexp, { h with
      csrfSeen := rfl, csrf := by simp, count := rfl, few := hfew
      staged := fun upload hupload => ⟨rfl, (h.staged upload hupload).2⟩ }⟩

theorem handlePrefix {field : UploadPrefixField}
    (hok : parser.handlePrefix context field = .ok parser') :
    ∃ state', state.prefixField context.uploadId context.replayKind field = .ok state' ∧
      PublicAgrees context parser' state' := by
  obtain ⟨formState, hst, hok⟩ := handlePrefix_eq_ok hok
  obtain ⟨-, state', hacpt, h'⟩ := h.submit hst hok
  exact ⟨state', prefixField_of_accepts rfl (h.observe hst).1 hacpt, h'⟩

omit h

section FormFields

variable {field field' : FormField} (hsame : SameField field field')

include hsame

/-- The file is staged with the directory and the folder that the reader remembers. -/
theorem handleFile (h : PublicAgrees context parser state)
    (hst : parser.formState.observe .file maxMultipartFields = .ok formState)
    (hok : handleFile context { parser with formState } field = .ok parser') :
    ∃ state', state.counted.fileField context.sha256 field' = .ok state' ∧
      PublicAgrees context parser' state' := by
  obtain ⟨-, hfew, hsum⟩ := h.observe hst
  simp only [UploadFormState.observe, hsum] at hst
  split_ifs at hst with hmany hseen
  cases hst
  have hnone := h.stagedUpload_eq_none (by simpa using hseen)
  simp only [handleFile, rejection] at hok
  by_cases hcsrf : !parser.csrfValidated
  · simp [hcsrf] at hok
  rw [if_neg hcsrf] at hok
  cases hname : field.fileName with
  | none => simp [hname] at hok
  | some name =>
    simp only [hname] at hok
    split_ifs at hok with hsafe hblocked
    obtain ⟨target, htarget, hok⟩ := except_bind_eq_ok.mp hok
    cases hstor : context.storage 0 with
    | some => simp [hstor] at hok
    | none =>
      simp only [hstor] at hok
      obtain ⟨⟨total, digested⟩, hstaged, hok⟩ := except_bind_eq_ok.mp hok
      obtain ⟨habo, hres, hle⟩ := stageChunks_eq_ok (Nat.zero_le _) hstaged
      rw [Nat.zero_add] at hle
      rw [Nat.zero_add, List.nil_append] at hres
      cases hres
      cases hok
      simp only [boundTarget, rejection] at htarget
      split_ifs at htarget
      cases htarget
      have hfile : ReplayState.hashFile context.sha256 field' = .ok _ :=
        hsame.hashFile hname (by simpa using hsafe) habo (hle.trans (min_le_right _ _))
      refine ⟨{ state.counted with file := some (name, field.content.length,
        hexLower (context.sha256 field.content)) }, ?_, { h with
          fileSeen := rfl, file := rfl, count := rfl, few := hfew, base := nofun, staged := ?_ }⟩
      · rw [ReplayState.fileField, if_neg, except_bind_eq_ok]
        · exact ⟨_, hfile, rfl⟩
        · rwa [← h.fileSeen] at hseen
      · rintro upload ⟨⟩
        refine ⟨by simpa using hcsrf, h.base hnone, ?_, rfl⟩
        show parser.folderPath.getD [] = state.folder.getD []
        rw [h.folder]

theorem handleField (h : PublicAgrees context parser state)
    (hok : parser.handleField context field = .ok parser') :
    ∃ state', state.formField context.sha256 context.uploadId context.replayKind field' =
      .ok state' ∧ PublicAgrees context parser' state' := by
  obtain ⟨formState, hst, ⟨prefixKind, value, hkind, htext, hok⟩ | ⟨hkind, hok⟩⟩ :=
    handleField_eq_ok hsame hok
  · obtain ⟨hfile, state', hacpt, h'⟩ := h.submit (hkind ▸ hst) hok
    exact ⟨state', formField_of_accepts (hsame.kind.trans hkind) (h.observe hst).1
      (hfile.imp_right fun hlate => ⟨hlate, rfl⟩) htext hacpt, h'⟩
  · obtain ⟨state', hfile, h'⟩ := h.handleFile hsame (hkind ▸ hst) hok
    refine ⟨state', except_bind_eq_ok.mpr ⟨_, (h.observe hst).1, ?_⟩, h'⟩
    rw [hsame.kind, hkind]
    exact hfile

end FormFields

theorem metadata (h : PublicAgrees context parser state) {upload : PreparedPublicForm}
    (hok : parser.finish = .ok upload) :
    state.metadata context.replayKind = .ok upload.metadata ∧
      upload.uploadSubdir = joinDisplay upload.uploadBase upload.folderPath := by
  simp only [finish, rejection] at hok
  cases hstaged : parser.stagedUpload with
  | none => simp [hstaged] at hok
  | some staged =>
    simp only [hstaged] at hok
    cases hok
    obtain ⟨hcsrf, hbase, hfol, hsubdir⟩ := h.staged staged hstaged
    have hfile : state.file = some (staged.fileName, staged.total, staged.contentSha256) := by
      rw [h.file, hstaged]
      rfl
    have hproof : (context.requiredCsrf.isSome && !state.csrfSeen && !context.csrfHeaderValid) =
        false := by
      rw [h.csrf] at hcsrf
      cases hreq : context.requiredCsrf <;> cases hseen : state.csrfSeen <;>
        cases hvalid : context.csrfHeaderValid <;> simp_all
    refine ⟨?_, hsubdir⟩
    simp [ReplayState.metadata, hfile, PublicUploadContext.replayKind, hproof,
      PreparedPublicForm.metadata, hbase, hfol, h.overwrite]

end PublicAgrees

theorem parsePublicUpload_replays {fields : List UploadPrefixField} {form form' : MultipartForm}
    {upload : PreparedPublicForm} (hsame : SameForm form form')
    (hok : parsePublicUpload context fields form = .ok upload) :
    replayMetadata context.sha256 context.uploadId context.replayKind fields form' =
      .ok upload.metadata ∧
      upload.uploadSubdir = joinDisplay upload.uploadBase upload.folderPath := by
  rw [parsePublicUpload] at hok
  obtain ⟨parser₁, hstarts, hok⟩ := except_bind_eq_ok.mp hok
  obtain ⟨parser₂, hfields, hok⟩ := except_bind_eq_ok.mp hok
  obtain ⟨state₁, hst₁, h₁⟩ := foldlM_follows (R := PublicAgrees context) (S := Eq)
    (g := ReplayState.prefixField context.uploadId context.replayKind)
    (List.forall₂_same.mpr fun _ _ => rfl)
    (fun parser state field _ parser' _ heq hR hstep => heq ▸ hR.handlePrefix hstep)
    (publicAgrees_new context) hstarts
  obtain ⟨state₂, hst₂, h₂⟩ := foldlM_follows (R := PublicAgrees context)
    (g := ReplayState.formField context.sha256 context.uploadId context.replayKind) hsame.fields
    (fun parser state field field' parser' _ hfield hR hstep => hR.handleField hfield hstep)
    h₁ hfields
  cases habo : form.aborted with
  | some => simp [habo] at hok
  | none =>
    simp only [habo] at hok
    obtain ⟨hmet, hsubdir⟩ := h₂.metadata hok
    refine ⟨?_, hsubdir⟩
    rw [replayMetadata, except_bind_eq_ok]
    refine ⟨state₁, hst₁, except_bind_eq_ok.mpr ⟨state₂, hst₂, ?_⟩⟩
    rw [hsame.aborted, habo, if_neg (by simp)]
    exact hmet

end Public

section Main

/-- When a first pass accepts a form, the replay of the same form gives its fingerprint: for
every public upload, and for every administrator upload whose folder path does not name the
upload directory itself. And uploads that differ in the file name, the directory, the option,
the size or the digest of the content have different bytes fingerprinted. -/
theorem replay_repeats_fingerprint (fields : List UploadPrefixField)
    (form form' : MultipartForm) :
    (∀ (context : AdminUploadContext) (upload : PreparedAdminUpload), SameForm form form' →
      parseAdminUpload context fields form = .ok upload →
      ∃ metadata, replayMetadata context.sha256 context.uploadId (.admin context.csrfToken) fields
          form' = .ok metadata ∧
        replayFingerprint context.sha256 context.uploadId (.admin context.csrfToken) fields form' =
          .ok (hexLower (context.sha256 metadata)) ∧
        (FolderProper fields form ↔ metadata = upload.metadata) ∧
        (FolderProper fields form →
          replayFingerprint context.sha256 context.uploadId (.admin context.csrfToken) fields
            form' = .ok (upload.fingerprint context.sha256))) ∧
    (∀ (context : PublicUploadContext) (upload : PreparedPublicForm), SameForm form form' →
      parsePublicUpload context fields form = .ok upload →
      replayFingerprint context.sha256 context.uploadId (.publicShare context.share.permission
        context.requiredCsrf context.csrfHeaderValid) fields form' =
        .ok (upload.fingerprint context.sha256)) ∧
    (∀ (context context' : AdminUploadContext) (fields' : List UploadPrefixField)
      (upload upload' : PreparedAdminUpload),
      parseAdminUpload context fields form = .ok upload →
      parseAdminUpload context' fields' form' = .ok upload' →
      (upload.name, upload.directory, upload.overwriteExisting, upload.total,
        upload.contentSha256) ≠ (upload'.name, upload'.directory, upload'.overwriteExisting,
        upload'.total, upload'.contentSha256) →
      upload.metadata ≠ upload'.metadata) ∧
    (∀ (context context' : PublicUploadContext) (fields' : List UploadPrefixField)
      (upload upload' : PreparedPublicForm),
      parsePublicUpload context fields form = .ok upload →
      parsePublicUpload context' fields' form' = .ok upload' →
      (upload.fileName, upload.uploadSubdir, upload.overwriteRequested, upload.total,
        upload.contentSha256) ≠ (upload'.fileName, upload'.uploadSubdir,
        upload'.overwriteRequested, upload'.total, upload'.contentSha256) →
      upload.metadata ≠ upload'.metadata) := by
  refine ⟨?_, ?_, ?_, ?_⟩
  · intro context upload hsame hok
    obtain ⟨metadata, hmet, hiff⟩ := parseAdminUpload_replays hsame hok
    have hreplay : replayFingerprint context.sha256 context.uploadId (.admin context.csrfToken)
        fields form' = .ok (hexLower (context.sha256 metadata)) := by
      rw [replayFingerprint, hmet]
      rfl
    refine ⟨metadata, hmet, hreplay, hiff.symm, fun hproper => ?_⟩
    rw [hreplay, hiff.mpr hproper, PreparedAdminUpload.fingerprint]
  · intro context upload hsame hok
    have hmet := (parsePublicUpload_replays hsame hok).1
    rw [PublicUploadContext.replayKind] at hmet
    rw [replayFingerprint, hmet]
    rfl
  · intro _ _ _ upload upload' _ _ hdiffer heq
    obtain ⟨hname, hdir, hove, htot, hdigest⟩ :=
      PreparedAdminUpload.metadata_inj heq
    exact hdiffer (by rw [hname, hdir, hove, htot, hdigest])
  · intro _ _ _ upload upload' hok hok' hdiffer heq
    have hself : ∀ form : MultipartForm, SameForm form form := fun form =>
      ⟨List.forall₂_same.mpr fun _ _ => ⟨rfl, rfl, rfl, rfl⟩, rfl⟩
    have hsubdir := (parsePublicUpload_replays (hself form) hok).2
    have hsubdir' := (parsePublicUpload_replays (hself form') hok').2
    obtain ⟨hname, hbase, hfol, hove, htot, hdigest⟩ :=
      PreparedPublicForm.metadata_inj heq
    exact hdiffer (by rw [hname, hsubdir, hsubdir', hbase, hfol, hove, htot, hdigest])

/-- An administrator with the proof `c` uploads under the id `i`; the digest keeps its input. -/
def plainAdminContext : AdminUploadContext where
  csrfToken := ['c']
  uploadId := ['i']
  settings := ⟨8, true, fun _ => false⟩
  maxUploadSize_le := by decide
  sha256 bytes := bytes
  storage _ := none

/-- A file of one byte for the directory `d`, with the folder path in these chunks. -/
def folderForm (folder : List (List UInt8)) : MultipartForm where
  fields := [⟨some "path".toList, none, [[100]], none⟩,
    ⟨some "folder_path".toList, none, folder, none⟩, ⟨some "csrf".toList, none, [[99]], none⟩,
    ⟨some "file".toList, some ['f'], [[1]], none⟩]
  aborted := none

theorem replay_repeats_fingerprint_folder :
    replayFingerprint (fun bytes => bytes) ['i'] (.admin ['c']) [] (folderForm [[97], [], [98]]) =
      .ok (PreparedAdminUpload.fingerprint (fun bytes => bytes)
        ⟨['f'], 1, ['0', '1'], ['d', '/', 'a', 'b'], ['d'], ['a', 'b'], false⟩) := by
  have hsame : SameForm (folderForm [[97, 98]]) (folderForm [[97], [], [98]]) :=
    ⟨.cons ⟨rfl, rfl, rfl, rfl⟩ (.cons ⟨rfl, rfl, rfl, rfl⟩ (.cons ⟨rfl, rfl, rfl, rfl⟩
      (.cons ⟨rfl, rfl, rfl, rfl⟩ .nil))), rfl⟩
  obtain ⟨_, -, -, -, hreplay⟩ := (replay_repeats_fingerprint [] _ _).1 plainAdminContext
    ⟨['f'], 1, ['0', '1'], ['d', '/', 'a', 'b'], ['d'], ['a', 'b'], false⟩ hsame
    (by decide +kernel)
  refine hreplay ?_
  unfold FolderProper
  decide +kernel

/-- The folder path is submitted, but empty. The first pass puts the file into `d`, the replay
takes the directory to be `d/`, and the fingerprints differ. -/
theorem emptyFolder_changes_fingerprint :
    parseAdminUpload plainAdminContext [] (folderForm []) =
      .ok ⟨['f'], 1, ['0', '1'], ['d'], ['d'], [], false⟩ ∧
    ∃ metadata, replayMetadata (fun bytes => bytes) ['i'] (.admin ['c']) [] (folderForm []) =
        .ok metadata ∧
      metadata ≠ PreparedAdminUpload.metadata ⟨['f'], 1, ['0', '1'], ['d'], ['d'], [], false⟩ ∧
      replayFingerprint (fun bytes => bytes) ['i'] (.admin ['c']) [] (folderForm []) =
        .ok (hexLower metadata) ∧
      hexLower metadata ≠ PreparedAdminUpload.fingerprint (fun bytes => bytes)
        ⟨['f'], 1, ['0', '1'], ['d'], ['d'], [], false⟩ := by
  refine ⟨by decide +kernel, utf8Bytes "[\"f\",\"d/\",false,1,\"01\"]".toList, ?_, ?_, ?_, ?_⟩
  · decide +kernel
  · decide +kernel
  · decide +kernel
  · decide +kernel

end Main

end VaultLink
