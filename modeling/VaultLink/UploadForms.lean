import VaultLink.PublicUpload

/-!
# Upload forms and their fingerprints

An upload arrives as a multipart form. The parsers of administrator and public uploads read it
field by field, stage the file, and fingerprint what was asked for. When the same operation is
requested again, a third reader goes over the repeated form without touching storage, and its
fingerprint is compared with the stored one. The storage steps of a first pass, which can fail
for reasons of their own, are a parameter that says which of them fails and with what error;
so are the digest and the check of file name extensions.
-/
namespace VaultLink

section Fields

/-- Why a body ended before the form did. -/
inductive BodyAbort
  | timedOut
  | broken
deriving DecidableEq

/-- A field, in the chunks in which its content arrives before it ends or the body breaks off. -/
structure FormField where
  name : Option Text
  fileName : Option Text
  chunks : List (List UInt8)
  aborted : Option BodyAbort

/-- The fields of a form; `aborted` when the body breaks off behind the last of them. -/
structure MultipartForm where
  fields : List FormField
  aborted : Option BodyAbort

def FormField.content (field : FormField) : List UInt8 := field.chunks.flatten

/-- The names that the parsers know. -/
inductive UploadFormField
  | uploadId
  | path
  | folderPath
  | overwrite
  | csrf
  | file
  | unknown
deriving DecidableEq

/-- The match on `field.name().unwrap_or("")`. -/
def FormField.kind (field : FormField) : UploadFormField :=
  let name := String.ofList (field.name.getD [])
  if name = "upload_id" then .uploadId
  else if name = "path" then .path
  else if name = "folder_path" then .folderPath
  else if name = "overwrite_existing" then .overwrite
  else if name = "csrf" then .csrf
  else if name = "file" then .file
  else .unknown

inductive UploadPrefixKind
  | id
  | path
  | folderPath
  | overwrite
  | csrf
deriving DecidableEq

/-- A field that `take_upload_id` has read while it looked for the upload id. -/
structure UploadPrefixField where
  kind : UploadPrefixKind
  value : Text

def maxUploadPathFieldBytes : ℕ := 4 * 1024

def maxUploadOptionFieldBytes : ℕ := 16

def maxMultipartFields : ℕ := 6

/-- `String::from_utf8`. -/
def decodeUtf8 (bytes : List UInt8) : Option Text :=
  (String.fromUTF8? ⟨bytes.toArray⟩).map String.toList

inductive TextError
  | aborted (cause : BodyAbort)
  | tooLarge
  | notUtf8

/-- The loop that `limited_text`, `limited_multipart_text` and `limited_public_multipart_text`
have in common. -/
def collectText (maximum : ℕ) (aborted : Option BodyAbort) :
    List (List UInt8) → List UInt8 → Except TextError Text
  | [], value =>
    match aborted, decodeUtf8 value with
    | some cause, _ => .error (.aborted cause)
    | none, none => .error .notUtf8
    | none, some text => .ok text
  | chunk :: chunks, value =>
    if maximum < value.length + chunk.length then .error .tooLarge
    else collectText maximum aborted chunks (value ++ chunk)

def FormField.text (field : FormField) (maximum : ℕ) : Except TextError Text :=
  collectText maximum field.aborted field.chunks []

/-- `validate_relative` and the rendering of its result. -/
def normalizedPath (value : Text) : Option Text := (validateRelative value).map ['/'].intercalate

end Fields

section Metadata

/-- The escapes of `serde_json`. -/
def jsonEscape (c : Char) : Text :=
  if c = '"' then ['\\', '"']
  else if c = '\\' then ['\\', '\\']
  else if c = '\x08' then ['\\', 'b']
  else if c = '\t' then ['\\', 't']
  else if c = '\n' then ['\\', 'n']
  else if c = '\x0c' then ['\\', 'f']
  else if c = '\r' then ['\\', 'r']
  else if c.toNat < 32 then
    ['\\', 'u', '0', '0', Nat.digitChar (c.toNat / 16), Nat.digitChar (c.toNat % 16)]
  else [c]

def jsonString (text : Text) : Text := '"' :: (text.flatMap jsonEscape ++ ['"'])

def jsonBool (value : Bool) : Text := if value then "true".toList else "false".toList

def jsonNumber (value : ℕ) : Text := Nat.toDigits 10 value

/-- A tuple. -/
def jsonArray (elements : List Text) : Text := '[' :: ([','].intercalate elements ++ [']'])

/-- `HEXLOWER.encode`. -/
def hexLower (bytes : List UInt8) : Text :=
  bytes.flatMap fun byte => [Nat.digitChar (byte.toNat / 16), Nat.digitChar (byte.toNat % 16)]

end Metadata

section Staging

variable {ε : Type}

/-- The chunks of the file are counted, written and hashed. The bytes handed to the digest are
kept until it is finalized; `step` counts the storage steps. -/
def stageChunks (maximum : ℕ) (tooLarge : ε) (aborted : BodyAbort → ε) (storage : ℕ → Option ε)
    (abort : Option BodyAbort) : ℕ → List (List UInt8) → ℕ → List UInt8 →
    Except ε (ℕ × List UInt8)
  | step, [], total, digested =>
    match abort, storage step with
    | some cause, _ => .error (aborted cause)
    | none, some error => .error error
    | none, none => .ok (total, digested)
  | step, chunk :: chunks, total, digested =>
    match addUploadBytes total chunk.length maximum, storage step with
    | none, _ => .error tooLarge
    | some _, some error => .error error
    | some newTotal, none =>
      stageChunks maximum tooLarge aborted storage abort (step + 1) chunks newTotal
        (digested ++ chunk)

end Staging

section Admin

def adminMultipartReadError (message : String) : BodyAbort → AppError
  | .timedOut => ⟨408, "Upload timed out"⟩
  | .broken => ⟨400, message⟩

def adminMultipartTextError (message : String) : TextError → AppError
  | .aborted cause => adminMultipartReadError message cause
  | .tooLarge | .notUtf8 => ⟨400, message⟩

/-- `StagedAdminUpload`, which `prepare` turns field by field into `PreparedAdminUpload`. -/
structure PreparedAdminUpload where
  name : Text
  total : ℕ
  contentSha256 : Text
  directory : Text
  base : Text
  folderPath : Text
  overwriteExisting : Bool
deriving DecidableEq

/-- The bytes that `fingerprint` hashes. -/
def PreparedAdminUpload.metadata (upload : PreparedAdminUpload) : List UInt8 :=
  utf8Bytes (jsonArray [jsonString upload.name, jsonString upload.directory,
    jsonBool upload.overwriteExisting, jsonNumber upload.total, jsonString upload.contentSha256])

def PreparedAdminUpload.fingerprint (sha256 : List UInt8 → List UInt8)
    (upload : PreparedAdminUpload) : Text := hexLower (sha256 upload.metadata)

/-- What an administrator upload runs with. Settings are validated before they are used. -/
structure AdminUploadContext where
  csrfToken : Text
  uploadId : Text
  settings : UploadSettings
  maxUploadSize_le : settings.maxUploadSize ≤ maximumUploadSize
  sha256 : List UInt8 → List UInt8
  storage : ℕ → Option AppError

structure AdminUploadParser where
  directory : Option Text
  csrfSeen : Bool
  overwriteExisting : Bool
  sawOverwrite : Bool
  folderPath : Option Text
  staged : Option PreparedAdminUpload
  fieldsSeen : ℕ
  idSeen : Bool

namespace AdminUploadParser

variable (context : AdminUploadContext) (parser : AdminUploadParser) (value : Text)
  (field : FormField)

def new : AdminUploadParser := ⟨none, false, false, false, none, none, 0, false⟩

def recordField : Except AppError AdminUploadParser :=
  if maxMultipartFields < parser.fieldsSeen + 1 then .error ⟨400, "Too many multipart fields"⟩
  else .ok { parser with fieldsSeen := parser.fieldsSeen + 1 }

def setOverwrite : Except AppError AdminUploadParser :=
  if value = ['1'] && !context.settings.replacementsAllowed then
    .error ⟨400, "Overwriting is disabled with external storage writers"⟩
  else .ok { parser with sawOverwrite := true, overwriteExisting := value = ['1'] }

/-- `csrf`. -/
def setCsrf : Except AppError AdminUploadParser :=
  if context.csrfToken = value then .ok { parser with csrfSeen := true }
  else .error ⟨403, "Invalid CSRF token"⟩

def handlePrefix (field : UploadPrefixField) : Except AppError AdminUploadParser :=
  match field.kind with
  | .id =>
    if parser.idSeen || field.value ≠ context.uploadId then .error ⟨400, "Upload IDs disagree"⟩
    else .ok { parser with idSeen := true }
  | .path =>
    match normalizedPath field.value with
    | none => .error ⟨400, "Invalid upload path"⟩
    | some path =>
      if parser.directory.isSome then .error ⟨400, "Upload path was submitted more than once"⟩
      else .ok { parser with directory := some path }
  | .folderPath =>
    match normalizedPath field.value with
    | none => .error ⟨400, "Invalid folder path"⟩
    | some path =>
      if parser.folderPath.isSome then .error ⟨400, "Upload path was submitted more than once"⟩
      else .ok { parser with folderPath := some path }
  | .overwrite =>
    if parser.sawOverwrite then .error ⟨400, "Upload option was submitted more than once"⟩
    else parser.setOverwrite context field.value
  | .csrf =>
    if parser.csrfSeen then .error ⟨400, "CSRF proof was submitted more than once"⟩
    else parser.setCsrf context field.value

/-- `limited_multipart_text` with the error of the caller. -/
def readText (maximum : ℕ) (message : String) : Except AppError Text :=
  (field.text maximum).mapError (adminMultipartTextError message)

def normalizedMultipartPath (message : String) : Except AppError Text := do
  match normalizedPath (← readText field maxUploadPathFieldBytes message) with
  | none => .error ⟨400, message⟩
  | some path => .ok path

def uploadIdField : Except AppError AdminUploadParser :=
  if parser.idSeen || parser.staged.isSome then
    .error ⟨400, "Upload ID was submitted more than once or too late"⟩
  else do
    let value ← readText field 64 "Invalid upload ID"
    if value ≠ context.uploadId then .error ⟨400, "Upload IDs disagree"⟩
    else .ok { parser with idSeen := true }

def pathField : Except AppError AdminUploadParser :=
  if parser.directory.isSome || parser.staged.isSome then
    .error ⟨400, "Upload path was submitted more than once or too late"⟩
  else do
    let path ← normalizedMultipartPath field "Invalid upload path"
    .ok { parser with directory := some path }

def csrfField : Except AppError AdminUploadParser :=
  if parser.csrfSeen || parser.staged.isSome then
    .error ⟨400, "CSRF proof was submitted more than once or too late"⟩
  else do
    parser.setCsrf context (← readText field 512 "Invalid CSRF proof")

def overwriteField : Except AppError AdminUploadParser :=
  if parser.sawOverwrite || parser.staged.isSome then
    .error ⟨400, "Upload option was submitted more than once or too late"⟩
  else do
    parser.setOverwrite context
      (← readText field maxUploadOptionFieldBytes "Invalid upload option")

def folderPathField : Except AppError AdminUploadParser :=
  if parser.folderPath.isSome || parser.staged.isSome then
    .error ⟨400, "Folder path was submitted more than once or too late"⟩
  else do
    let path ← normalizedMultipartPath field "Invalid folder path"
    .ok { parser with folderPath := some path }

/-- `stage_admin_upload`: the file's name, size and digest. -/
def stageAdminUpload : Except AppError (Text × ℕ × Text) :=
  match field.fileName with
  | none => .error ⟨400, "File name missing"⟩
  | some name =>
    if !safeAdminFilename name then .error ⟨400, "Invalid file name"⟩
    else if context.settings.extensionIsBlocked name then .error ⟨415, "File type blocked"⟩
    else match context.storage 0 with
      | some error => .error error
      | none => do
        let (total, digested) ← stageChunks context.settings.maxUploadSize
          ⟨413, "Upload is too large"⟩ (adminMultipartReadError "Upload aborted") context.storage
          field.aborted 1 field.chunks 0 []
        .ok (name, total, hexLower (context.sha256 digested))

def fileField : Except AppError AdminUploadParser :=
  if parser.staged.isSome then .error ⟨400, "Exactly one file is allowed per request"⟩
  else match parser.directory with
    | none => .error ⟨400, "Upload path must be submitted before the file"⟩
    | some base =>
      if !parser.csrfSeen then .error ⟨400, "CSRF proof must be submitted before the file"⟩
      else do
        let folderPath := parser.folderPath.getD []
        let target := if folderPath.isEmpty then base else joinDisplay base folderPath
        let (name, total, contentSha256) ← stageAdminUpload context field
        let upload : PreparedAdminUpload :=
          ⟨name, total, contentSha256, target, base, folderPath, parser.overwriteExisting⟩
        .ok { parser with staged := some upload }

/-- The match on the name in `parse_admin_upload`. -/
def handleField : Except AppError AdminUploadParser :=
  match field.kind with
  | .uploadId => parser.uploadIdField context field
  | .path => parser.pathField field
  | .csrf => parser.csrfField context field
  | .overwrite => parser.overwriteField context field
  | .folderPath => parser.folderPathField field
  | .file => parser.fileField context field
  | .unknown => .error ⟨400, "Unknown multipart field"⟩

def finish : Except AppError PreparedAdminUpload :=
  match parser.directory, parser.staged with
  | none, _ => .error ⟨400, "Upload path missing"⟩
  | some _, staged =>
    if !parser.csrfSeen then .error ⟨403, "CSRF proof missing"⟩
    else match staged with
      | none => .error ⟨400, "Exactly one file is required per request"⟩
      | some upload => .ok upload

end AdminUploadParser

def parseAdminUpload (context : AdminUploadContext) (fields : List UploadPrefixField)
    (form : MultipartForm) : Except AppError PreparedAdminUpload := do
  let parser ← fields.foldlM (fun parser field => do
    (← AdminUploadParser.recordField parser).handlePrefix context field) AdminUploadParser.new
  let parser ← form.fields.foldlM (fun parser field => do
    (← AdminUploadParser.recordField parser).handleField context field) parser
  match form.aborted with
  | some cause => .error (adminMultipartReadError "Invalid upload" cause)
  | none => parser.finish

end Admin

section Public

inductive UploadFormStateError
  | tooManyFields
  | duplicateOrLatePath
  | duplicateOrLateFolderPath
  | duplicateOverwrite
  | duplicateOrLateCsrf
  | duplicateOrLateUploadId
  | multipleFiles
  | unknownField
deriving DecidableEq

def formStateErrorMessage : UploadFormStateError → String
  | .duplicateOrLateUploadId => "Upload ID was submitted more than once or too late"
  | .tooManyFields => "Too many multipart fields"
  | .duplicateOrLatePath => "Upload path was submitted more than once or too late"
  | .duplicateOrLateFolderPath => "Folder path was submitted more than once or too late"
  | .duplicateOverwrite => "Upload option was submitted more than once"
  | .duplicateOrLateCsrf => "CSRF token was submitted more than once or too late"
  | .multipleFiles => "Exactly one file is allowed per request"
  | .unknownField => "Unknown multipart field"

structure UploadFormState where
  fieldsSeen : ℕ
  sawPath : Bool
  sawFolderPath : Bool
  sawOverwrite : Bool
  sawCsrf : Bool
  sawFile : Bool
  sawUploadId : Bool

def UploadFormState.default : UploadFormState := ⟨0, false, false, false, false, false, false⟩

def UploadFormState.observe (state : UploadFormState) (field : UploadFormField)
    (maximumFields : ℕ) : Except UploadFormStateError UploadFormState :=
  let fieldsSeen := saturatingAddU64 state.fieldsSeen 1
  let state := { state with fieldsSeen }
  if maximumFields < fieldsSeen then .error .tooManyFields
  else match field with
    | .uploadId =>
      if state.sawUploadId || state.sawFile then .error .duplicateOrLateUploadId
      else .ok { state with sawUploadId := true }
    | .path =>
      if state.sawPath || state.sawFile then .error .duplicateOrLatePath
      else .ok { state with sawPath := true }
    | .folderPath =>
      if state.sawFolderPath || state.sawFile then .error .duplicateOrLateFolderPath
      else .ok { state with sawFolderPath := true }
    | .overwrite =>
      -- The option may follow the file.
      if state.sawOverwrite then .error .duplicateOverwrite
      else .ok { state with sawOverwrite := true }
    | .csrf =>
      if state.sawCsrf || state.sawFile then .error .duplicateOrLateCsrf
      else .ok { state with sawCsrf := true }
    | .file => if state.sawFile then .error .multipleFiles else .ok { state with sawFile := true }
    | .unknown => .error .unknownField

/-- What a staged public upload keeps of the form. -/
structure StagedPublicForm where
  fileName : Text
  uploadBase : Text
  folderPath : Text
  uploadSubdir : Text
  total : ℕ
  contentSha256 : Text

/-- The prepared upload adds the intent, which may come after the file. -/
structure PreparedPublicForm extends StagedPublicForm where
  overwriteRequested : Bool

/-- The bytes that `PreparedUpload::fingerprint` hashes. -/
def PreparedPublicForm.metadata (upload : PreparedPublicForm) : List UInt8 :=
  utf8Bytes (jsonArray [jsonString upload.fileName, jsonString upload.uploadBase,
    jsonString upload.folderPath, jsonBool upload.overwriteRequested, jsonNumber upload.total,
    jsonString upload.contentSha256])

def PreparedPublicForm.fingerprint (sha256 : List UInt8 → List UInt8)
    (upload : PreparedPublicForm) : Text := hexLower (sha256 upload.metadata)

/-- What a public upload runs with. -/
structure PublicUploadContext where
  share : Share
  requiredCsrf : Option Text
  csrfHeaderValid : Bool
  uploadId : Text
  settings : UploadSettings
  sha256 : List UInt8 → List UInt8
  storage : ℕ → Option UploadPhaseError

/-- The limit of the share or of the server, below the ceiling. -/
def PublicUploadContext.maximum (context : PublicUploadContext) : ℕ :=
  min ((context.share.maxUploadSize.map Limit.value).getD context.settings.maxUploadSize)
    maximumUploadSize

structure PublicUploadParser where
  uploadSubdir : Text
  folderPath : Option Text
  overwriteRequested : Bool
  formState : UploadFormState
  csrfValidated : Bool
  stagedUpload : Option StagedPublicForm

namespace PublicUploadParser

variable (context : PublicUploadContext) (parser : PublicUploadParser) (value : Text)
  (field : FormField)

def new : PublicUploadParser where
  uploadSubdir := []
  folderPath := none
  overwriteRequested := false
  formState := .default
  csrfValidated := context.requiredCsrf.isNone || context.csrfHeaderValid
  stagedUpload := none

def rejection {α : Type} (status : ℕ) (message : String) :
    Except UploadPhaseError α := .error (.rejection parser.uploadSubdir status message)

/-- `public_multipart_read_rejection`. -/
def readRejection (uploadSubdir : Text) (message : String) : BodyAbort → UploadPhaseError
  | .timedOut => .rejection uploadSubdir 408 "Upload timed out"
  | .broken => .rejection uploadSubdir 400 message

def observeField (field : UploadFormField) : Except UploadPhaseError PublicUploadParser :=
  match parser.formState.observe field maxMultipartFields with
  | .error error => parser.rejection 400 (formStateErrorMessage error)
  | .ok formState => .ok { parser with formState }

def readText (maximum status : ℕ) (message : String) : Except UploadPhaseError Text :=
  (field.text maximum).mapError fun
    | .aborted cause => readRejection parser.uploadSubdir message cause
    | .tooLarge | .notUtf8 => .rejection parser.uploadSubdir status message

def checkUploadId : Except UploadPhaseError PublicUploadParser :=
  if value ≠ context.uploadId then parser.rejection 400 "Upload IDs disagree" else .ok parser

def setPath : Except UploadPhaseError PublicUploadParser :=
  match normalizePublicUploadSubdir context.share.permission value with
  | none => parser.rejection 400 "Invalid upload path"
  | some uploadSubdir => .ok { parser with uploadSubdir }

def setFolder : Except UploadPhaseError PublicUploadParser :=
  match setFolderPath value with
  | none => parser.rejection 400 "Invalid folder path"
  | some folderPath => .ok { parser with folderPath := some folderPath }

def setOverwrite : Except UploadPhaseError PublicUploadParser :=
  if value = ['1'] && !context.settings.replacementsAllowed then
    parser.rejection 400 "Overwriting is disabled with external storage writers"
  else .ok { parser with overwriteRequested := value = ['1'] }

def setCsrf : Except UploadPhaseError PublicUploadParser :=
  if context.requiredCsrf.all fun expected => expected = value then
    .ok { parser with csrfValidated := true }
  else parser.rejection 403 "Invalid CSRF token"

def handlePrefix (field : UploadPrefixField) : Except UploadPhaseError PublicUploadParser :=
  match field.kind with
  | .id => do (← parser.observeField .uploadId).checkUploadId context field.value
  | .path => do (← parser.observeField .path).setPath context field.value
  | .folderPath => do (← parser.observeField .folderPath).setFolder field.value
  | .overwrite => do (← parser.observeField .overwrite).setOverwrite context field.value
  | .csrf => do
    let parser ← parser.observeField .csrf
    if byteLength field.value ≤ 256 then parser.setCsrf context field.value
    else parser.rejection 403 "Invalid CSRF token"

/-- `bind_target`, up to the opening of directories. -/
def boundTarget (fileName : Text) : Except UploadPhaseError StagedPublicForm :=
  let uploadBase := parser.uploadSubdir
  let folderPath := parser.folderPath.getD []
  let uploadSubdir := joinDisplay uploadBase folderPath
  let targetPath := joinDisplay (joinDisplay context.share.relativePath uploadSubdir) fileName
  if 4095 < byteLength targetPath then parser.rejection 400 "Upload path is too long"
  else .ok ⟨fileName, uploadBase, folderPath, uploadSubdir, 0, []⟩

def handleFile : Except UploadPhaseError PublicUploadParser :=
  if !parser.csrfValidated then parser.rejection 403 "CSRF token missing"
  else match field.fileName with
    | none => parser.rejection 400 "File name missing"
    | some name =>
      if !safeAdminFilename name then parser.rejection 400 "Invalid file name"
      else if context.settings.extensionIsBlocked name then
        parser.rejection 415 "File type blocked"
      else do
        let target ← parser.boundTarget context name
        match context.storage 0 with
        | some error => .error error
        | none =>
          let (total, digested) ← stageChunks context.maximum
            (.rejection target.uploadSubdir 413 "Upload is too large")
            (readRejection target.uploadSubdir "Upload aborted") context.storage
            field.aborted 1 field.chunks 0 []
          let staged : StagedPublicForm :=
            { target with total, contentSha256 := hexLower (context.sha256 digested) }
          .ok { parser with uploadSubdir := target.uploadSubdir, stagedUpload := some staged }

/-- `observe_field` and `handle_field`. -/
def handleField : Except UploadPhaseError PublicUploadParser := do
  let parser ← parser.observeField field.kind
  match field.kind with
  | .uploadId => parser.checkUploadId context (← parser.readText field 64 400 "Invalid upload ID")
  | .path =>
    parser.setPath context
      (← parser.readText field maxUploadPathFieldBytes 400 "Invalid upload path")
  | .folderPath =>
    parser.setFolder (← parser.readText field maxUploadPathFieldBytes 400 "Invalid folder path")
  | .overwrite =>
    parser.setOverwrite context
      (← parser.readText field maxUploadOptionFieldBytes 400 "Invalid upload")
  | .csrf => parser.setCsrf context (← parser.readText field 256 403 "Invalid CSRF token")
  | .file => parser.handleFile context field
  | .unknown => parser.rejection 400 "Unknown multipart field"

def finish : Except UploadPhaseError PreparedPublicForm :=
  match parser.stagedUpload with
  | none => parser.rejection 400 "File is missing"
  | some staged => .ok ⟨staged, parser.overwriteRequested⟩

end PublicUploadParser

/-- `PublicUploadFormPhase::run`, on the whole form. -/
def parsePublicUpload (context : PublicUploadContext) (fields : List UploadPrefixField)
    (form : MultipartForm) : Except UploadPhaseError PreparedPublicForm := do
  let parser ← fields.foldlM (PublicUploadParser.handlePrefix context)
    (PublicUploadParser.new context)
  let parser ← form.fields.foldlM (PublicUploadParser.handleField context) parser
  match form.aborted with
  | some cause =>
    .error (PublicUploadParser.readRejection parser.uploadSubdir "Invalid upload" cause)
  | none => parser.finish

end Public

section Replay

inductive ReplayKind
  | admin (csrf : Text)
  | publicShare (permission : Permission) (csrf : Option Text) (csrfHeaderValid : Bool)

namespace ReplayKind

def isAdmin : ReplayKind → Bool
  | admin _ => true
  | publicShare .. => false

def normalizePath : ReplayKind → Text → Option Text
  | admin _, value => normalizedPath value
  | publicShare permission _ _, value => normalizePublicUploadSubdir permission value

def expectedCsrf : ReplayKind → Option Text
  | admin csrf => some csrf
  | publicShare _ csrf _ => csrf

end ReplayKind

/-- The variables of `replay_fingerprint`: those of `ReplayPrefix`, and the file. -/
structure ReplayState where
  base : Option Text
  folder : Option Text
  overwrite : Option Bool
  csrfSeen : Bool
  idSeen : Bool
  fields : ℕ
  file : Option (Text × ℕ × Text)

variable (sha256 : List UInt8 → List UInt8) (expectedId : Text) (kind : ReplayKind)

namespace ReplayState

variable (state : ReplayState) (value : Text) (field : FormField)

def new : ReplayState := ⟨none, none, none, false, false, 0, none⟩

def duplicate {α : Type} : Except String α := .error "Invalid or duplicate upload field"

def limitedText (maximum : ℕ) : Except String Text :=
  (field.text maximum).mapError fun
    | .tooLarge => "Upload field is too large"
    | .aborted _ | .notUtf8 => "Invalid upload field"

/-- `ensure_field_limit`. -/
def count : Except String ReplayState :=
  if maxMultipartFields < state.fields + 1 then .error "Too many multipart fields"
  else .ok { state with fields := state.fields + 1 }

def setId : Except String ReplayState :=
  if expectedId ≠ value then .error "Upload IDs disagree" else .ok { state with idSeen := true }

def setBase : Except String ReplayState :=
  match kind.normalizePath value with
  | none => .error "Invalid upload path"
  | some base => .ok { state with base := some base }

def setFolder : Except String ReplayState :=
  match normalizedPath value with
  | none => .error "Invalid folder path"
  | some folder => .ok { state with folder := some folder }

def setOverwrite : ReplayState :=
  { state with overwrite := some (value = ['1']) }

def setCsrf : Except String ReplayState :=
  if kind.expectedCsrf.any fun expected => expected ≠ value then .error "Invalid CSRF proof"
  else .ok { state with csrfSeen := true }

/-- The body of the loop of `parse_replay_prefix`. -/
def prefixField (field : UploadPrefixField) : Except String ReplayState := do
  let state ← state.count
  match field.kind with
  | .id => if state.idSeen then duplicate else state.setId expectedId field.value
  | .path => if state.base.isSome then duplicate else state.setBase kind field.value
  | .folderPath => if state.folder.isSome then duplicate else state.setFolder field.value
  | .overwrite =>
    if state.overwrite.isSome then duplicate else .ok (state.setOverwrite field.value)
  | .csrf => if state.csrfSeen then duplicate else state.setCsrf kind field.value

/-- The loop of `hash_replayed_file`. -/
def hashChunks (aborted : Option BodyAbort) :
    List (List UInt8) → ℕ → List UInt8 → Except String (ℕ × List UInt8)
  | [], size, digested =>
    if aborted.isSome then .error "Upload aborted" else .ok (size, digested)
  | chunk :: chunks, size, digested =>
    match addUploadBytes size chunk.length maximumUploadSize with
    | none => .error "Upload is too large"
    | some size => hashChunks aborted chunks size (digested ++ chunk)

/-- `hash_replayed_file`. -/
def hashFile : Except String (Text × ℕ × Text) :=
  match field.fileName with
  | none => .error "File name missing"
  | some name =>
    if !safeAdminFilename name then .error "Invalid file name"
    else do
      let (size, digested) ← hashChunks field.aborted field.chunks 0 []
      .ok (name, size, hexLower (sha256 digested))

def uploadIdField : Except String ReplayState :=
  if state.idSeen || state.file.isSome then duplicate
  else do state.setId expectedId (← limitedText field 64)

def pathField : Except String ReplayState :=
  if state.base.isSome || state.file.isSome then duplicate
  else do state.setBase kind (← limitedText field maxUploadPathFieldBytes)

def folderPathField : Except String ReplayState :=
  if state.folder.isSome || state.file.isSome then duplicate
  else do state.setFolder (← limitedText field maxUploadPathFieldBytes)

def overwriteField : Except String ReplayState :=
  if state.overwrite.isSome then duplicate
  else if kind.isAdmin && state.file.isSome then .error "Upload option was submitted too late"
  else do .ok (state.setOverwrite (← limitedText field maxUploadOptionFieldBytes))

def csrfField : Except String ReplayState :=
  if state.csrfSeen || state.file.isSome then duplicate
  else do state.setCsrf kind (← limitedText field 512)

def fileField : Except String ReplayState :=
  if state.file.isSome then duplicate
  else do
    let file ← hashFile sha256 field
    .ok { state with file := some file }

/-- The body of the loop of `replay_fingerprint`. -/
def formField : Except String ReplayState := do
  let state ← state.count
  match field.kind with
  | .uploadId => state.uploadIdField expectedId field
  | .path => state.pathField kind field
  | .folderPath => state.folderPathField field
  | .overwrite => state.overwriteField kind field
  | .csrf => state.csrfField kind field
  | .file => state.fileField sha256 field
  | .unknown => duplicate

/-- The bytes that `finish_replay_fingerprint` hashes. -/
def metadata : Except String (List UInt8) :=
  match state.file with
  | none => .error "File is missing"
  | some (name, size, digest) =>
    let overwrite := state.overwrite.getD false
    match kind with
    | .admin _ =>
      if !state.csrfSeen then .error "CSRF proof missing"
      else match state.base with
        | none => .error "Upload path missing"
        | some base =>
          let directory := match state.folder with
            | some folder => joinDisplay base folder
            | none => base
          .ok (utf8Bytes (jsonArray [jsonString name, jsonString directory, jsonBool overwrite,
            jsonNumber size, jsonString digest]))
    | .publicShare _ csrf csrfHeaderValid =>
      if csrf.isSome && !state.csrfSeen && !csrfHeaderValid then .error "CSRF proof missing"
      else .ok (utf8Bytes (jsonArray [jsonString name, jsonString (state.base.getD []),
        jsonString (state.folder.getD []), jsonBool overwrite, jsonNumber size,
        jsonString digest]))

end ReplayState

/-- `replay_fingerprint`, up to its last line. -/
def replayMetadata (fields : List UploadPrefixField) (form : MultipartForm) :
    Except String (List UInt8) := do
  let state ← fields.foldlM (ReplayState.prefixField expectedId kind) ReplayState.new
  let state ← form.fields.foldlM (ReplayState.formField sha256 expectedId kind) state
  if form.aborted.isSome then .error "Invalid upload" else state.metadata kind

def replayFingerprint (fields : List UploadPrefixField) (form : MultipartForm) :
    Except String Text :=
  (replayMetadata sha256 expectedId kind fields form).map fun metadata =>
    hexLower (sha256 metadata)

end Replay

end VaultLink
