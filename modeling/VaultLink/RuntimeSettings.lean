import VaultLink.ForwardedHeaders
import VaultLink.PathSecurity

/-!
# Runtime settings

The settings an administrator changes while the server runs: the record, its validation and
the rows it is stored as. The WebAuthn service is derived from the public base URL; its
pending ceremonies are left out, but not the identity of the instance that keeps them. URLs
are parsed by a library, which is a parameter.
-/
namespace VaultLink

/-- What the settings read of a parsed `url::Url`. -/
structure Url where
  scheme : String
  username : String
  password : Option String
  host : Option String
  path : String
  query : Option String
  fragment : Option String
  /-- `origin().ascii_serialization()`. -/
  origin : String

/-- `url::Url::parse` and `AsciiDomain::try_from`. -/
structure UrlLibrary where
  parse : String → Option Url
  asciiDomain : String → Option String

section Text

/-- `char::is_whitespace`. -/
def isUnicodeWhitespace (c : Char) : Bool :=
  c.val ∈ [0x20, 0x85, 0xA0, 0x1680, 0x2028, 0x2029, 0x202F, 0x205F, 0x3000] ||
    (0x09 ≤ c.val && c.val ≤ 0x0D) || (0x2000 ≤ c.val && c.val ≤ 0x200A)

/-- `str::trim`. -/
def trimText (text : String) : String :=
  String.ofList ((text.toList.dropWhile isUnicodeWhitespace).rdropWhile isUnicodeWhitespace)

def trimStartMatches (c : Char) (text : String) : String :=
  String.ofList (text.toList.dropWhile fun x => x = c)

def toAsciiLowercase (text : String) : String := String.ofList (text.toList.map Char.toLower)

def startsWith (text start : String) : Bool := start.toList.isPrefixOf text.toList

end Text

inductive CertificateSource
  | files
  | letsEncrypt
deriving DecidableEq

/-- The part of the configuration file that `validate_for_config` reads. -/
structure ServerConfig where
  mode : ServerMode
  publicBaseUrl : String
  productionMode : Bool
  certificateSource : CertificateSource

/-- `RuntimeSettings`, with `usize` of 64 bits. -/
structure RuntimeSettings where
  publicBaseUrl : String
  maxUploadSize : UInt64
  blockedExtensions : List String
  sharePasswordMinLength : UInt64
  sharePasswordMaxLength : UInt64
  shareUnlockMinutes : Int64
  maxZipSize : UInt64
  maxZipFiles : UInt64
  maxSearchEntries : UInt64
  maxSearchResults : UInt64
  maxPreviewSize : UInt64
  previewExtensions : List String
  imagePreviewExtensions : List String
  pdfPreviewEnabled : Bool
  maxMediaPreviewSize : UInt64
  auditClientIpEnabled : Bool
deriving DecidableEq

def maxTextPreviewSize : UInt64 := 64000000

/-- `MAX_UPLOAD_SIZE`, of the module `config`. -/
def maxConfiguredUploadSize : UInt64 := 128 * 1024 * 1024 * 1024 - 1024 * 1024

section Validation

def validateExtensions (values : List String) : Except String Unit :=
  if values.any fun extension =>
      extension.toList.isEmpty || extension.toList.any fun c =>
        c = '/' || c = '\\' || c = '\x00' || isControl c then
    .error "extensions must be safe extension names without path separators"
  else .ok ()

/-- Content types that a browser would run. -/
def isActiveContent (extension : String) : Bool :=
  toAsciiLowercase (trimStartMatches '.' extension) ∈ ["svg", "html", "htm", "xml", "xhtml"]

namespace RuntimeSettings

variable (urls : UrlLibrary) (settings : RuntimeSettings)

/-- The first checks of `validate`. -/
def validatePublicBaseUrl : Except String Unit :=
  let raw := trimText settings.publicBaseUrl
  if !startsWith raw "http://" && !startsWith raw "https://" then
    .error "public_base_url must use canonical HTTP(S) authority syntax"
  else match urls.parse raw with
    | none => .error "public_base_url must be a valid absolute URL"
    | some url =>
      if !(url.scheme = "http" || url.scheme = "https") || url.host.isNone ||
          url.query.isSome || url.fragment.isSome || url.username ≠ "" ||
          url.password.isSome || url.path ≠ "/" then
        .error ("public_base_url must be an absolute HTTP(S) URL without credentials, query, " ++
          "or fragment")
      else .ok ()

def validateLimits : Except String Unit :=
  if settings.maxUploadSize = 0 || settings.maxSearchEntries = 0 ||
      settings.maxSearchResults = 0 || settings.maxPreviewSize = 0 ||
      settings.maxMediaPreviewSize = 0 then .error "runtime limits must be positive"
  else if maxTextPreviewSize < settings.maxPreviewSize then
    .error s!"max_preview_size must not exceed {maxTextPreviewSize} bytes"
  else if maxConfiguredUploadSize < settings.maxUploadSize then
    .error s!"max_upload_size must not exceed {maxConfiguredUploadSize} bytes"
  else if settings.sharePasswordMinLength < 8 ||
      settings.sharePasswordMaxLength < settings.sharePasswordMinLength ||
      1024 < settings.sharePasswordMaxLength ||
      !(1 ≤ settings.shareUnlockMinutes && settings.shareUnlockMinutes ≤ 43200) then
    .error "invalid share password policy"
  else .ok ()

def validatePreviews : Except String Unit :=
  if settings.previewExtensions.isEmpty then .error "preview_extensions must not be empty"
  else if settings.imagePreviewExtensions.any isActiveContent then
    .error "image_preview_extensions must not include active content types"
  else .ok ()

def validate : Except String Unit := do
  settings.validatePublicBaseUrl urls
  settings.validateLimits
  validateExtensions settings.blockedExtensions
  validateExtensions settings.previewExtensions
  validateExtensions settings.imagePreviewExtensions
  settings.validatePreviews

/-- The checks of `validate_for_config` that read the configuration. -/
def validateAgainst (config : ServerConfig) : Except String Unit :=
  if config.productionMode && (urls.parse settings.publicBaseUrl).all (·.scheme ≠ "https") then
    .error "production public_base_url must use HTTPS"
  else if config.mode = .standaloneTls && config.certificateSource = .letsEncrypt &&
      settings.publicBaseUrl ≠ config.publicBaseUrl then
    .error ("public_base_url must be changed in config.toml and VaultLink restarted when " ++
      "Let's Encrypt manages TLS")
  else .ok ()

def validateForConfig (config : ServerConfig) : Except String Unit := do
  settings.validate urls
  settings.validateAgainst urls config

def pairs : List (String × String) :=
  [("public_base_url", settings.publicBaseUrl),
    ("max_upload_size", toString settings.maxUploadSize),
    ("blocked_extensions", ",".intercalate settings.blockedExtensions),
    ("share_password_min_length", toString settings.sharePasswordMinLength),
    ("share_password_max_length", toString settings.sharePasswordMaxLength),
    ("share_unlock_minutes", toString settings.shareUnlockMinutes),
    ("max_zip_size", toString settings.maxZipSize),
    ("max_zip_files", toString settings.maxZipFiles),
    ("max_search_entries", toString settings.maxSearchEntries),
    ("max_search_results", toString settings.maxSearchResults),
    ("max_preview_size", toString settings.maxPreviewSize),
    ("preview_extensions", ",".intercalate settings.previewExtensions),
    ("image_preview_extensions", ",".intercalate settings.imagePreviewExtensions),
    ("pdf_preview_enabled", toString settings.pdfPreviewEnabled),
    ("max_media_preview_size", toString settings.maxMediaPreviewSize),
    ("audit_client_ip_enabled", toString settings.auditClientIpEnabled)]

end RuntimeSettings

end Validation

/-- `WebAuthnService`; `identity` tells instances apart, as `instance_id` does. -/
structure WebAuthnService where
  rpId : String
  origin : String
  identity : ℕ
deriving DecidableEq

namespace WebAuthnService

def fromPublicBaseUrl (urls : UrlLibrary) (publicBaseUrl : String) (identity : ℕ) :
    Option WebAuthnService := do
  let url ← urls.parse publicBaseUrl
  let host ← url.host
  let rpId ← urls.asciiDomain host
  some ⟨rpId, url.origin, identity⟩

/-- The service is an instance for this URL. -/
def BelongsTo (service : WebAuthnService) (urls : UrlLibrary) (publicBaseUrl : String) : Prop :=
  fromPublicBaseUrl urls publicBaseUrl service.identity = some service

theorem belongsTo_of_fromPublicBaseUrl {urls : UrlLibrary} {publicBaseUrl : String}
    {identity : ℕ} {service : WebAuthnService}
    (h : fromPublicBaseUrl urls publicBaseUrl identity = some service) :
    service.BelongsTo urls publicBaseUrl := by
  have hid : service.identity = identity := by
    simp only [fromPublicBaseUrl, Option.bind_eq_bind, Option.bind_eq_some_iff] at h
    obtain ⟨url, -, host, -, rpId, -, hservice⟩ := h
    cases hservice
    rfl
  rw [BelongsTo, hid, h]

end WebAuthnService

end VaultLink
