import Mathlib.Data.List.DropRight
import Mathlib.Data.List.Basic

/-!
# Forwarded client addresses

`proxy.rs` and the header rewriting of `container_proxy.rs`: which client address the server
believes in when a request comes through reverse proxies, and what the container proxy tells
it. A header value is its bytes, and so is the text of one, which `to_str` has found to be
visible ASCII. How the standard library reads and prints an address is a parameter.
-/
namespace VaultLink

section Addresses

inductive IpAddr
  | v4 (address : BitVec 32)
  | v6 (address : BitVec 128)
deriving DecidableEq

/-- `Ipv6Addr::to_ipv4_mapped`: the addresses `::ffff:a.b.c.d`. -/
def toIpv4Mapped (address : BitVec 128) : Option (BitVec 32) :=
  if address.extractLsb' 32 96 = 0xffff#96 then some (address.extractLsb' 0 32) else none

def canonicalPeerIp : IpAddr → IpAddr
  | .v6 address =>
    match toIpv4Mapped address with
    | some mapped => .v4 mapped
    | none => .v6 address
  | .v4 address => .v4 address

@[simp] theorem canonicalPeerIp_idem (address : IpAddr) :
    canonicalPeerIp (canonicalPeerIp address) = canonicalPeerIp address := by
  cases address with
  | v4 address => rfl
  | v6 address =>
    cases hmapped : toIpv4Mapped address with
    | some | none => simp [canonicalPeerIp, hmapped]

def isTrustedProxyPeer (peer : IpAddr) (trustedProxies : List IpAddr) : Bool :=
  (trustedProxies.map canonicalPeerIp).any (· = canonicalPeerIp peer)

end Addresses

section Headers

abbrev HeaderValue := List UInt8

/-- `http::HeaderMap`, with its names in lower case. -/
abbrev HeaderMap := List (String × HeaderValue)

namespace HeaderMap

def getAll (headers : HeaderMap) (name : String) : List HeaderValue :=
  (headers.filter (·.1 = name)).map Prod.snd

def remove (headers : HeaderMap) (name : String) : HeaderMap := headers.filter (·.1 ≠ name)

def insert (headers : HeaderMap) (name : String) (value : HeaderValue) : HeaderMap :=
  headers.remove name ++ [(name, value)]

end HeaderMap

def isVisibleAscii (byte : UInt8) : Bool := 32 ≤ byte && byte < 127 || byte = 9

namespace HeaderValue

def toStr (value : HeaderValue) : Option (List UInt8) :=
  if value.all isVisibleAscii then some value else none

def fromStr (text : List UInt8) : Option HeaderValue :=
  if text.all fun byte => 32 ≤ byte && byte ≠ 127 || byte = 9 then some text else none

end HeaderValue

def comma : UInt8 := 44

def space : UInt8 := 32

/-- `char::is_whitespace`, on ASCII. -/
def isWhitespace (byte : UInt8) : Bool := byte = space || 9 ≤ byte && byte ≤ 13

def trim (text : List UInt8) : List UInt8 :=
  (text.dropWhile isWhitespace).rdropWhile isWhitespace

/-- `str::rsplit(',')`. -/
def rsplit (text : List UInt8) : List (List UInt8) := (text.splitOn comma).reverse

end Headers

section Server

variable (parse : List UInt8 → Option IpAddr)

inductive InvalidForwardedFor
  | invalid
deriving DecidableEq

/-- What the body of a loop returns from the function, or the state it goes on with. -/
abbrev Loop (α : Type) := Except (Except InvalidForwardedFor IpAddr) α

/-- The inner loop of `validated_proxy_client_ip`. -/
def proxyCandidates (trustedHops : List IpAddr) : List (List UInt8) → Option IpAddr →
    Loop (Option IpAddr)
  | [], current => .ok current
  | candidate :: rest, current =>
    match current.filter fun ip => !isTrustedProxyPeer ip trustedHops with
    | some ip => .error (.ok ip)
    | none =>
      match parse (trim candidate) with
      | none => .error (.error .invalid)
      | some address => proxyCandidates trustedHops rest (some (canonicalPeerIp address))

/-- The outer loop, over the values from the last to the first. -/
def proxyValues (trustedHops : List IpAddr) : List HeaderValue → Option IpAddr →
    Loop (Option IpAddr)
  | [], current => .ok current
  | value :: rest, current =>
    match value.toStr with
    | none => .error (.error .invalid)
    | some text => proxyCandidates parse trustedHops (rsplit text) current >>=
        proxyValues trustedHops rest

def validatedProxyClientIp (headers : HeaderMap) (trustedHops : List IpAddr) :
    Except InvalidForwardedFor IpAddr :=
  match proxyValues parse trustedHops (headers.getAll "x-forwarded-for").reverse none with
  | .error result => result
  | .ok none => .error .invalid
  | .ok (some ip) => .ok ip

inductive ServerMode
  | development
  | reverseProxy
  | standaloneTls
deriving DecidableEq

/-- The part of the configuration that decides whom to believe. -/
structure ProxyConfig where
  mode : ServerMode
  enabled : Bool
  trustedProxies : List IpAddr
  trustXForwardedHeaders : Bool

/-- The inner loop of `validated_effective_client_ip`. -/
def effectiveCandidates (trustedProxies : List IpAddr) : List (List UInt8) → IpAddr → Loop IpAddr
  | [], current => .ok current
  | candidate :: rest, current =>
    if !isTrustedProxyPeer current trustedProxies then .error (.ok current)
    else
      match parse candidate with
      | none => .error (.error .invalid)
      | some address => effectiveCandidates trustedProxies rest (canonicalPeerIp address)

def effectiveValues (trustedProxies : List IpAddr) : List HeaderValue → IpAddr → Loop IpAddr
  | [], current => .ok current
  | value :: rest, current =>
    match value.toStr with
    | none => .error (.error .invalid)
    | some text => effectiveCandidates parse trustedProxies ((rsplit text).map trim) current >>=
        effectiveValues trustedProxies rest

def validatedEffectiveClientIp (peer : IpAddr) (headers : HeaderMap) (config : ProxyConfig) :
    Except InvalidForwardedFor IpAddr :=
  let peer := canonicalPeerIp peer
  if config.mode ≠ .reverseProxy || !config.enabled || !config.trustXForwardedHeaders ||
      !isTrustedProxyPeer peer config.trustedProxies then
    .ok peer
  else
    match effectiveValues parse config.trustedProxies
      (headers.getAll "x-forwarded-for").reverse peer with
    | .error result => result
    | .ok current => .ok current

end Server

section ContainerProxy

/-- How the standard library reads and prints addresses. A printed address has no character
but digits, letters, dots and colons, and is read back as itself. -/
structure AddressText where
  parse : List UInt8 → Option IpAddr
  display : IpAddr → List UInt8
  parse_display : ∀ address, parse (display address) = some address
  display_graphic : ∀ address, ∀ byte ∈ display address, 46 ≤ byte ∧ byte < 127

/-- `ProxyPolicy`, without the upstream. -/
structure ProxyPolicy where
  trustedProxies : List IpAddr
  trustForwardedHeaders : Bool

namespace ProxyPolicy

/-- The end of `try_read_proxy_policy`. -/
def ofConfig (config : ProxyConfig) : ProxyPolicy :=
  let trustForwardedHeaders :=
    config.mode = .reverseProxy && config.enabled && config.trustXForwardedHeaders
  { trustedProxies :=
      if trustForwardedHeaders then config.trustedProxies.map canonicalPeerIp else []
    trustForwardedHeaders }

def trusts (policy : ProxyPolicy) (peer : IpAddr) : Bool :=
  policy.trustForwardedHeaders && policy.trustedProxies.contains (canonicalPeerIp peer)

end ProxyPolicy

variable (text : AddressText)

/-- The inner loop of `sanitize_forwarding_headers`. -/
def collectCandidates : List (List UInt8) → List (List UInt8) → Option (List (List UInt8))
  | [], forwarded => some forwarded
  | candidate :: rest, forwarded =>
    let candidate := trim candidate
    if candidate.isEmpty then none
    else
      match text.parse candidate with
      | none => none
      | some address =>
        collectCandidates rest (forwarded ++ [text.display (canonicalPeerIp address)])

def collectValues : List HeaderValue → List (List UInt8) → Option (List (List UInt8))
  | [], forwarded => some forwarded
  | value :: rest, forwarded =>
    match value.toStr with
    | none => none
    | some string =>
      match collectCandidates text (string.splitOn comma) forwarded with
      | none => none
      | some forwarded => collectValues rest forwarded

def sanitizeForwardingHeaders (headers : HeaderMap) (peer : IpAddr) (trusted : Bool) :
    Option HeaderMap :=
  match if trusted then collectValues text (headers.getAll "x-forwarded-for") [] else some [] with
  | none => none
  | some forwarded =>
    let forwarded := forwarded ++ [text.display (canonicalPeerIp peer)]
    let headers := ((headers.remove "forwarded").remove "x-forwarded-for").remove "connection"
    match HeaderValue.fromStr ([comma, space].intercalate forwarded) with
    | none => none
    | some value => some (headers.insert "x-forwarded-for" value)

end ContainerProxy

end VaultLink
