import VaultLink.ClientAddress

/-!
# The client behind the container proxy

The container proxy prints the chain of a trusted peer anew, or none, and the peer after it;
the server splits the text at the commas and reads the same addresses back. So it chooses
among the addresses of that chain, and finds the peer itself where the peer is not trusted.
-/
namespace VaultLink

section ContainerProxy

variable {text : AddressText}

theorem splitOn_display (address : IpAddr) :
    (text.display address).splitOn comma = [text.display address] := by
  refine List.splitOn_eq_singleton fun hmem => ?_
  have := (text.display_graphic address comma hmem).1
  exact absurd this (by decide)

theorem trim_display (address : IpAddr) : trim (text.display address) = text.display address := by
  have hgraphic : ∀ byte ∈ text.display address, isWhitespace byte = false := by
    intro byte hbyte
    have hle : (46 : ℕ) ≤ byte.toNat := (text.display_graphic address byte hbyte).1
    simp only [isWhitespace, space, Bool.or_eq_false_iff, decide_eq_false_iff_not,
      Bool.and_eq_false_iff, UInt8.le_iff_toNat_le, ← UInt8.toNat_inj]
    refine ⟨?_, .inr ?_⟩
    · show ¬byte.toNat = 32
      omega
    · show ¬byte.toNat ≤ 13
      omega
  have hleft : (text.display address).dropWhile isWhitespace = text.display address := by
    refine List.dropWhile_eq_self_iff.mpr fun hlen => ?_
    rw [hgraphic _ (List.getElem_mem hlen)]
    exact Bool.false_ne_true
  rw [trim, hleft]
  refine List.rdropWhile_eq_self_iff.mpr fun hne => ?_
  rw [hgraphic _ (List.getLast_mem hne)]
  exact Bool.false_ne_true

theorem hopOf_display {address : IpAddr} (hcan : canonicalPeerIp address = address) :
    hopOf text.parse (text.display address) = some address := by
  rw [hopOf, trim_display, text.parse_display, Option.map_some, hcan]

theorem hopsOf_space (parse : List UInt8 → Option IpAddr) (chain : List UInt8) :
    hopsOf parse (space :: chain) = hopsOf parse chain := by
  have hsplit : (space :: chain).splitOn comma =
      (chain.splitOn comma).modifyHead (List.cons space) :=
    List.splitOnP_cons_eq_if_modifyHead space chain
  rw [hopsOf, hopsOf, hsplit]
  cases hpieces : chain.splitOn comma with
  | nil => rfl
  | cons piece pieces =>
    have htrim : trim (space :: piece) = trim piece := rfl
    rw [List.modifyHead_cons, List.map_cons, List.map_cons, hopOf, htrim]
    rfl

/-- The server reads the printed addresses back, one hop for each. -/
theorem hopsOf_intercalate_display {addresses : List IpAddr} (hne : addresses ≠ [])
    (hcan : ∀ address ∈ addresses, canonicalPeerIp address = address) :
    hopsOf text.parse ([comma, space].intercalate (addresses.map text.display)) =
      addresses.map some := by
  induction addresses with
  | nil => exact absurd rfl hne
  | cons address rest ih =>
    obtain ⟨hadd, hrest⟩ := List.forall_mem_cons.mp hcan
    have hfirst : hopsOf text.parse (text.display address) = [some address] := by
      rw [hopsOf, splitOn_display, List.map_singleton, hopOf_display hadd]
    cases rest with
    | nil => simpa using hfirst
    | cons address' rest =>
      have happend : [comma, space].intercalate ((address :: address' :: rest).map text.display) =
          text.display address ++ comma ::
            (space :: [comma, space].intercalate ((address' :: rest).map text.display)) := by
        rw [List.map_cons, List.map_cons, List.intercalate_cons_cons]
        simp
      rw [happend, hopsOf_append, hfirst, hopsOf_space, ih (by simp) hrest]
      rfl

theorem collectCandidates_some {candidates forwarded result : List (List UInt8)}
    (h : collectCandidates text candidates forwarded = some result) :
    ∃ addresses : List IpAddr, candidates.map (hopOf text.parse) = addresses.map some ∧
      result = forwarded ++ addresses.map text.display := by
  induction candidates generalizing forwarded with
  | nil =>
    cases h
    exact ⟨[], rfl, by simp⟩
  | cons candidate rest ih =>
    rw [collectCandidates] at h
    split at h
    · cases h
    · split at h
      · cases h
      · rename_i address hadd
        obtain ⟨addresses, hhops, rfl⟩ := ih h
        refine ⟨canonicalPeerIp address :: addresses, ?_, by simp⟩
        rw [List.map_cons, hhops, hopOf, hadd]
        rfl

theorem collectValues_some {values : List HeaderValue} {forwarded result : List (List UInt8)}
    (h : collectValues text values forwarded = some result) :
    ∃ addresses : List IpAddr, (values.flatMap (List.splitOn comma)).map (hopOf text.parse) =
        addresses.map some ∧ result = forwarded ++ addresses.map text.display := by
  induction values generalizing forwarded with
  | nil =>
    cases h
    exact ⟨[], rfl, by simp⟩
  | cons value rest ih =>
    rw [collectValues] at h
    split at h
    · cases h
    · rename_i string hstring
      have hval : string = value := by
        unfold HeaderValue.toStr at hstring
        split at hstring <;> cases hstring
        rfl
      split at h
      · cases h
      · rename_i collected hcollected
        rw [hval] at hcollected
        obtain ⟨first, hfirst, rfl⟩ := collectCandidates_some hcollected
        obtain ⟨second, hsecond, rfl⟩ := ih h
        refine ⟨first ++ second, ?_, by simp⟩
        rw [List.flatMap_cons, List.map_append, hfirst, hsecond, List.map_append]

/-- The rightmost address that is not trusted, or the leftmost one, of a chain and a peer. -/
def rightmostUntrusted (trusted : IpAddr → Bool) (chain : List IpAddr) (peer : IpAddr) : IpAddr :=
  ((chain ++ [peer]).reverse.find? fun ip => !trusted ip).getD ((chain ++ [peer]).headD peer)

theorem selectHop_map_some (trusted : IpAddr → Bool) (ips : List IpAddr) (first : IpAddr) :
    selectHop trusted ((ips ++ [first]).map some) =
      .ok (((ips ++ [first]).find? fun ip => !trusted ip).getD first) := by
  induction ips with
  | nil => cases htru : trusted first <;> simp [selectHop, htru]
  | cons ip ips ih =>
    rw [List.cons_append, List.map_cons, selectHop]
    cases htru : trusted ip with
    | false => simp [htru]
    | true => simpa [htru] using ih

theorem selectHop_chain (trusted : IpAddr → Bool) (chain : List IpAddr) (peer : IpAddr) :
    selectHop trusted ((chain ++ [peer]).map some).reverse =
      .ok (rightmostUntrusted trusted chain peer) := by
  obtain ⟨first, rest, hchain⟩ : ∃ first rest, chain ++ [peer] = first :: rest := by
    cases chain with
    | nil => exact ⟨peer, [], rfl⟩
    | cons first chain => exact ⟨first, chain ++ [peer], rfl⟩
  rw [rightmostUntrusted, hchain, ← List.map_reverse, List.reverse_cons, selectHop_map_some]
  rfl

/-- The hops of the header values, in the order of the chain. -/
def forwardedHops (parse : List UInt8 → Option IpAddr) (headers : HeaderMap) :
    List (Option IpAddr) :=
  ((forwardedFor headers).flatMap (List.splitOn comma)).map (hopOf parse)

theorem forwardedFor_insert (headers : HeaderMap) (value : HeaderValue) :
    forwardedFor (headers.insert "x-forwarded-for" value) = [value] := by
  simp [forwardedFor, HeaderMap.getAll, HeaderMap.insert, HeaderMap.remove]

theorem visible_intercalate_display (addresses : List IpAddr) :
    ∀ byte ∈ [comma, space].intercalate (addresses.map text.display),
      isVisibleAscii byte = true := by
  have hdisplay : ∀ address, ∀ byte ∈ text.display address, isVisibleAscii byte = true := by
    intro address byte hbyte
    obtain ⟨hlow, hhigh⟩ := text.display_graphic address byte hbyte
    have hge : (32 : UInt8) ≤ byte := UInt8.le_trans (by decide : (32 : UInt8) ≤ 46) hlow
    simp [isVisibleAscii, hge, hhigh]
  induction addresses with
  | nil => simp [List.intercalate]
  | cons address rest ih =>
    cases rest with
    | nil => simpa using hdisplay address
    | cons address' rest =>
      rw [List.map_cons, List.map_cons, List.intercalate_cons_cons]
      intro byte hbyte
      simp only [List.mem_append, List.mem_cons, List.not_mem_nil, or_false] at hbyte
      obtain (hbyte | rfl | rfl) | hbyte := hbyte
      · exact hdisplay address byte hbyte
      · decide
      · decide
      · exact ih byte hbyte

/-- What the server makes of the headers that the container proxy writes. -/
theorem validatedProxyClientIp_sanitized {addresses : List IpAddr} {peer : IpAddr}
    (hcan : ∀ address ∈ addresses, canonicalPeerIp address = address) (headers : HeaderMap)
    (trustedHops : List IpAddr) :
    validatedProxyClientIp text.parse
        (headers.insert "x-forwarded-for" ([comma, space].intercalate
          (addresses.map text.display ++ [text.display (canonicalPeerIp peer)]))) trustedHops =
      .ok (rightmostUntrusted (isTrustedProxyPeer · trustedHops) addresses
        (canonicalPeerIp peer)) := by
  rw [show addresses.map text.display ++ [text.display (canonicalPeerIp peer)] =
    (addresses ++ [canonicalPeerIp peer]).map text.display by simp]
  have hvalues := forwardedFor_insert headers
    ([comma, space].intercalate ((addresses ++ [canonicalPeerIp peer]).map text.display))
  rw [validatedProxyClientIp_eq ?_ (by rw [hvalues]; simp)]
  · rw [chainOf, hvalues, List.intercalate_singleton, hopsOf_intercalate_display (by simp) ?_]
    · exact selectHop_chain _ _ _
    · intro address hadd
      obtain hadd | hadd := List.mem_append.mp hadd
      · exact hcan address hadd
      · rw [List.mem_singleton.mp hadd, canonicalPeerIp_idem]
  · intro value hval
    rw [hvalues, List.mem_singleton] at hval
    rw [hval]
    exact visible_intercalate_display _

theorem canonical_of_hopOf {parse : List UInt8 → Option IpAddr} {piece : List UInt8}
    {address : IpAddr} (h : hopOf parse piece = some address) :
    canonicalPeerIp address = address := by
  obtain ⟨parsed, _, rfl⟩ := Option.map_eq_some_iff.mp h
  exact canonicalPeerIp_idem parsed

theorem fromStr_some {string : List UInt8} {value : HeaderValue}
    (h : HeaderValue.fromStr string = some value) : value = string := by
  unfold HeaderValue.fromStr at h
  split at h <;> cases h
  rfl

theorem fromStr_of_visible {string : List UInt8}
    (h : ∀ byte ∈ string, isVisibleAscii byte = true) :
    HeaderValue.fromStr string = some string := by
  refine if_pos (List.all_eq_true.mpr fun byte hbyte => ?_)
  have hvis := h byte hbyte
  simp only [isVisibleAscii, Bool.or_eq_true, Bool.and_eq_true, decide_eq_true_eq] at hvis ⊢
  refine hvis.imp_left fun hrange => ⟨hrange.1, ?_⟩
  rintro rfl
  exact absurd hrange.2 (by decide)

theorem sanitizeForwardingHeaders_some {headers out : HeaderMap} {peer : IpAddr} {trusted : Bool}
    (h : sanitizeForwardingHeaders text headers peer trusted = some out) :
    ∃ chain : List IpAddr,
      (if trusted then forwardedHops text.parse headers = chain.map some else chain = []) ∧
      out = HeaderMap.insert
        (((headers.remove "forwarded").remove "x-forwarded-for").remove "connection")
        "x-forwarded-for" ([comma, space].intercalate
          (chain.map text.display ++ [text.display (canonicalPeerIp peer)])) := by
  unfold sanitizeForwardingHeaders at h
  split at h
  · cases h
  · rename_i forwarded hforwarded
    dsimp only at h
    split at h
    · cases h
    · rename_i value hval
      cases h
      rw [fromStr_some hval]
      cases trusted with
      | false =>
        cases hforwarded
        exact ⟨[], rfl, rfl⟩
      | true =>
        obtain ⟨addresses, hhops, rfl⟩ := collectValues_some hforwarded
        exact ⟨addresses, hhops, rfl⟩

/-- The server behind the container proxy finds the rightmost address that is not trusted, or
the leftmost one, in the chain that a trusted peer has sent, followed by the peer. It finds
a peer that is not trusted itself, whatever that has sent. -/
theorem container_proxy_names_the_client (text : AddressText) (config : ProxyConfig)
    (peer : IpAddr) (headers : HeaderMap) :
    let trusts := (ProxyPolicy.ofConfig config).trusts peer
    let trusted := fun ip => isTrustedProxyPeer ip config.trustedProxies
    (∀ out, sanitizeForwardingHeaders text headers peer trusts = some out →
      ∃ chain : List IpAddr,
        (if trusts then forwardedHops text.parse headers = chain.map some else chain = []) ∧
        validatedProxyClientIp text.parse out config.trustedProxies =
          .ok (rightmostUntrusted trusted chain (canonicalPeerIp peer))) ∧
    (trusts = false → ∃ out, sanitizeForwardingHeaders text headers peer trusts = some out ∧
      validatedProxyClientIp text.parse out config.trustedProxies =
        .ok (canonicalPeerIp peer)) := by
  intro trusts trusted
  have hsanitized : ∀ out, sanitizeForwardingHeaders text headers peer trusts = some out →
      ∃ chain : List IpAddr,
        (if trusts then forwardedHops text.parse headers = chain.map some else chain = []) ∧
        validatedProxyClientIp text.parse out config.trustedProxies =
          .ok (rightmostUntrusted trusted chain (canonicalPeerIp peer)) := by
    intro out hout
    obtain ⟨chain, hchain, rfl⟩ := sanitizeForwardingHeaders_some hout
    refine ⟨chain, hchain, validatedProxyClientIp_sanitized (fun address hadd => ?_) _ _⟩
    split at hchain
    · have hmem : some address ∈ forwardedHops text.parse headers := by
        rw [hchain]
        exact List.mem_map_of_mem hadd
      obtain ⟨piece, _, hpiece⟩ := List.mem_map.mp hmem
      exact canonical_of_hopOf hpiece
    · rw [hchain] at hadd
      cases hadd
  refine ⟨hsanitized, fun hunt => ?_⟩
  obtain ⟨out, hout⟩ : ∃ out, sanitizeForwardingHeaders text headers peer trusts = some out := by
    have hval := fromStr_of_visible (@visible_intercalate_display text [canonicalPeerIp peer])
    rw [hunt, sanitizeForwardingHeaders]
    simp only [Bool.false_eq_true, if_false, List.nil_append]
    exact ⟨_, by rw [show [text.display (canonicalPeerIp peer)] =
      [canonicalPeerIp peer].map text.display from rfl, hval]⟩
  obtain ⟨chain, hchain, hres⟩ := hsanitized out hout
  rw [hunt] at hchain
  refine ⟨out, hout, ?_⟩
  rw [hres, show chain = [] from hchain]
  cases htru : trusted (canonicalPeerIp peer) <;> simp [rightmostUntrusted, htru]

def decimal (n : ℕ) : List UInt8 := (Nat.toDigits 10 n).map fun c => UInt8.ofNat c.toNat

def decimalNat (text : List UInt8) : ℕ :=
  Nat.ofDigitChars 10 (text.map fun byte => Char.ofNat byte.toNat) 0

theorem toNat_digit {n : ℕ} {c : Char} (h : c ∈ Nat.toDigits 10 n) :
    48 ≤ c.toNat ∧ c.toNat ≤ 57 :=
  Char.isDigit_iff_toNat.mp (Nat.isDigit_of_mem_toDigits (by decide) (by decide) h)

theorem mem_decimal {n : ℕ} {byte : UInt8} (h : byte ∈ decimal n) : 48 ≤ byte ∧ byte ≤ 57 := by
  obtain ⟨c, hc, rfl⟩ := List.mem_map.mp h
  have hdigit := toNat_digit hc
  rw [UInt8.le_iff_toNat_le, UInt8.le_iff_toNat_le, UInt8.toNat_ofNat']
  simp
  omega

theorem decimalNat_decimal (n : ℕ) : decimalNat (decimal n) = n := by
  have hbytes : ∀ c ∈ Nat.toDigits 10 n, Char.ofNat (UInt8.ofNat c.toNat).toNat = c := by
    intro c hc
    have hdigit := toNat_digit hc
    rw [UInt8.toNat_ofNat_of_lt' (by simp [UInt8.size]; omega), Char.ofNat_toNat]
  have hchars : (decimal n).map (fun byte => Char.ofNat byte.toNat) = Nat.toDigits 10 n := by
    rw [decimal, List.map_map]
    exact (List.map_congr_left hbytes).trans (List.map_id _)
  rw [decimalNat, hchars, Nat.ofDigitChars_ten_toDigits]

/-- The octets of an IPv4 address, and the number of an IPv6 address. -/
def octets : IpAddr → List ℕ
  | .v4 address => [address.toNat / 16777216, address.toNat / 65536 % 256,
      address.toNat / 256 % 256, address.toNat % 256]
  | .v6 address => [address.toNat]

/-- Addresses in dotted decimals. -/
def dottedText : AddressText where
  parse text :=
    match (text.splitOn 46).map decimalNat with
    | [a, b, c, d] => some (.v4 (BitVec.ofNat 32 (((a * 256 + b) * 256 + c) * 256 + d)))
    | [n] => some (.v6 (BitVec.ofNat 128 n))
    | _ => none
  display address := [46].intercalate ((octets address).map decimal)
  parse_display address := by
    have hsplit : ([46].intercalate ((octets address).map decimal)).splitOn 46 =
        (octets address).map decimal := by
      refine List.splitOn_intercalate 46 (fun text htext hdot => ?_) (by cases address <;> nofun)
      obtain ⟨n, _, rfl⟩ := List.mem_map.mp htext
      exact absurd (mem_decimal hdot).1 (by decide)
    rw [hsplit, List.map_map, show decimalNat ∘ decimal = id from funext decimalNat_decimal,
      List.map_id]
    cases address with
    | v4 address =>
      have hnat : ((address.toNat / 16777216 * 256 + address.toNat / 65536 % 256) * 256 +
          address.toNat / 256 % 256) * 256 + address.toNat % 256 = address.toNat := by
        omega
      simp only [octets, hnat, BitVec.ofNat_toNat, BitVec.setWidth_eq]
    | v6 address => simp [octets]
  display_graphic address byte h := by
    have hdigit {n : ℕ} (h : byte ∈ decimal n) : 46 ≤ byte ∧ byte < 127 :=
      ⟨UInt8.le_trans (by decide) (mem_decimal h).1,
        UInt8.lt_of_le_of_lt (mem_decimal h).2 (by decide)⟩
    cases address with
    | v4 =>
      simp only [octets, List.map_cons, List.map_nil, List.intercalate_cons_cons,
        List.intercalate_singleton, List.mem_append, List.mem_singleton] at h
      obtain (h | rfl) | (h | rfl) | (h | rfl) | h := h <;> first | exact hdigit h | decide
    | v6 => exact hdigit (by simpa [octets] using h)

/-- A trusted peer forwards an address that is not trusted; a stranger claims the same. -/
theorem container_proxy_names_the_client_dotted :
    let config : ProxyConfig := ⟨.reverseProxy, true, [.v6 0xffff0a000001#128], true⟩
    let headers : HeaderMap := [("x-forwarded-for", "203.0.113.7".toUTF8.toList)]
    (∃ out, sanitizeForwardingHeaders dottedText headers (.v4 0x0a000001) true = some out ∧
      validatedProxyClientIp dottedText.parse out config.trustedProxies = .ok (.v4 0xcb007107)) ∧
    ∃ out, sanitizeForwardingHeaders dottedText headers (.v4 0xc6336409) false = some out ∧
      validatedProxyClientIp dottedText.parse out config.trustedProxies = .ok (.v4 0xc6336409) := by
  intro config headers
  obtain ⟨out, hout⟩ := Option.isSome_iff_exists.mp (by decide +kernel :
    (sanitizeForwardingHeaders dottedText headers (.v4 0x0a000001) true).isSome)
  refine ⟨⟨out, hout, ?_⟩, ?_⟩
  · have htrusts : (ProxyPolicy.ofConfig config).trusts (.v4 0x0a000001) = true := by
      decide +kernel
    obtain ⟨chain, hchain, hres⟩ :=
      (container_proxy_names_the_client dottedText config (.v4 0x0a000001) headers).1 out
        (by rw [htrusts]; exact hout)
    rw [htrusts] at hchain
    have hhops : forwardedHops dottedText.parse headers = [IpAddr.v4 0xcb007107].map some := by
      decide +kernel
    have hclient : chain = [.v4 0xcb007107] :=
      List.map_injective_iff.mpr (fun _ _ => Option.some.inj) (hchain.symm.trans hhops)
    rw [hres, hclient]
    decide +kernel
  · exact (container_proxy_names_the_client dottedText config (.v4 0xc6336409) headers).2
      (by decide +kernel)

end ContainerProxy

end VaultLink
