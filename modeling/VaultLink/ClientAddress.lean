import VaultLink.ForwardedHeaders

/-!
# The rightmost hop that is not trusted

Both functions of the server walk along the chain of forwarded addresses from the right and
stop at the first address that is not trusted; what is to the left of it was written by
somebody who is not trusted and is not even read. How the chain is cut into header lines is
gone once the values are split at their commas.
-/
namespace VaultLink

section Selection

variable {trusted : IpAddr → Bool} {ip : IpAddr} {hops right left : List (Option IpAddr)}

/-- The choice of a hop among those of a chain, from the right; a hop that is no address is
`none`. -/
def selectHop (trusted : IpAddr → Bool) : List (Option IpAddr) → Except InvalidForwardedFor IpAddr
  | [] => .error .invalid
  | none :: _ => .error .invalid
  | some ip :: left =>
    if trusted ip && !left.isEmpty then selectHop trusted left else .ok ip

/-- An address that is trusted. -/
def TrustedHop (trusted : IpAddr → Bool) (hop : Option IpAddr) : Prop :=
  ∃ ip, hop = some ip ∧ trusted ip = true

theorem selectHop_some_append (hrig : ∀ hop ∈ right, TrustedHop trusted hop)
    (hleft : left ≠ []) : selectHop trusted (right ++ left) = selectHop trusted left := by
  induction right with
  | nil => rfl
  | cons hop right ih =>
    obtain ⟨⟨ip, rfl, hip⟩, hrest⟩ := List.forall_mem_cons.mp hrig
    have hne : (right ++ left).isEmpty = false := by simp [hleft]
    rw [List.cons_append, selectHop, hip, hne]
    exact ih hrest

theorem selectHop_eq_ok_iff :
    selectHop trusted hops = .ok ip ↔
      ∃ right left, hops = right ++ some ip :: left ∧
        (∀ hop ∈ right, TrustedHop trusted hop) ∧ (trusted ip = false ∨ left = []) := by
  constructor
  · intro h
    induction hops with
    | nil => cases h
    | cons hop left ih =>
      cases hop with
      | none => cases h
      | some first =>
        rw [selectHop] at h
        split at h
        · rename_i hpas
          rw [Bool.and_eq_true] at hpas
          obtain ⟨right, left', rfl, hrig, hend⟩ := ih h
          refine ⟨some first :: right, left', rfl, ?_, hend⟩
          exact List.forall_mem_cons.mpr ⟨⟨first, rfl, hpas.1⟩, hrig⟩
        · rename_i hstop
          cases h
          refine ⟨[], left, rfl, by simp, ?_⟩
          rw [Bool.and_eq_true, not_and] at hstop
          by_cases hip : trusted ip = true
          · exact .inr (by simpa using hstop hip)
          · exact .inl (by simpa using hip)
  · rintro ⟨right, left, rfl, hrig, hend⟩
    rw [selectHop_some_append hrig (by simp), selectHop, if_neg]
    rw [Bool.and_eq_true, not_and]
    intro hip
    obtain hunt | rfl := hend
    · rw [hunt] at hip
      cases hip
    · simp

theorem selectHop_eq_error_iff :
    selectHop trusted hops = .error .invalid ↔
      hops = [] ∨ ∃ right left, hops = right ++ none :: left ∧
        ∀ hop ∈ right, TrustedHop trusted hop := by
  constructor
  · intro h
    induction hops with
    | nil => exact .inl rfl
    | cons hop left ih =>
      refine .inr ?_
      cases hop with
      | none => exact ⟨[], left, rfl, by simp⟩
      | some first =>
        rw [selectHop] at h
        split at h
        · rename_i hpas
          rw [Bool.and_eq_true] at hpas
          obtain rfl | ⟨right, left', rfl, hrig⟩ := ih h
          · simp at hpas
          · refine ⟨some first :: right, left', rfl, ?_⟩
            exact List.forall_mem_cons.mpr ⟨⟨first, rfl, hpas.1⟩, hrig⟩
        · cases h
  · rintro (rfl | ⟨right, left, rfl, hrig⟩)
    · rfl
    · rw [selectHop_some_append hrig (by simp)]
      rfl

theorem selectHop_reverse_eq_ok_iff :
    selectHop trusted hops.reverse = .ok ip ↔
      ∃ left right, hops = left ++ some ip :: right ∧
        (∀ hop ∈ right, TrustedHop trusted hop) ∧ (trusted ip = false ∨ left = []) := by
  rw [selectHop_eq_ok_iff]
  constructor
  · rintro ⟨right, left, hhops, hrig, hend⟩
    refine ⟨left.reverse, right.reverse, ?_, by simpa using hrig, by simpa using hend⟩
    rw [← List.reverse_reverse hops, hhops]
    simp
  · rintro ⟨left, right, rfl, hrig, hend⟩
    exact ⟨right.reverse, left.reverse, by simp, by simpa using hrig, by simpa using hend⟩

theorem selectHop_reverse_eq_error_iff :
    selectHop trusted hops.reverse = .error .invalid ↔
      hops = [] ∨ ∃ left right, hops = left ++ none :: right ∧
        ∀ hop ∈ right, TrustedHop trusted hop := by
  rw [selectHop_eq_error_iff, List.reverse_eq_nil_iff]
  refine or_congr_right ⟨?_, ?_⟩
  · rintro ⟨right, left, hhops, hrig⟩
    refine ⟨left.reverse, right.reverse, ?_, by simpa using hrig⟩
    rw [← List.reverse_reverse hops, hhops]
    simp
  · rintro ⟨left, right, rfl, hrig⟩
    exact ⟨right.reverse, left.reverse, by simp, by simpa using hrig⟩

/-- An untrusted hop is chosen whatever is to the left of it. -/
theorem selectHop_append (h : selectHop trusted right = .ok ip) (hip : trusted ip = false)
    (left : List (Option IpAddr)) : selectHop trusted (right ++ left) = .ok ip := by
  obtain ⟨right', left', rfl, hrig, _⟩ := selectHop_eq_ok_iff.mp h
  exact selectHop_eq_ok_iff.mpr ⟨right', left' ++ left, by simp, hrig, .inl hip⟩

/-- An untrusted hop that was chosen stands left of trusted ones only. -/
theorem selectHop_of_append (h : selectHop trusted (right ++ left) = .ok ip)
    (hip : trusted ip = false) (hmem : some ip ∈ right) : selectHop trusted right = .ok ip := by
  cases hres : selectHop trusted right with
  | error error =>
    cases error
    obtain rfl | ⟨before, after, rfl, hbef⟩ := selectHop_eq_error_iff.mp hres
    · cases hmem
    · have herr : selectHop trusted (before ++ none :: after ++ left) = .error .invalid :=
        selectHop_eq_error_iff.mpr (.inr ⟨before, after ++ left, by simp, hbef⟩)
      rw [h] at herr
      cases herr
  | ok =>
    obtain ⟨before, after, rfl, hbef, hend⟩ := selectHop_eq_ok_iff.mp hres
    obtain hfirst | rfl := hend
    · have := selectHop_append hres hfirst left
      rw [h] at this
      exact this.symm
    · -- All hops would be trusted, apart from the last one.
      rcases List.mem_append.mp hmem with hmem | hmem
      · obtain ⟨ip', hip', htru⟩ := hbef _ hmem
        cases hip'
        rw [hip] at htru
        cases htru
      · rw [List.mem_singleton, Option.some.injEq] at hmem
        rw [hmem]

end Selection

section Chains

variable (parse : List UInt8 → Option IpAddr)

def forwardedFor (headers : HeaderMap) : List HeaderValue := headers.getAll "x-forwarded-for"

/-- The values joined with commas. -/
def chainOf (headers : HeaderMap) : List UInt8 := [comma].intercalate (forwardedFor headers)

/-- The canonical address that a part of a chain stands for. -/
def hopOf (piece : List UInt8) : Option IpAddr := (parse (trim piece)).map canonicalPeerIp

def hopsOf (chain : List UInt8) : List (Option IpAddr) := (chain.splitOn comma).map (hopOf parse)

theorem splitOn_comma_append (chain rest : List UInt8) :
    (chain ++ comma :: rest).splitOn comma = chain.splitOn comma ++ rest.splitOn comma :=
  List.splitOnP_append_cons chain rest (by simp)

theorem hopsOf_append (chain rest : List UInt8) :
    hopsOf parse (chain ++ comma :: rest) = hopsOf parse chain ++ hopsOf parse rest := by
  rw [hopsOf, splitOn_comma_append, List.map_append]
  rfl

/-- Splitting the values one by one splits the chain. -/
theorem flatMap_splitOn {values : List HeaderValue} (h : values ≠ []) :
    values.flatMap (List.splitOn comma) = ([comma].intercalate values).splitOn comma := by
  induction values with
  | nil => exact absurd rfl h
  | cons value values ih =>
    cases values with
    | nil => simp
    | cons =>
      rw [List.flatMap_cons, ih (by simp), List.intercalate_cons_cons, List.append_assoc,
        List.singleton_append, splitOn_comma_append]

end Chains

section Walk

variable {parse : List UInt8 → Option IpAddr} {trustedHops : List IpAddr}

/-- What the function returns after its loops. -/
def conclude : Loop (Option IpAddr) → Except InvalidForwardedFor IpAddr
  | .error result => result
  | .ok none => .error .invalid
  | .ok (some ip) => .ok ip

theorem proxyCandidates_untrusted {ip : IpAddr} (h : isTrustedProxyPeer ip trustedHops = false)
    (candidate : List UInt8) (rest : List (List UInt8)) :
    proxyCandidates parse trustedHops (candidate :: rest) (some ip) = .error (.ok ip) := by
  simp [proxyCandidates, Option.filter, h]

theorem proxyCandidates_trusted {ip : IpAddr} (h : isTrustedProxyPeer ip trustedHops = true)
    (candidate : List UInt8) (rest : List (List UInt8)) :
    proxyCandidates parse trustedHops (candidate :: rest) (some ip) =
      proxyCandidates parse trustedHops (candidate :: rest) none := by
  simp [proxyCandidates, Option.filter, h]

/-- The address the loop holds is a hop that it has read and not yet judged. -/
theorem conclude_proxyCandidates (candidates : List (List UInt8)) (current : Option IpAddr) :
    conclude (proxyCandidates parse trustedHops candidates current) =
      selectHop (isTrustedProxyPeer · trustedHops)
        (current.toList.map some ++ candidates.map (hopOf parse)) := by
  induction candidates generalizing current with
  | nil =>
    cases current with
    | none => rfl
    | some => simp [proxyCandidates, conclude, selectHop]
  | cons candidate rest ih =>
    have hnone : conclude (proxyCandidates parse trustedHops (candidate :: rest) none) =
        selectHop (isTrustedProxyPeer · trustedHops)
          (hopOf parse candidate :: rest.map (hopOf parse)) := by
      cases hparse : parse (trim candidate) with
      | none => simp [proxyCandidates, hparse, conclude, selectHop, hopOf]
      | some => simp [proxyCandidates, hparse, ih, hopOf]
    cases current with
    | none => exact hnone
    | some ip =>
      cases htru : isTrustedProxyPeer ip trustedHops with
      | false => simp [proxyCandidates_untrusted htru, conclude, selectHop, htru]
      | true => simp [proxyCandidates_trusted htru, hnone, selectHop, htru]

theorem proxyCandidates_append (first second : List (List UInt8)) (current : Option IpAddr) :
    proxyCandidates parse trustedHops (first ++ second) current =
      proxyCandidates parse trustedHops first current >>=
        proxyCandidates parse trustedHops second := by
  induction first generalizing current with
  | nil => rfl
  | cons candidate rest ih =>
    rw [List.cons_append, proxyCandidates, proxyCandidates]
    split
    · rfl
    · split
      · rfl
      · exact ih _

theorem toStr_of_visible {value : HeaderValue} (h : ∀ byte ∈ value, isVisibleAscii byte = true) :
    value.toStr = some value := by
  rw [HeaderValue.toStr, if_pos (List.all_eq_true.mpr h)]

theorem proxyValues_eq {values : List HeaderValue}
    (hvis : ∀ value ∈ values, ∀ byte ∈ value, isVisibleAscii byte = true)
    (current : Option IpAddr) :
    proxyValues parse trustedHops values current =
      proxyCandidates parse trustedHops (values.flatMap rsplit) current := by
  induction values generalizing current with
  | nil => rfl
  | cons value rest ih =>
    obtain ⟨hval, hrest⟩ := List.forall_mem_cons.mp hvis
    rw [proxyValues, toStr_of_visible hval, List.flatMap_cons, proxyCandidates_append]
    dsimp only
    congr 1
    funext current
    exact ih hrest current

/-- The loops of the other function hold an address from the beginning. -/
theorem effectiveCandidates_eq (candidates : List (List UInt8)) (current : IpAddr) :
    (effectiveCandidates parse trustedHops (candidates.map trim) current).map some =
      proxyCandidates parse trustedHops candidates (some current) := by
  induction candidates generalizing current with
  | nil => rfl
  | cons candidate rest ih =>
    rw [List.map_cons, effectiveCandidates]
    cases htru : isTrustedProxyPeer current trustedHops with
    | false =>
      rw [proxyCandidates_untrusted htru]
      rfl
    | true =>
      rw [proxyCandidates_trusted htru, proxyCandidates]
      cases hparse : parse (trim candidate) with
      | none => rfl
      | some address => exact ih (canonicalPeerIp address)

theorem effectiveValues_eq (values : List HeaderValue) (current : IpAddr) :
    (effectiveValues parse trustedHops values current).map some =
      proxyValues parse trustedHops values (some current) := by
  induction values generalizing current with
  | nil => rfl
  | cons value rest ih =>
    rw [effectiveValues, proxyValues]
    cases value.toStr with
    | none => rfl
    | some text =>
      dsimp only
      rw [← effectiveCandidates_eq]
      cases effectiveCandidates parse trustedHops ((rsplit text).map trim) current with
      | error => rfl
      | ok current => exact ih current

end Walk

section Server

variable {parse : List UInt8 → Option IpAddr} {trustedHops : List IpAddr} {headers : HeaderMap}

/-- The values consist of visible ASCII. -/
def Visible (headers : HeaderMap) : Prop :=
  ∀ value ∈ forwardedFor headers, ∀ byte ∈ value, isVisibleAscii byte = true

instance (headers : HeaderMap) : Decidable (Visible headers) :=
  inferInstanceAs (Decidable (∀ value ∈ forwardedFor headers, ∀ byte ∈ value, _))

theorem proxyValues_of_visible (hvis : Visible headers) (hsome : forwardedFor headers ≠ [])
    (current : Option IpAddr) :
    proxyValues parse trustedHops (forwardedFor headers).reverse current =
      proxyCandidates parse trustedHops ((chainOf headers).splitOn comma).reverse current := by
  rw [proxyValues_eq fun value hval => hvis value (List.mem_reverse.mp hval), chainOf,
    ← flatMap_splitOn hsome, List.reverse_flatMap]
  rfl

/-- The function chooses among the hops of the chain. -/
theorem validatedProxyClientIp_eq (hvis : Visible headers) (hsome : forwardedFor headers ≠ []) :
    validatedProxyClientIp parse headers trustedHops =
      selectHop (isTrustedProxyPeer · trustedHops) (hopsOf parse (chainOf headers)).reverse := by
  have hconclude : validatedProxyClientIp parse headers trustedHops =
      conclude (proxyValues parse trustedHops (forwardedFor headers).reverse none) := rfl
  rw [hconclude, proxyValues_of_visible hvis hsome, conclude_proxyCandidates, hopsOf,
    ← List.map_reverse]
  rfl

theorem validatedProxyClientIp_of_none (hnone : forwardedFor headers = []) :
    validatedProxyClientIp parse headers trustedHops = .error .invalid := by
  have hvalues : headers.getAll "x-forwarded-for" = [] := hnone
  rw [validatedProxyClientIp, hvalues]
  rfl

theorem isTrustedProxyPeer_canonical (peer : IpAddr) :
    isTrustedProxyPeer (canonicalPeerIp peer) trustedHops =
      isTrustedProxyPeer peer trustedHops := by
  rw [isTrustedProxyPeer, canonicalPeerIp_idem]
  rfl

theorem validatedEffectiveClientIp_of_untrusted {peer : IpAddr} {config : ProxyConfig}
    (h : isTrustedProxyPeer peer config.trustedProxies = false) :
    validatedEffectiveClientIp parse peer headers config = .ok (canonicalPeerIp peer) := by
  rw [← isTrustedProxyPeer_canonical] at h
  simp [validatedEffectiveClientIp, h]

/-- A trusted peer stands to the right of the chain and is passed. -/
theorem validatedEffectiveClientIp_of_trusted {peer : IpAddr} {config : ProxyConfig}
    (hmode : config.mode = .reverseProxy) (henabled : config.enabled = true)
    (htrust : config.trustXForwardedHeaders = true)
    (hpeer : isTrustedProxyPeer peer config.trustedProxies = true)
    (hvis : Visible headers) (hsome : forwardedFor headers ≠ []) :
    validatedEffectiveClientIp parse peer headers config =
      validatedProxyClientIp parse headers config.trustedProxies := by
  rw [← isTrustedProxyPeer_canonical] at hpeer
  have hconclude : validatedEffectiveClientIp parse peer headers config =
      conclude (proxyValues parse config.trustedProxies (forwardedFor headers).reverse
        (some (canonicalPeerIp peer))) := by
    rw [← effectiveValues_eq]
    simp only [validatedEffectiveClientIp, hmode, henabled, htrust, hpeer, forwardedFor]
    cases effectiveValues parse config.trustedProxies
      (headers.getAll "x-forwarded-for").reverse (canonicalPeerIp peer) <;> rfl
  rw [hconclude, proxyValues_of_visible hvis hsome, validatedProxyClientIp_eq hvis hsome,
    hopsOf, ← List.map_reverse]
  have hne : ((chainOf headers).splitOn comma).reverse ≠ [] := by
    simp [List.splitOn_ne_nil]
  cases hpieces : ((chainOf headers).splitOn comma).reverse with
  | nil => exact absurd hpieces hne
  | cons =>
    rw [proxyCandidates_trusted hpeer, conclude_proxyCandidates]
    rfl

/-- The chain ends with these hops, whatever stands to the left of them. -/
def EndsWith (chain suffix : List UInt8) : Prop :=
  chain = suffix ∨ ∃ text, chain = text ++ comma :: suffix

theorem EndsWith.hopsOf_reverse {chain suffix : List UInt8} (h : EndsWith chain suffix) :
    ∃ left, (hopsOf parse chain).reverse = (hopsOf parse suffix).reverse ++ left := by
  obtain rfl | ⟨text, rfl⟩ := h
  · exact ⟨[], (List.append_nil _).symm⟩
  · exact ⟨(hopsOf parse text).reverse, by rw [hopsOf_append, List.reverse_append]⟩

/-- `validated_proxy_client_ip` returns the rightmost hop of the chain that is not trusted,
or the leftmost one, and fails only at a hop that it has to pass. Neither the way the chain
is cut into values nor what stands to the left of an untrusted hop makes a difference, and
`validated_effective_client_ip` agrees with it for a trusted peer and returns any other. -/
theorem client_is_rightmost_untrusted_hop (parse : List UInt8 → Option IpAddr)
    (trustedHops : List IpAddr) (headers : HeaderMap) (hvisible : Visible headers) :
    let trusted := fun ip => isTrustedProxyPeer ip trustedHops
    let result := validatedProxyClientIp parse headers trustedHops
    (∀ ip, result = .ok ip ↔ forwardedFor headers ≠ [] ∧
      ∃ left right, hopsOf parse (chainOf headers) = left ++ some ip :: right ∧
        (∀ hop ∈ right, TrustedHop trusted hop) ∧ (trusted ip = false ∨ left = [])) ∧
    (result = .error .invalid ↔ forwardedFor headers = [] ∨
      ∃ left right, hopsOf parse (chainOf headers) = left ++ none :: right ∧
        ∀ hop ∈ right, TrustedHop trusted hop) ∧
    (∀ headers', Visible headers' → forwardedFor headers ≠ [] → forwardedFor headers' ≠ [] →
      chainOf headers' = chainOf headers →
        validatedProxyClientIp parse headers' trustedHops = result) ∧
    (∀ headers' suffix ip, Visible headers' → forwardedFor headers' ≠ [] →
      EndsWith (chainOf headers) suffix → EndsWith (chainOf headers') suffix →
      result = .ok ip → trusted ip = false → some ip ∈ hopsOf parse suffix →
        validatedProxyClientIp parse headers' trustedHops = .ok ip) ∧
    (∀ peer config, config.trustedProxies = trustedHops → config.mode = .reverseProxy →
      config.enabled = true → config.trustXForwardedHeaders = true →
      isTrustedProxyPeer peer trustedHops = true → forwardedFor headers ≠ [] →
        validatedEffectiveClientIp parse peer headers config = result) ∧
    ∀ peer headers' config, isTrustedProxyPeer peer config.trustedProxies = false →
      validatedEffectiveClientIp parse peer headers' config = .ok (canonicalPeerIp peer) := by
  intro trusted result
  have hres : forwardedFor headers ≠ [] →
      result = selectHop trusted (hopsOf parse (chainOf headers)).reverse :=
    validatedProxyClientIp_eq hvisible
  have hmis : forwardedFor headers = [] → result = .error .invalid :=
    validatedProxyClientIp_of_none
  refine ⟨fun ip => ?_, ?_, ?_, ?_, ?_, ?_⟩
  · by_cases hsome : forwardedFor headers = []
    · simp [hmis hsome, hsome]
    · rw [hres hsome, selectHop_reverse_eq_ok_iff, and_iff_right hsome]
  · by_cases hsome : forwardedFor headers = []
    · simp [hmis hsome, hsome]
    · have hhops : hopsOf parse (chainOf headers) ≠ [] := by
        simp [hopsOf, List.splitOn_ne_nil]
      rw [hres hsome, selectHop_reverse_eq_error_iff, or_iff_right hhops, or_iff_right hsome]
  · intro headers' hvis' hsome hsome' hchain
    rw [hres hsome, validatedProxyClientIp_eq hvis' hsome', hchain]
  · intro headers' suffix ip hvis' hsome' hends hends' hip hunt hmem
    have hsome : forwardedFor headers ≠ [] := by
      intro hnone
      rw [hmis hnone] at hip
      cases hip
    obtain ⟨left, hleft⟩ : ∃ left, (hopsOf parse (chainOf headers)).reverse =
        (hopsOf parse suffix).reverse ++ left := hends.hopsOf_reverse
    obtain ⟨left', hleft'⟩ : ∃ left, (hopsOf parse (chainOf headers')).reverse =
        (hopsOf parse suffix).reverse ++ left := hends'.hopsOf_reverse
    rw [hres hsome, hleft] at hip
    have hsuf := selectHop_of_append hip hunt (List.mem_reverse.mpr hmem)
    rw [validatedProxyClientIp_eq hvis' hsome', hleft']
    exact selectHop_append hsuf hunt left'
  · rintro peer config rfl hmode henabled htrust hpeer hsome
    exact validatedEffectiveClientIp_of_trusted hmode henabled htrust hpeer hvisible hsome
  · exact fun peer headers' config => validatedEffectiveClientIp_of_untrusted

/-- Addresses of one byte, for short chains. -/
def parseByte : List UInt8 → Option IpAddr
  | [byte] => some (.v4 (BitVec.ofNat 32 byte.toNat))
  | _ => none

/-- `?, 2` and `3` in two header lines. -/
def twoLines : HeaderMap :=
  [("x-forwarded-for", [63, 44, 32, 50]), ("host", [104]), ("x-forwarded-for", [51])]

theorem client_is_rightmost_untrusted_hop_twoLines :
    validatedProxyClientIp parseByte twoLines [.v4 51] = .ok (.v4 50) ∧
      validatedEffectiveClientIp parseByte (.v6 0xffff00000033#128) twoLines
        ⟨.reverseProxy, true, [.v4 51], true⟩ = .ok (.v4 50) := by
  have h := client_is_rightmost_untrusted_hop parseByte [.v4 51] twoLines (by decide +kernel)
  have hres : validatedProxyClientIp parseByte twoLines [.v4 51] = .ok (.v4 50) := by
    refine (h.1 (.v4 50)).mpr ⟨by decide, [some (.v4 63)], [some (.v4 51)], by decide +kernel,
      ?_, .inl (by decide)⟩
    intro hop hhop
    exact ⟨.v4 51, List.mem_singleton.mp hhop, by decide⟩
  refine ⟨hres, ?_⟩
  rw [h.2.2.2.2.1 _ _ rfl rfl rfl rfl (by decide +kernel) (by decide)]
  exact hres

end Server

end VaultLink
