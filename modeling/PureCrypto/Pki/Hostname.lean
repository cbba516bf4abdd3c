import PureCrypto.Pki.NameConstraints

/-!
# Host names against name constraints

`verify_hostname`, and what the constraints on a path say about a host it accepts. The matcher
falls back to any common name, the check of the constraints only to a plausible one.
-/
namespace PureCrypto.Pki
open List
open Tls (Error)
def SanIp.isHost : SanIp → HostIp → Bool
  | .v4 a, .v4 b => a == b
  | .v6 a, .v6 b => a == b
  | _, _ => false

def hostMatches (cert : Certificate) (host : Bytes) : Parsed Bool :=
  match parseHostIp host with
  | some ip => do
      let ips ← cert.subjectAltIps
      return ips.any fun san => san.isHost ip
  | none => do
      if ← cert.hasSubjectAltName then
        let sans ← cert.subjectAltNames
        return sans.any fun pattern => dnsNameMatches pattern host
      else
        let cn ← cert.commonName
        return cn.any fun cn => dnsNameMatches cn host

def verifyHostname (cert : Certificate) (host : Bytes) : Except Error Unit := do
  if ← orBad (hostMatches cert host) then .ok () else .error .badCertificate

/-- The constraints in scope at the leaf: the anchor's, and those of every CA above it. -/
def Governs (anchor : Option NameConstraints) (cas : List Certificate) (nc : NameConstraints) : Prop :=
  anchor = some nc ∨ ∃ ca ∈ cas, ca.nameConstraints = .ok (some nc)
variable {names : NameReader} {leaf : Certificate} {cas : List Certificate}
  {anchor : Option NameConstraints} {nc : NameConstraints}
theorem mem_zip_of_mapM {α β ε : Type} {f : α → Except ε β} {l : List α} {m : List β}
    (h : l.mapM f = .ok m) {a : α} {b : β} (ha : a ∈ l) (hb : f a = .ok b) : (a, b) ∈ l.zip m := by
  induction l generalizing m with
  | nil => cases ha
  | cons x l ih =>
    rw [mapM_cons] at h
    obtain ⟨y,hy,h⟩ := bind_eq_ok.mp h
    obtain ⟨m,hm,h⟩ := bind_eq_ok.mp h
    cases h
    rcases List.mem_cons.mp ha with rfl | ha
    · rw [hb,Except.ok.injEq] at hy
      rw [hy]
      exact mem_cons_self
    · exact mem_cons_of_mem _ (ih hm ha)
variable {active : List NameConstraints} {p : PresentedNames} {ip : HostIp} {sans dns : List Bytes}
/-- The walk reaches the leaf with everything above it in scope. -/
theorem enforceBelow_leaf {above : List (Certificate × Option NameConstraints)}
    (h : enforceBelow names active (above ++ [(leaf, none)]) = .ok ()) :
    enforceAt names (active ++ above.flatMap fun c => c.2.toList) leaf true = .ok () := by
  induction above generalizing active with
  | nil =>
    obtain ⟨_,hleaf,-⟩ := bind_eq_ok.mp h
    simpa using hleaf
  | cons c above ih =>
    obtain ⟨_,-,hbelow⟩ := bind_eq_ok.mp h
    have := ih hbelow
    rwa [append_assoc] at this

theorem enforceAt_leaf (hne : active ≠ []) (h : enforceAt names active leaf true = .ok ()) :
    ∃ hasSan p, leaf.hasSubjectAltName = .ok hasSan ∧ presentedNames names leaf true hasSan = .ok p ∧
      namelessLeaf p active true hasSan = false ∧ ∀ nc ∈ active, nc.admits names p = true := by
  obtain ⟨selfIssued,hself,h⟩ := bind_eq_ok.mp h
  cases hself
  rw [if_neg (by simpa using hne)] at h
  obtain ⟨hasSan,hsan,h⟩ := bind_eq_ok.mp h
  obtain ⟨p,hp,h⟩ := bind_eq_ok.mp h
  split_ifs at h with hnameless hadmits
  · refine ⟨hasSan,p,orBad_eq_ok.mp hsan,orBad_eq_ok.mp hp,by simpa using hnameless,?_⟩
    exact List.all_eq_true.mp hadmits

theorem enforceNameConstraints_leaf (h : enforceNameConstraints names (leaf :: cas) anchor = .ok ())
    (hnc : Governs anchor cas nc) :
    ∃ hasSan p, leaf.hasSubjectAltName = .ok hasSan ∧ presentedNames names leaf true hasSan = .ok p ∧
      nc.admits names p = true ∧ (hasSan = false → p.dns = [] → nc.permitted.dns = [] ∧ nc.permitted.ip = []) := by
  obtain ⟨own,hown,h⟩ := bind_eq_ok.mp h
  rw [zip_cons_cons,reverse_cons] at h
  have hleaf := enforceBelow_leaf h
  have hmem : nc ∈ anchor.toList ++ ((cas.zip own).reverse.flatMap fun c => c.2.toList) := by
    rcases hnc with rfl | ⟨ca,hca,hconstraints⟩
    · exact mem_append_left _ (by simp)
    · apply mem_append_right
      have hzip := mem_zip_of_mapM hown hca (orBad_eq_ok.mpr hconstraints)
      exact mem_flatMap.mpr ⟨_,mem_reverse.mpr hzip,by simp⟩
  obtain ⟨hasSan,p,hsan,hp,hnameless,hadmits⟩ := enforceAt_leaf (ne_nil_of_mem hmem) hleaf
  refine ⟨hasSan,p,hsan,hp,hadmits nc hmem,fun hfalse hdns => ?_⟩
  simp only [namelessLeaf,hfalse,hdns,Bool.true_and,Bool.not_false,isEmpty_nil,List.any_eq_false] at hnameless
  simpa using hnameless nc hmem

theorem presentedNames_dns {hasSan : Bool} (h : presentedNames names leaf true hasSan = .ok p) :
    ∃ sans, leaf.subjectAltNames = .ok sans ∧ dnsNames leaf true hasSan sans = .ok p.dns ∧
      leaf.subjectAltIps = .ok p.ips := by
  obtain ⟨sans,hsans,h⟩ := bind_eq_ok.mp h
  obtain ⟨ips,hips,h⟩ := bind_eq_ok.mp h
  obtain ⟨_,-,h⟩ := bind_eq_ok.mp h
  obtain ⟨_,-,h⟩ := bind_eq_ok.mp h
  obtain ⟨_,-,h⟩ := bind_eq_ok.mp h
  obtain ⟨_,-,h⟩ := bind_eq_ok.mp h
  obtain ⟨_,-,h⟩ := bind_eq_ok.mp h
  obtain ⟨dns,hdns,h⟩ := bind_eq_ok.mp h
  obtain ⟨_,-,h⟩ := bind_eq_ok.mp h
  cases h
  exact ⟨sans,hsans,hdns,hips⟩

/-- `host` keeps to the constraint, as an address if it is one and as a DNS name otherwise. -/
def Respects (nc : NameConstraints) (host : Bytes) : Prop :=
  match parseHostIp host with
  | some ip =>
    (∀ s ∈ nc.excluded.ip, ipInSubtree ip.bytes s.1 s.2 = false) ∧
      (nc.permitted.ip ≠ [] → ∃ s ∈ nc.permitted.ip, ipInSubtree ip.bytes s.1 s.2 = true)
  | none =>
    (∀ b ∈ nc.excluded.dns, dnsInSubtree host b = false) ∧
      (nc.permitted.dns ≠ [] → ∃ b ∈ nc.permitted.dns, dnsInSubtree host b = true)
variable {host : Bytes}
theorem admits_dns (h : nc.admits names p = true) {pattern : Bytes} (hpattern : pattern ∈ p.dns)
    (hmatch : dnsNameMatches pattern host = true) : (∀ b ∈ nc.excluded.dns, dnsInSubtree host b = false) ∧
      ((∀ b ∈ nc.permitted.dns, star ∉ b) → nc.permitted.dns ≠ [] →
        ∃ b ∈ nc.permitted.dns, dnsInSubtree host b = true) := by
  simp only [NameConstraints.admits,excludes,permits,Bool.and_eq_true,Bool.not_eq_true',
    Bool.or_eq_false_iff,Bool.or_eq_true,List.any_eq_false,List.all_eq_true] at h
  obtain ⟨⟨-,⟨⟨⟨⟨hexcluded,-⟩,-⟩,-⟩,-⟩⟩,⟨⟨⟨⟨hpermitted,-⟩,-⟩,-⟩,-⟩⟩ := h
  refine ⟨fun b hb => ?_,fun hstar hne => ?_⟩
  · by_contra hin
    apply hexcluded pattern hpattern
    exact List.any_eq_true.mpr ⟨b,hb,excludedDnsHit_of_host hmatch (by simpa using hin)⟩
  · have hall := hpermitted.resolve_left (by simpa using hne)
    obtain ⟨b,hb,hin⟩ := List.any_eq_true.mp (hall pattern hpattern)
    exact ⟨b,hb,dnsInSubtree_host hmatch (hstar b hb) hin⟩

theorem isHost_bytes {san : SanIp} (h : san.isHost ip = true) : san.bytes = ip.bytes := by
  cases san with
  | v4 a =>
    cases ip with
    | v4 b => rw [beq_iff_eq.mp h]; rfl
    | v6 b => cases h
  | v6 a =>
    cases ip with
    | v4 b => cases h
    | v6 b => rw [beq_iff_eq.mp h]; rfl

theorem admits_ip (h : nc.admits names p = true) {san : SanIp} (hsan : san ∈ p.ips)
    (hmatch : san.isHost ip = true) : (∀ s ∈ nc.excluded.ip, ipInSubtree ip.bytes s.1 s.2 = false) ∧
      (nc.permitted.ip ≠ [] → ∃ s ∈ nc.permitted.ip, ipInSubtree ip.bytes s.1 s.2 = true) := by
  simp only [NameConstraints.admits,excludes,permits,Bool.and_eq_true,Bool.not_eq_true',
    Bool.or_eq_false_iff,Bool.or_eq_true,List.any_eq_false,List.all_eq_true] at h
  obtain ⟨⟨-,⟨⟨⟨⟨-,hexcluded⟩,-⟩,-⟩,-⟩⟩,⟨⟨⟨⟨-,hpermitted⟩,-⟩,-⟩,-⟩⟩ := h
  rw [← isHost_bytes hmatch]
  refine ⟨fun s hs => ?_,fun hne => ?_⟩
  · by_contra hin
    exact hexcluded san hsan (List.any_eq_true.mpr ⟨s,hs,by simpa using hin⟩)
  · exact List.any_eq_true.mp (hpermitted.resolve_left (by simpa using hne) san hsan)

theorem hostMatches_ip (hip : parseHostIp host = some ip) (h : hostMatches leaf host = .ok true) :
    ∃ ips, leaf.subjectAltIps = .ok ips ∧ ∃ san ∈ ips, san.isHost ip = true := by
  unfold hostMatches at h
  rw [hip] at h
  obtain ⟨ips,hips,h⟩ := bind_eq_ok.mp h
  exact ⟨ips,hips,List.any_eq_true.mp (Except.ok.inj h)⟩

theorem hostMatches_dns (hip : parseHostIp host = none) (h : hostMatches leaf host = .ok true) :
    (∃ sans, leaf.hasSubjectAltName = .ok true ∧ leaf.subjectAltNames = .ok sans ∧
        ∃ pattern ∈ sans, dnsNameMatches pattern host = true) ∨
      ∃ cn, leaf.hasSubjectAltName = .ok false ∧ leaf.commonName = .ok (some cn) ∧ dnsNameMatches cn host = true := by
  unfold hostMatches at h
  rw [hip] at h
  obtain ⟨hasSan,hsan,h⟩ := bind_eq_ok.mp h
  cases hasSan with
  | true =>
    obtain ⟨sans,hsans,h⟩ := bind_eq_ok.mp h
    exact .inl ⟨sans,hsan,hsans,List.any_eq_true.mp (Except.ok.inj h)⟩
  | false =>
    obtain ⟨cn,hcn,h⟩ := bind_eq_ok.mp h
    cases cn with
    | none => cases h
    | some cn => exact .inr ⟨cn,hsan,hcn,Except.ok.inj h⟩

theorem dnsNames_san (h : dnsNames leaf true true sans = .ok dns) : dns = sans := (Except.ok.inj h).symm

theorem dnsNames_cn {cn : Bytes} (hcn : leaf.commonName = .ok (some cn))
    (h : dnsNames leaf true false sans = .ok dns) :
    dns = if cnIsPlausibleDnsName cn then sans ++ [cn] else sans := by
  unfold dnsNames at h
  rw [hcn] at h
  exact (Except.ok.inj h).symm

theorem subjectAltNames_none (hsan : leaf.hasSubjectAltName = .ok false)
    (h : leaf.subjectAltNames = .ok sans) : sans = [] := by
  unfold Certificate.hasSubjectAltName at hsan
  unfold Certificate.subjectAltNames Certificate.subjectAlt at h
  cases hfound : leaf.subjectAltName with
  | error e =>
    rw [hfound] at hsan
    cases hsan
  | ok found =>
    rw [hfound] at hsan h
    cases found with
    | none => exact (Except.ok.inj h).symm
    | some san => cases hsan

/-- A host that the constraints say nothing about, in an excluded subtree. -/
def CnEscapes (leaf : Certificate) (cas : List Certificate) (anchor : Option NameConstraints)
    (host : Bytes) : Prop :=
  parseHostIp host = none ∧ leaf.hasSubjectAltName = .ok false ∧
    (∃ cn, leaf.commonName = .ok (some cn) ∧ cnIsPlausibleDnsName cn = false) ∧
    ∃ nc, Governs anchor cas nc ∧ ∃ b ∈ nc.excluded.dns, dnsInSubtree host b = true

theorem respects_dns (hip : parseHostIp host = none) (h : (∀ b ∈ nc.excluded.dns, dnsInSubtree host b = false) ∧
      (nc.permitted.dns ≠ [] → ∃ b ∈ nc.permitted.dns, dnsInSubtree host b = true)) : Respects nc host := by
  unfold Respects
  rw [hip]
  exact h

theorem respects_of_not_escapes (hstar : ∀ b ∈ nc.permitted.dns, star ∉ b)
    (haccepted : enforceNameConstraints names (leaf :: cas) anchor = .ok ())
    (hmatch : hostMatches leaf host = .ok true) (hip : parseHostIp host = none)
    (hnc : Governs anchor cas nc) (hescapes : ¬ CnEscapes leaf cas anchor host) : Respects nc host := by
  obtain ⟨hasSan,p,hsan,hp,hadmits,hnameless⟩ := enforceNameConstraints_leaf haccepted hnc
  obtain ⟨sans,hsans,hdns,-⟩ := presentedNames_dns hp
  -- a name that the matcher reads and that the constraints were checked on
  have hchecked : ∀ {pattern}, pattern ∈ p.dns → dnsNameMatches pattern host = true →
      Respects nc host := by
    intro pattern hpattern hmatches
    obtain ⟨hexcluded,hpermitted⟩ := admits_dns hadmits hpattern hmatches
    exact respects_dns hip ⟨hexcluded,hpermitted hstar⟩
  rcases hostMatches_dns hip hmatch with ⟨found,htrue,hfound,pattern,hpattern,hmatches⟩ |
    ⟨cn,hfalse,hcn,hmatches⟩
  · cases hsan.symm.trans htrue
    cases hsans.symm.trans hfound
    rw [← dnsNames_san hdns] at hpattern
    exact hchecked hpattern hmatches
  · cases hsan.symm.trans hfalse
    have hnone := subjectAltNames_none hfalse hsans
    have hlist := dnsNames_cn hcn hdns
    by_cases hplausible : cnIsPlausibleDnsName cn = true
    · rw [if_pos hplausible] at hlist
      exact hchecked (by simp [hlist]) hmatches
    · rw [if_neg hplausible,hnone] at hlist
      refine respects_dns hip ⟨fun b hb => ?_,fun hne => absurd (hnameless rfl hlist).1 hne⟩
      by_contra hin
      exact hescapes ⟨hip,hfalse,⟨cn,hcn,by simpa using hplausible⟩,nc,hnc,b,hb,by simpa using hin⟩

theorem respects_ip (hip : parseHostIp host = some ip)
    (haccepted : enforceNameConstraints names (leaf :: cas) anchor = .ok ())
    (hmatch : hostMatches leaf host = .ok true) (hnc : Governs anchor cas nc) : Respects nc host := by
  obtain ⟨hasSan,p,-,hp,hadmits,-⟩ := enforceNameConstraints_leaf haccepted hnc
  obtain ⟨-,-,-,hips⟩ := presentedNames_dns hp
  obtain ⟨ips,hfound,san,hmem,hhost⟩ := hostMatches_ip hip hmatch
  cases hips.symm.trans hfound
  unfold Respects
  rw [hip]
  exact admits_ip hadmits hmem hhost

/-- An accepted host keeps to all constraints exactly if it is no common name they were not checked
on. -/
theorem verifyHostname_respects (names : NameReader) (leaf : Certificate) (cas : List Certificate)
    (anchor : Option NameConstraints) (host : Bytes)
    (hstar : ∀ nc, Governs anchor cas nc → ∀ b ∈ nc.permitted.dns ++ nc.excluded.dns, star ∉ b)
    (haccepted : enforceNameConstraints names (leaf :: cas) anchor = .ok ())
    (hhost : verifyHostname leaf host = .ok ()) :
    (∀ nc, Governs anchor cas nc → Respects nc host) ↔ ¬ CnEscapes leaf cas anchor host := by
  have hmatch : hostMatches leaf host = .ok true := by
    obtain ⟨matched,hmatched,hhost⟩ := bind_eq_ok.mp hhost
    cases matched with
    | true => exact orBad_eq_ok.mp hmatched
    | false => cases hhost
  constructor
  · rintro hall ⟨hip,-,-,nc,hnc,b,hb,hin⟩
    have hrespects := hall nc hnc
    unfold Respects at hrespects
    rw [hip] at hrespects
    rw [hrespects.1 b hb] at hin
    cases hin
  · intro hescapes nc hnc
    cases hip : parseHostIp host with
    | some ip => exact respects_ip hip haccepted hmatch hnc
    | none =>
      have hpermitted : ∀ b ∈ nc.permitted.dns, star ∉ b :=
        fun b hb => hstar nc hnc b (mem_append_left _ hb)
      exact respects_of_not_escapes hpermitted haccepted hmatch hip hnc hescapes

private def exampleCom : Bytes := [101, 120, 97, 109, 112, 108, 101, dot, 99, 111, 109]

private def sanLeaf (name : Bytes) : Certificate where
  issuerDer := .ok [1]
  subjectDer := .ok [2]
  subjectAltName := .ok (some ⟨.ok [name], .ok [], .ok [], .ok [], .ok [], .ok 4, .ok [(0x82, name)]⟩)

private def cnLeaf (cn : Bytes) : Certificate where
  issuerDer := .ok [1]
  subjectDer := .ok [2]
  commonName := .ok (some cn)

/-- `example.com`, but not `x`. -/
private def exampleConstraints : NameConstraints where
  permitted := ⟨[exampleCom], [], [], [], [], 0⟩
  excluded := ⟨[[120]], [], [], [], [], 0⟩

private def exampleCa : Certificate where
  issuerDer := .ok [0]
  subjectDer := .ok [1]
  nameConstraints := .ok (some exampleConstraints)

/-- Nothing in `example.com`. -/
private def noExampleCom : NameConstraints where
  excluded := ⟨[exampleCom], [], [], [], [], 0⟩

/-- A leaf for `*.example.com`, asked for as `W.example.com.`. -/
theorem verifyHostname_respects_wildcard : Respects exampleConstraints (87 :: dot :: exampleCom ++ [dot]) := by
  have hgoverns : ∀ nc, Governs none [exampleCa] nc → nc = exampleConstraints := by
    rintro nc (hnone | ⟨ca,hca,hnc⟩)
    · cases hnone
    · cases List.mem_singleton.mp hca
      exact (Option.some.inj (Except.ok.inj hnc)).symm
  refine (verifyHostname_respects .empty (sanLeaf (star :: dot :: exampleCom)) [exampleCa] none _
    ?_ (by decide +kernel) (by decide +kernel)).mpr ?_ exampleConstraints
      (.inr ⟨exampleCa,List.mem_singleton.mpr rfl,rfl⟩)
  · intro nc hnc
    rw [hgoverns nc hnc]
    decide
  · rintro ⟨-,hsan,-⟩
    cases hsan

/-- `é.example.com`, a common name outside ASCII, below an anchor that excludes `example.com`. -/
theorem verifyHostname_bypass :
    let host : Bytes := 0xC3 :: 0xA9 :: dot :: exampleCom
    enforceNameConstraints .empty [cnLeaf host] (some noExampleCom) = .ok () ∧
      verifyHostname (cnLeaf host) host = .ok () ∧ exampleCom ∈ noExampleCom.excluded.dns ∧
      dnsInSubtree host exampleCom = true := by
  decide +kernel
end PureCrypto.Pki
