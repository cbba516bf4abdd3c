import PureCrypto.Pki.DnsName

/-!
# Name constraints

`enforce_name_constraints` of `tls/pki/verify.rs`, with the matchers for the forms other than dNSName.
Reading a DER name is left to a `NameReader`.
-/
namespace PureCrypto.Pki
open Tls (Error)
open AsciiText (lower splitOnce rsplitOnce)
def ipInSubtree (host addr mask : Bytes) : Bool :=
  if host.length ≠ addr.length ∨ host.length ≠ mask.length then false
  else (host.zip (addr.zip mask)).all fun p => p.1 &&& p.2.2 == p.2.1 &&& p.2.2

def hostInSubtree (host base : Bytes) : Bool :=
  let host := lower (stripTrailingDot host)
  let base := lower (stripTrailingDot base)
  if base.head? == some dot then decide (base.length < host.length) && base.isSuffixOf host
  else host == base

def emailInSubtree (mailbox base : Bytes) : Bool :=
  match rsplitOnce 64 mailbox with
  | none => false
  | some (localPart, domain) =>
    match rsplitOnce 64 base with
    | some (baseLocal, baseDomain) =>
      localPart == baseLocal && AsciiText.eqIgnoreCase (stripTrailingDot domain) (stripTrailingDot baseDomain)
    | none => hostInSubtree domain base

def isAlpha (b : UInt8) : Bool := (65 ≤ b && b ≤ 90) || (97 ≤ b && b ≤ 122)

/-- `ALPHA *( ALPHA / DIGIT / "+" / "-" / "." )` -/
def isScheme (scheme : Bytes) : Bool :=
  scheme.head?.any isAlpha &&
    scheme.tail.all fun b => isAlpha b || isDigit b || b == 43 || b == 45 || b == dot

/-- The host of `scheme://[userinfo@]host[:port]/…`, unless it is an IP literal. -/
def uriHost (uri : Bytes) : Option Bytes := do
  let (scheme, rest) ← splitOnce colon uri
  if !isScheme scheme then none
  else
    let rest ← List.isPrefixOf? [47, 47] rest
    let authority := rest.takeWhile fun b => !(b == 47 || b == 63 || b == 35)
    let hostport := ((rsplitOnce 64 authority).map Prod.snd).getD authority
    if hostport.head? == some 91 then none
    else
      let host := ((splitOnce colon hostport).map Prod.fst).getD hostport
      if host.isEmpty || looksLikeIp host then none else some host

def uriInSubtree (uri base : Bytes) : Bool := (uriHost uri).any fun host => hostInSubtree host base

/-- One attribute of an RDN: type, tag and value. -/
structure Atv where
  ty : Bytes
  tag : UInt8
  value : Bytes
deriving DecidableEq

/-- What reading a DER name needs. -/
structure NameReader where
  /-- The RDNs of a name, if it is well formed. -/
  dnRdns : Bytes → Option (List (List Atv))
  decodeDirectoryString : UInt8 → Bytes → Parsed Bytes
  normalizeDirString : Bytes → Bytes
  emailAddressesInName : Bytes → Parsed (List Bytes)

/-- A reader of names without attributes. -/
def NameReader.empty : NameReader where
  dnRdns _ := some []
  decodeDirectoryString _ value := .ok value
  normalizeDirString s := s
  emailAddressesInName _ := .ok []
namespace NameReader
variable (names : NameReader)
def atvMatches (failClosed : Bool) (name base : Atv) : Bool :=
  if name.ty ≠ base.ty then false
  else if name.tag = base.tag ∧ name.value = base.value then true
  else match names.decodeDirectoryString name.tag name.value,
      names.decodeDirectoryString base.tag base.value with
    | .ok n, .ok b => names.normalizeDirString n == names.normalizeDirString b
    | _, _ => failClosed

def maxRdnAttrs : Nat := 8

/-- A pairing of `base` with attributes of `name` that are not used yet. -/
def pair (failClosed : Bool) (name : List Atv) : List Atv → List Bool → Bool
  | [], _ => true
  | first :: rest, used => (List.range name.length).any fun i =>
    used[i]? == some false && (name[i]?.any fun a => names.atvMatches failClosed a first) &&
      pair failClosed name rest (used.set i true)

def rdnMatches (failClosed : Bool) (name base : List Atv) : Bool :=
  if name.length ≠ base.length then false
  else if maxRdnAttrs < name.length then failClosed
  else names.pair failClosed name base (List.replicate name.length false)

def dnInSubtree (failClosed : Bool) (name base : Bytes) : Bool :=
  match names.dnRdns name, names.dnRdns base with
  | some n, some b =>
    decide (b.length ≤ n.length) && (n.zip b).all fun p => names.rdnMatches failClosed p.1 p.2
  | _, _ => failClosed
end NameReader
/-- The names of a certificate that take part. -/
structure PresentedNames where
  dns : List Bytes
  ips : List SanIp
  emails : List Bytes
  uris : List Bytes
  dirNames : List Bytes
  forms : UInt16

/-- The names an end entity is known by as a host. -/
def dnsNames (cert : Certificate) (isLeaf hasSan : Bool) (sans : List Bytes) : Parsed (List Bytes) :=
  if isLeaf && !hasSan then do
    match ← cert.commonName with
    | some cn => return if cnIsPlausibleDnsName cn then sans ++ [cn] else sans
    | none => return sans
  else .ok sans
variable (names : NameReader)
/-- The `emailAddress` attributes of the subject stand in for missing rfc822Name entries. -/
def emailNames (sanEmails : List Bytes) (subjectDer : Bytes) : Parsed (List Bytes) :=
  if sanEmails.isEmpty then names.emailAddressesInName subjectDer else .ok sanEmails

def presentedNames (cert : Certificate) (isLeaf hasSan : Bool) : Parsed PresentedNames := do
  let sans ← cert.subjectAltNames
  let ips ← cert.subjectAltIps
  let sanEmails ← cert.subjectAltEmails
  let uris ← cert.subjectAltUris
  let sanDirNames ← cert.subjectAltDirectoryNames
  let forms ← cert.subjectAltNameForms
  let subjectDer ← cert.subjectDer
  let dns ← dnsNames cert isLeaf hasSan sans
  let emails ← emailNames names sanEmails subjectDer
  let dirNames := if (names.dnRdns subjectDer).any fun rdns => !rdns.isEmpty
    then subjectDer :: sanDirNames else sanDirNames
  return ⟨dns, ips, emails, uris, dirNames, forms⟩

/-- Some name is in an excluded subtree. -/
def excludes (ex : NameSubtrees) (p : PresentedNames) : Bool :=
  (p.dns.any fun n => ex.dns.any fun b => excludedDnsHit n b) ||
  (p.ips.any fun ip => ex.ip.any fun s => ipInSubtree ip.bytes s.1 s.2) ||
  (p.emails.any fun n => ex.email.any fun b => emailInSubtree n b) ||
  (p.uris.any fun n => ex.uri.any fun b => uriInSubtree n b) ||
  (p.dirNames.any fun n => ex.directory.any fun b => names.dnInSubtree true n b)

/-- Every name of a form with a permitted subtree is in one. -/
def permits (pm : NameSubtrees) (p : PresentedNames) : Bool :=
  (pm.dns.isEmpty || p.dns.all fun n => pm.dns.any fun b => dnsInSubtree n b) &&
  (pm.ip.isEmpty || p.ips.all fun ip => pm.ip.any fun s => ipInSubtree ip.bytes s.1 s.2) &&
  (pm.email.isEmpty || p.emails.all fun n => pm.email.any fun b => emailInSubtree n b) &&
  (pm.uri.isEmpty || p.uris.all fun n => pm.uri.any fun b => uriInSubtree n b) &&
  (pm.directory.isEmpty || p.dirNames.all fun n => pm.directory.any fun b => names.dnInSubtree false n b)

def NameConstraints.admits (nc : NameConstraints) (p : PresentedNames) : Bool :=
  nc.unsupportedForms &&& p.forms == 0 && !excludes names nc.excluded p && permits names nc.permitted p

/-- A leaf that no host could match, below a constraint that permits hosts. -/
def namelessLeaf (p : PresentedNames) (active : List NameConstraints) (isLeaf hasSan : Bool) : Bool :=
  isLeaf && !hasSan && p.dns.isEmpty &&
    active.any fun nc => !nc.permitted.dns.isEmpty || !nc.permitted.ip.isEmpty

def enforceConstraintsOnCert (cert : Certificate) (active : List NameConstraints) (isLeaf : Bool) :
    Except Error Unit := do
  let hasSan ← orBad cert.hasSubjectAltName
  let p ← orBad (presentedNames names cert isLeaf hasSan)
  if namelessLeaf p active isLeaf hasSan then .error .badCertificate
  else if active.all fun nc => nc.admits names p then .ok () else .error .badCertificate

/-- An intermediate certificate of a CA for itself. -/
def selfIssuedCa (cert : Certificate) (isLeaf : Bool) : Except Error Bool :=
  if isLeaf then .ok false
  else do
    let subject ← orBad cert.subjectDer
    let issuer ← orBad cert.issuerDer
    return subject == issuer

def enforceAt (active : List NameConstraints) (cert : Certificate) (isLeaf : Bool) :
    Except Error Unit := do
  let selfIssued ← selfIssuedCa cert isLeaf
  if active.isEmpty || selfIssued then .ok () else enforceConstraintsOnCert names cert active isLeaf

/-- From the topmost certificate down; each one has its own constraints with it. -/
def enforceBelow (active : List NameConstraints) :
    List (Certificate × Option NameConstraints) → Except Error Unit
  | [] => .ok ()
  | (cert, own) :: below => do
      enforceAt names active cert below.isEmpty
      enforceBelow (active ++ own.toList) below

/-- `certs` has the leaf first. -/
def enforceNameConstraints (certs : List Certificate) (anchorConstraints : Option NameConstraints) :
    Except Error Unit := do
  let own ← certs.tail.mapM fun cert => orBad cert.nameConstraints
  enforceBelow names anchorConstraints.toList (certs.zip (none :: own)).reverse
end PureCrypto.Pki
