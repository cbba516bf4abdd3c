import PureCrypto.Framework.Trace
import PureCrypto.Tls.Error
import Mathlib.Data.List.Lex

/-!
# Certificates as the validator reads them

A certificate is given by what its accessors return.  Each accessor of `x509/cert.rs` walks the DER
again and can fail on its own; the validator turns every such failure into `BadCertificate`.
-/
namespace PureCrypto.Pki
abbrev Bytes := List UInt8

abbrev Oid := List Nat

def anyPolicy : Oid := [2, 5, 29, 32, 0]

/-- Failures of the X.509 parser, which the validator does not tell apart. -/
inductive X509Error
  | malformed
deriving DecidableEq, Repr

abbrev Parsed (α : Type) := Except X509Error α

/-- The result of an accessor where a failure is `BadCertificate`. -/
def orBad {α : Type} (r : Parsed α) : Except Tls.Error α := r.mapError fun _ => .badCertificate

theorem orBad_eq_ok {α : Type} {r : Parsed α} {a : α} : orBad r = .ok a ↔ r = .ok a := by
  cases r with
  | ok b => simp [orBad,Except.mapError]
  | error e => simp [orBad,Except.mapError]

/-- The identifiers of `certificatePolicies`: at least one, none twice. -/
structure PolicyList where
  oids : List Oid
  ne_nil : oids ≠ []
  nodup : oids.Nodup

/-- The pairs of `policyMappings`: at least one, none to or from `anyPolicy`. -/
structure PolicyMappings where
  pairs : List (Oid × Oid)
  ne_nil : pairs ≠ []
  concrete : ∀ m ∈ pairs, m.1 ≠ anyPolicy ∧ m.2 ≠ anyPolicy

/-- `policyConstraints`: at least one of the two fields. -/
structure PolicyConstraints where
  requireExplicitPolicy : Option Nat
  inhibitPolicyMapping : Option Nat
  some_field : requireExplicitPolicy.isSome ∨ inhibitPolicyMapping.isSome

/-- An `iPAddress` entry. -/
inductive SanIp
  | v4 (octets : Vector UInt8 4)
  | v6 (octets : Vector UInt8 16)
deriving DecidableEq

def SanIp.bytes : SanIp → Bytes
  | v4 octets => octets.toList
  | v6 octets => octets.toList

/-- What the accessors find in a `subjectAltName` extension. -/
structure SubjectAltName where
  dnsNames : Parsed (List Bytes) := .ok []
  ips : Parsed (List SanIp) := .ok []
  emails : Parsed (List Bytes) := .ok []
  uris : Parsed (List Bytes) := .ok []
  directoryNames : Parsed (List Bytes) := .ok []
  /-- Bit `n` for an entry of choice `n`. -/
  forms : Parsed UInt16 := .ok 0
  /-- All entries as tag and content. -/
  entries : Parsed (List (UInt8 × Bytes)) := .ok []

structure NameSubtrees where
  dns : List Bytes := []
  /-- Address and mask. -/
  ip : List (Bytes × Bytes) := []
  email : List Bytes := []
  uri : List Bytes := []
  directory : List Bytes := []
  unsupportedForms : UInt16 := 0

structure NameConstraints where
  permitted : NameSubtrees := {}
  excluded : NameSubtrees := {}

def NameConstraints.unsupportedForms (nc : NameConstraints) : UInt16 :=
  nc.permitted.unsupportedForms ||| nc.excluded.unsupportedForms

structure Calendar where
  year : Nat
  month : Nat
  day : Nat
  hour : Nat
  minute : Nat
  second : Nat
deriving DecidableEq

/-- By components, the year first. -/
def Calendar.le (a b : Calendar) : Bool :=
  decide ([a.year, a.month, a.day, a.hour, a.minute, a.second] ≤
    [b.year, b.month, b.day, b.hour, b.minute, b.second])

/-- A time by its components, `none` if its text is malformed. -/
structure Time where
  components : Option Calendar

structure Validity where
  notBefore : Time
  notAfter : Time

def Validity.accepts (validity : Validity) (now : Time) : Bool :=
  match validity.notBefore.components, validity.notAfter.components, now.components with
  | some notBefore, some notAfter, some now => notBefore.le now && now.le notAfter
  | _, _, _ => false

structure Certificate where
  der : Bytes := []
  issuerDer : Parsed Bytes
  subjectDer : Parsed Bytes
  serialBytes : Parsed Bytes := .error .malformed
  spkiDer : Parsed Bytes := .error .malformed
  signatureAlgorithm : Parsed Bytes := .error .malformed
  /-- The two algorithm identifiers are the same. -/
  checkSignatureAlgidConsistent : Parsed Unit := .error .malformed
  validity : Parsed Validity := .error .malformed
  /-- `cA` and `pathLenConstraint`. -/
  basicConstraints : Parsed (Option (Bool × Option Nat)) := .ok none
  keyUsage : Parsed (Option UInt16) := .ok none
  /-- Empty without the extension. -/
  extendedKeyUsages : Parsed (List Oid) := .ok []
  criticalExtensionOids : Parsed (List Oid) := .ok []
  /-- The `commonName` of `subject`. -/
  commonName : Parsed (Option Bytes) := .ok none
  /-- `none` without the extension; an error is one of the extension list. -/
  subjectAltName : Parsed (Option SubjectAltName) := .ok none
  nameConstraints : Parsed (Option NameConstraints) := .ok none
  certificatePolicies : Parsed (Option PolicyList) := .ok none
  policyMappings : Parsed (Option PolicyMappings) := .ok none
  policyConstraints : Parsed (Option PolicyConstraints) := .ok none
  inhibitAnyPolicy : Parsed (Option Nat) := .ok none
namespace Certificate
def hasSubjectAltName (cert : Certificate) : Parsed Bool := cert.subjectAltName.map Option.isSome

/-- One form of the names in `subjectAltName`, `absent` without the extension. -/
def subjectAlt {α : Type} (cert : Certificate) (form : SubjectAltName → Parsed α) (absent : α) :
    Parsed α := do
  match ← cert.subjectAltName with
  | some san => form san
  | none => return absent

def subjectAltNames (cert : Certificate) : Parsed (List Bytes) := cert.subjectAlt SubjectAltName.dnsNames []
def subjectAltIps (cert : Certificate) : Parsed (List SanIp) := cert.subjectAlt SubjectAltName.ips []
def subjectAltEmails (cert : Certificate) : Parsed (List Bytes) := cert.subjectAlt SubjectAltName.emails []
def subjectAltUris (cert : Certificate) : Parsed (List Bytes) := cert.subjectAlt SubjectAltName.uris []
def subjectAltDirectoryNames (cert : Certificate) : Parsed (List Bytes) :=
  cert.subjectAlt SubjectAltName.directoryNames []
def subjectAltNameEntries (cert : Certificate) : Parsed (List (UInt8 × Bytes)) :=
  cert.subjectAlt SubjectAltName.entries []
def subjectAltNameForms (cert : Certificate) : Parsed UInt16 := cert.subjectAlt SubjectAltName.forms 0

def isSelfIssued (cert : Certificate) : Bool :=
  match cert.subjectDer, cert.issuerDer with
  | .ok s, .ok i => s == i
  | _, _ => false
end Certificate
end PureCrypto.Pki
