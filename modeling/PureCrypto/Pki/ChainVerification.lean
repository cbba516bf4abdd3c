import PureCrypto.Pki.NameConstraints
import PureCrypto.Pki.Policy

/-!
# Chain verification

`verify_chain_inner` of `tls/pki/verify.rs` with the checks it calls.  Parsing, keys, signatures, the
signature policy and the hash of the distrust list are what a `Crypto` says they are.
-/
namespace PureCrypto.Pki
open Tls (Error)
def maxChainLen : Nat := 10
def maxCrlsPerIssuer : Nat := 8

def kuDigitalSignature : UInt16 := 0x80
def kuKeyCertSign : UInt16 := 0x04
def kuCrlSign : UInt16 := 0x02

def oidBasicConstraints : Oid := [2, 5, 29, 19]
def oidKeyUsage : Oid := [2, 5, 29, 15]
def oidExtKeyUsage : Oid := [2, 5, 29, 37]
def oidSubjectAltName : Oid := [2, 5, 29, 17]
def oidNameConstraints : Oid := [2, 5, 29, 30]
def oidCertificatePolicies : Oid := [2, 5, 29, 32]
def oidPolicyMappings : Oid := [2, 5, 29, 33]
def oidPolicyConstraints : Oid := [2, 5, 29, 36]
def oidInhibitAnyPolicy : Oid := [2, 5, 29, 54]
def anyExtendedKeyUsage : Oid := [2, 5, 29, 37, 0]

inductive ChainPurpose
  | server
  | client
deriving DecidableEq

def ChainPurpose.required : ChainPurpose → Oid
  | server => [1, 3, 6, 1, 5, 5, 7, 3, 1]
  | client => [1, 3, 6, 1, 5, 5, 7, 3, 2]

/-- A CRL by what its accessors return. -/
structure Crl where
  der : Bytes := []
  issuerDer : Parsed Bytes
  signatureAlgorithm : Parsed Bytes
  thisUpdate : Parsed Time
  nextUpdate : Parsed (Option Time)
  /-- The serial numbers of `entries`. -/
  serials : Parsed (List Bytes)

def stripLeadingSignZero (bytes : Bytes) : Bytes :=
  if 1 < bytes.length ∧ bytes.head? = some 0 then bytes.tail else bytes
def Crl.isRevoked (crl : Crl) (serial : Bytes) : Parsed Bool := do
  let serials ← crl.serials
  return serials.any fun s => stripLeadingSignZero s == stripLeadingSignZero serial

/-- Without `nextUpdate` a CRL never gets stale. -/
def Crl.covers (crl : Crl) (now : Option Time) : Parsed Bool :=
  match now with
  | none => .ok true
  | some now => do
      let thisUpdate ← crl.thisUpdate
      let nextUpdate ← crl.nextUpdate
      return match nextUpdate with
        | some nextUpdate => Validity.accepts ⟨thisUpdate, nextUpdate⟩ now
        | none => true

structure PinnedIdentity where
  certDer : Bytes
  sanEntries : List (UInt8 × Bytes)

structure TrustAnchor (Key : Type) where
  subjectDer : Bytes
  key : Key
  spkiDer : Bytes
  nameConstraints : Option NameConstraints := none
  pathLenConstraint : Option Nat := none
  isCa : Option Bool := none
  keyUsage : Option UInt16 := none
  extendedKeyUsages : List Oid := []
  pinned : Option PinnedIdentity := none

structure RootCertStore (Key : Type) where
  anchors : List (TrustAnchor Key)
  /-- The distrust list, by the hashes of keys and of certificates. -/
  distrustedSpki : List Bytes := []
  distrustedCert : List Bytes := []

structure LeafIssuer where
  nameDer : Bytes
  spkiDer : Bytes
deriving DecidableEq

structure VerifiedChain (Key : Type) where
  leafKey : Key
  leafIssuer : LeafIssuer

structure Crypto (Key : Type) where
  fromDer : Bytes → Parsed Certificate
  /-- The subject key, under the policy's floor for RSA. -/
  certKey : Certificate → Parsed Key
  /-- The registry entry a key takes an algorithm identifier to. -/
  signatureAlgorithm : Key → Bytes → Option Nat
  toSpkiDer : Key → Bytes
  /-- The signature policy. -/
  permits : Nat → Bytes → Bool
  certSignature : Certificate → Key → Bool
  crlSignature : Crl → Key → Bool
  sha256 : Bytes → Bytes
section Checks
variable {Key : Type} (crypto : Crypto Key) (store : RootCertStore Key) (crls : List Crl)
  (now : Option Time)
/-- The algorithm of a signature by `key` is one the policy takes. -/
def permitted (key : Key) (algorithm : Bytes) : Bool :=
  (crypto.signatureAlgorithm key algorithm).any fun a => crypto.permits a (crypto.toSpkiDer key)

def verifyCertAgainstIssuer (cert : Certificate) (issuerKey : Key) : Except Error Unit := do
  let algorithm ← orBad cert.signatureAlgorithm
  if permitted crypto issuerKey algorithm && crypto.certSignature cert issuerKey then .ok ()
  else .error .badCertificate

def anchorsWithSubject (name : Bytes) : List (TrustAnchor Key) :=
  store.anchors.filter fun a => a.subjectDer == name

def anchorFor (cert : Certificate) : Except Error (Option (TrustAnchor Key)) := do
  let issuer ← orBad cert.issuerDer
  return (anchorsWithSubject store issuer).find? fun a =>
    (verifyCertAgainstIssuer crypto cert a.key).isOk

def namesDiffer (cert issuer : Certificate) : Except Error Bool := do
  let certIssuer ← orBad cert.issuerDer
  let issuerSubject ← orBad issuer.subjectDer
  return certIssuer != issuerSubject

/-- What the CRL says, if `key` signed it and it is current. -/
def judge (key : Key) (serial : Bytes) (crl : Crl) : Except Error Unit :=
  if !crypto.crlSignature crl key then .ok ()
  else do
    if ← orBad (crl.covers now) then
      if ← orBad (crl.isRevoked serial) then .error .certificateRevoked else .ok ()
    else .ok ()

def admissible (key : Key) (crl : Crl) : Bool :=
  match crl.signatureAlgorithm with
  | .ok algorithm => permitted crypto key algorithm
  | .error _ => false

/-- The CRLs in order, with a budget for signature verifications. -/
def consult (key : Key) (serial : Bytes) : Nat → List Crl → Except Error Unit
  | _, [] => .ok ()
  | left, crl :: rest =>
    if !admissible crypto key crl then consult key serial left rest
    else match left with
      | 0 => .ok ()
      | left + 1 => do
          judge crypto now key serial crl
          consult key serial left rest

/-- Whether an issuer inside the chain may sign CRLs. -/
def maySignCrls : Option Certificate → Except Error Bool
  | none => .ok true
  | some issuer => do
      match ← orBad issuer.keyUsage with
      | some mask => return mask &&& kuCrlSign != 0
      | none => return true

def crlsWithIssuer (name : Bytes) : List Crl :=
  crls.filter fun crl => match crl.issuerDer with
    | .ok issuer => issuer == name
    | .error _ => false

def checkRevocation (cert : Certificate) (issuerKey : Key) (issuerCert : Option Certificate) :
    Except Error Unit := do
  let certIssuer ← orBad cert.issuerDer
  let serial ← orBad cert.serialBytes
  if ← maySignCrls issuerCert then
    consult crypto now issuerKey serial maxCrlsPerIssuer (crlsWithIssuer crls certIssuer)
  else .ok ()

def checkDistrustSpki (spki : Bytes) : Except Error Unit :=
  if store.distrustedSpki.contains (crypto.sha256 spki) then .error .badCertificate else .ok ()

def checkDistrust (cert : Certificate) : Except Error Unit :=
  if store.distrustedSpki.isEmpty && store.distrustedCert.isEmpty then .ok ()
  else do
    let spki ← orBad cert.spkiDer
    checkDistrustSpki crypto store spki
    if store.distrustedCert.contains (crypto.sha256 cert.der) then .error .badCertificate else .ok ()

def recognizedAlways : List Oid :=
  [oidBasicConstraints, oidKeyUsage, oidExtKeyUsage, oidSubjectAltName]
def recognizedWithPolicies : List Oid :=
  [oidCertificatePolicies, oidPolicyMappings, oidPolicyConstraints, oidInhibitAnyPolicy]

def checkCriticalExtension (cert : Certificate) (policyProcessing : Bool) (o : Oid) :
    Except Error Unit :=
  if recognizedAlways.contains o then .ok ()
  else if policyProcessing && recognizedWithPolicies.contains o then .ok ()
  else if o == oidNameConstraints then do
    match ← orBad cert.nameConstraints with
    | some _ => .ok ()
    | none => .error .badCertificate
  else .error .badCertificate

def checkCriticalExtensionsRecognized (cert : Certificate) (policyProcessing : Bool) :
    Except Error Unit := do
  let critical ← orBad cert.criticalExtensionOids
  critical.forM (checkCriticalExtension cert policyProcessing)

def checkValidity (cert : Certificate) : Except Error Unit :=
  match now with
  | none => .ok ()
  | some now => do
      let validity ← orBad cert.validity
      if validity.accepts now then .ok () else .error .certificateExpired

/-- No usages at all, the required one, or any. -/
def usagePermits (purpose : ChainPurpose) (ekus : List Oid) : Bool :=
  ekus.isEmpty || ekus.any fun o => o == purpose.required || o == anyExtendedKeyUsage

def maskHas (bit : UInt16) : Option UInt16 → Bool
  | some mask => mask &&& bit != 0
  | none => true

def enforceCa (purpose : ChainPurpose) (cert : Certificate) (below : Nat) : Except Error Unit := do
  match ← orBad cert.basicConstraints with
  | none => .error .badCertificate
  | some (isCa, pathLen) => do
      let keyUsage ← orBad cert.keyUsage
      let ekus ← orBad cert.extendedKeyUsages
      if isCa && maskHas kuKeyCertSign keyUsage && usagePermits purpose ekus &&
          pathLen.all (fun n => decide (below ≤ n)) then .ok ()
      else .error .badCertificate

def enforceLeaf (purpose : ChainPurpose) (leaf : Certificate) : Except Error Unit := do
  let keyUsage ← orBad leaf.keyUsage
  let ekus ← orBad leaf.extendedKeyUsages
  if maskHas kuDigitalSignature keyUsage && usagePermits purpose ekus then .ok ()
  else .error .badCertificate

/-- The intermediates of `cas` that are not self-issued. -/
def countIntermediates (cas : List Certificate) : Nat := cas.countP fun c => !c.isSelfIssued

def enforceConstraints (purpose : ChainPurpose) : List Certificate → Except Error Unit
  | [] => .ok ()
  | leaf :: cas => do
      cas.zipIdx.forM fun c => enforceCa purpose c.1 (countIntermediates (cas.take c.2))
      enforceLeaf purpose leaf
variable {Key : Type} (anchor : TrustAnchor Key)
/-- The path is the anchor's own certificate, or another one for its name and key. -/
def isSelf (path : List Certificate) (top : Certificate) : Except Error Bool :=
  if path.length ≠ 1 then .ok false
  else do
    let subject ← orBad top.subjectDer
    if subject ≠ anchor.subjectDer then .ok false
    else do
      let spki ← orBad top.spkiDer
      return spki == anchor.spkiDer

/-- A re-issued pin claims no more than the pin. -/
def enforcePin (top : Certificate) (pin : PinnedIdentity) : Except Error Unit :=
  if top.der == pin.certDer then .ok ()
  else do
    let sans ← orBad top.subjectAltNameEntries
    if !sans.all pin.sanEntries.contains then .error .badCertificate
    else if anchor.extendedKeyUsages.isEmpty then .ok ()
    else do
      let ekus ← orBad top.extendedKeyUsages
      if ekus.all anchor.extendedKeyUsages.contains then .ok () else .error .badCertificate

def enforceAnchorIssues (top : Certificate) (self : Bool) : Except Error Unit :=
  if !self then
    if anchor.isCa == some false || !maskHas kuKeyCertSign anchor.keyUsage then .error .badCertificate
    else .ok ()
  else match anchor.pinned with
    | some pin => enforcePin anchor top pin
    | none => .ok ()

def enforceAnchorConstraints (path : List Certificate) (purpose : ChainPurpose) : Except Error Unit :=
  match path.getLast? with
  | none => .error .badCertificate
  | some top => do
      let self ← isSelf anchor path top
      enforceAnchorIssues anchor top self
      if anchor.pathLenConstraint.all (fun n => decide (countIntermediates path.tail ≤ n)) &&
          usagePermits purpose anchor.extendedKeyUsages then .ok ()
      else .error .badCertificate
end Checks
section Path
variable {Key : Type} (crypto : Crypto Key) (store : RootCertStore Key) (crls : List Crl)
  (now : Option Time)
def LeafIssuer.fromAnchor (anchor : TrustAnchor Key) : LeafIssuer := ⟨anchor.subjectDer, anchor.spkiDer⟩

def LeafIssuer.fromCert (cert : Certificate) : Except Error LeafIssuer := do
  let name ← orBad cert.subjectDer
  let spki ← orBad cert.spkiDer
  return ⟨name, spki⟩

/-- The error at the top of a chain that reaches no anchor. -/
def unanchored (cert : Certificate) : Except Error Error := do
  let issuer ← orBad cert.issuerDer
  return if (anchorsWithSubject store issuer).isEmpty then .unknownIssuer else .badCertificate

def checkIssued (cert issuer : Certificate) : Except Error Unit := do
  let key ← orBad (crypto.certKey issuer)
  verifyCertAgainstIssuer crypto cert key
  if ← namesDiffer cert issuer then .error .badCertificate
  else checkRevocation crypto crls now cert key (some issuer)

/-- Recorded at the leaf only. -/
def leafIssuerFrom (first : Bool) (issuer : Certificate) : Except Error (Option LeafIssuer) :=
  if first then do
    let leafIssuer ← LeafIssuer.fromCert issuer
    return some leafIssuer
  else .ok none

structure Climb (Key : Type) where
  path : List Certificate
  anchor : TrustAnchor Key
  leafIssuer : Option LeafIssuer

def climb (first : Bool) : List Certificate → Except Error (Climb Key)
  | [] => .error .badCertificate
  | cert :: above => do
      match ← anchorFor crypto store cert with
      | some anchor => do
          checkRevocation crypto crls now cert anchor.key none
          return ⟨[cert], anchor, if first then some (LeafIssuer.fromAnchor anchor) else none⟩
      | none =>
        match above with
        | [] => do
            let e ← unanchored store cert
            .error e
        | issuer :: _ => do
            checkIssued crypto crls now cert issuer
            let leafIssuer ← leafIssuerFrom first issuer
            let c ← climb false above
            return ⟨cert :: c.path, c.anchor, leafIssuer⟩

def checkCertificate (policyProcessing : Bool) (cert : Certificate) : Except Error Unit := do
  orBad cert.checkSignatureAlgidConsistent
  checkCriticalExtensionsRecognized cert policyProcessing
variable (names : NameReader) (purpose : ChainPurpose) (policyOpts : PolicyOptions)
def checkPath (path : List Certificate) (anchor : TrustAnchor Key) : Except Error Unit := do
  path.forM (checkDistrust crypto store)
  checkDistrustSpki crypto store anchor.spkiDer
  path.forM (checkCertificate policyOpts.policyProcessingEnabled)
  path.forM (checkValidity now)
  enforceNameConstraints names path anchor.nameConstraints
  enforceConstraints purpose path
  enforceAnchorConstraints anchor path purpose
  checkPolicies path policyOpts

def verifyCertificates (certs : List Certificate) : Except Error (VerifiedChain Key) := do
  let c ← climb crypto store crls now true certs
  checkPath crypto store now names purpose policyOpts c.path c.anchor
  match certs.head?, c.leafIssuer with
  | some leaf, some leafIssuer => do
      let leafKey ← orBad (crypto.certKey leaf)
      return ⟨leafKey, leafIssuer⟩
  | _, _ => .error .badCertificate

/-- `chain` has the leaf first. -/
def verifyChainInner (chain : List Bytes) : Except Error (VerifiedChain Key) :=
  if chain.isEmpty || decide (maxChainLen < chain.length) then .error .badCertificate
  else do
    let certs ← chain.mapM fun der => orBad (crypto.fromDer der)
    verifyCertificates crypto store crls now names purpose policyOpts certs
end Path
end PureCrypto.Pki
