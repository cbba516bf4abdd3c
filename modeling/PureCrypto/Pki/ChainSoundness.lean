import PureCrypto.Pki.ChainVerification

/-! # What a verified chain is -/
namespace PureCrypto.Pki
open List
variable {Key : Type} (crypto : Crypto Key) (store : RootCertStore Key) (crls : List Crl)
  (now : Option Time)
def Signed (cert : Certificate) (key : Key) : Prop :=
  ∃ algorithm, cert.signatureAlgorithm = .ok algorithm ∧ permitted crypto key algorithm = true ∧
    crypto.certSignature cert key = true

/-- By name, byte for byte, and by signature. -/
def IssuedBy (cert issuer : Certificate) : Prop :=
  (∃ name, cert.issuerDer = .ok name ∧ issuer.subjectDer = .ok name) ∧
    ∃ key, crypto.certKey issuer = .ok key ∧ Signed crypto cert key

/-- A CA that may sign certificates. -/
def MaySignCerts (cert : Certificate) : Prop :=
  (∃ pathLen, cert.basicConstraints = .ok (some (true, pathLen))) ∧
    ∃ keyUsage, cert.keyUsage = .ok keyUsage ∧ maskHas kuKeyCertSign keyUsage = true

def Distrusted (cert : Certificate) : Prop :=
  crypto.sha256 cert.der ∈ store.distrustedCert ∨
    ∃ spki, cert.spkiDer = .ok spki ∧ crypto.sha256 spki ∈ store.distrustedSpki

/-- The key above a certificate: that of the next one, or the anchor's. -/
def SignerKey (anchor : TrustAnchor Key) (issuer : Option Certificate) (key : Key) : Prop :=
  match issuer with
  | some issuer => crypto.certKey issuer = .ok key
  | none => key = anchor.key

/-- A CRL that has a say on `cert`. -/
def Covering (cert : Certificate) (key : Key) (issuer : Option Certificate) (crl : Crl) : Prop :=
  (∃ name, cert.issuerDer = .ok name ∧ crl ∈ crlsWithIssuer crls name) ∧
    admissible crypto key crl = true ∧ crypto.crlSignature crl key = true ∧
    crl.covers now = .ok true ∧ maySignCrls issuer = .ok true

/-- The CRLs that reach signature verification. -/
def consulted (cert : Certificate) (key : Key) : List Crl :=
  match cert.issuerDer with
  | .ok name => ((crlsWithIssuer crls name).filter (admissible crypto key)).take maxCrlsPerIssuer
  | .error _ => []

/-- No CRL that is consulted lists the certificate. -/
def Unrevoked (cert : Certificate) (key : Key) (issuer : Option Certificate) : Prop :=
  ∃ serial, cert.serialBytes = .ok serial ∧
    ∀ crl ∈ consulted crypto crls cert key, Covering crypto crls now cert key issuer crl →
      crl.isRevoked serial = .ok false
section Single
variable {crypto store crls now} {cert issuer : Certificate} {key : Key} {anchor : TrustAnchor Key}
theorem verifyCertAgainstIssuer_ok : verifyCertAgainstIssuer crypto cert key = .ok () ↔ Signed crypto cert key := by
  unfold verifyCertAgainstIssuer
  rw [bind_eq_ok]
  constructor
  · rintro ⟨algorithm,halgorithm,h⟩
    split_ifs at h with hboth
    rw [Bool.and_eq_true] at hboth
    exact ⟨algorithm,orBad_eq_ok.mp halgorithm,hboth.1,hboth.2⟩
  · rintro ⟨algorithm,halgorithm,hpermitted,hsignature⟩
    refine ⟨algorithm,orBad_eq_ok.mpr halgorithm,?_⟩
    rw [if_pos (by rw [hpermitted,hsignature]; rfl)]

theorem consult_ok {serial : Bytes} {left : Nat} {l : List Crl} (h : consult crypto now key serial left l = .ok ()) :
    ∀ crl ∈ (l.filter (admissible crypto key)).take left, judge crypto now key serial crl = .ok () := by
  induction l generalizing left with
  | nil => simp
  | cons crl l ih =>
    unfold consult at h
    by_cases hadmissible : admissible crypto key crl = true
    · rw [filter_cons_of_pos hadmissible]
      rw [if_neg (by simp [hadmissible])] at h
      cases left with
      | zero => simp
      | succ left =>
        obtain ⟨_,hjudge,hrest⟩ := bind_eq_ok.mp h
        rw [take_succ_cons,forall_mem_cons]
        exact ⟨hjudge,ih hrest⟩
    · rw [filter_cons_of_neg hadmissible]
      rw [if_pos (by simpa using hadmissible)] at h
      exact ih h

theorem judge_ok {serial : Bytes} {crl : Crl} (h : judge crypto now key serial crl = .ok ())
    (hsigned : crypto.crlSignature crl key = true) (hcovers : crl.covers now = .ok true) :
    crl.isRevoked serial = .ok false := by
  unfold judge at h
  rw [if_neg (by simp [hsigned])] at h
  obtain ⟨covered,hcovered,h⟩ := bind_eq_ok.mp h
  rw [hcovers] at hcovered
  cases hcovered
  obtain ⟨revoked,hrevoked,h⟩ := bind_eq_ok.mp h
  cases revoked with
  | true => cases h
  | false => exact orBad_eq_ok.mp hrevoked

theorem checkRevocation_ok {issuerCert : Option Certificate}
    (h : checkRevocation crypto crls now cert key issuerCert = .ok ()) :
    Unrevoked crypto crls now cert key issuerCert := by
  obtain ⟨name,hname,h⟩ := bind_eq_ok.mp h
  obtain ⟨serial,hserial,h⟩ := bind_eq_ok.mp h
  obtain ⟨may,hmay,h⟩ := bind_eq_ok.mp h
  refine ⟨serial,orBad_eq_ok.mp hserial,fun crl hcrl hcovering => ?_⟩
  obtain ⟨-,-,hsigned,hcovers,hmaySign⟩ := hcovering
  rw [hmaySign] at hmay
  cases hmay
  unfold consulted at hcrl
  rw [orBad_eq_ok.mp hname] at hcrl
  exact judge_ok (consult_ok h crl hcrl) hsigned hcovers

theorem anchorFor_some (h : anchorFor crypto store cert = .ok (some anchor)) :
    anchor ∈ store.anchors ∧ Signed crypto cert anchor.key ∧ cert.issuerDer = .ok anchor.subjectDer := by
  obtain ⟨name,hname,h⟩ := bind_eq_ok.mp h
  have hfind := Except.ok.inj h
  have hmem := mem_filter.mp (mem_of_find?_eq_some hfind)
  have hok := find?_some hfind
  refine ⟨hmem.1,?_,?_⟩
  · rw [← verifyCertAgainstIssuer_ok]
    cases hv : verifyCertAgainstIssuer crypto cert anchor.key with
    | ok u => rfl
    | error e =>
      rw [hv] at hok
      cases hok
  · rw [orBad_eq_ok.mp hname,beq_iff_eq.mp hmem.2]

theorem checkIssued_ok (h : checkIssued crypto crls now cert issuer = .ok ()) :
    ∃ key, crypto.certKey issuer = .ok key ∧ Signed crypto cert key ∧
      (∃ name, cert.issuerDer = .ok name ∧ issuer.subjectDer = .ok name) ∧
      Unrevoked crypto crls now cert key (some issuer) := by
  obtain ⟨key,hkey,h⟩ := bind_eq_ok.mp h
  obtain ⟨_,hsigned,h⟩ := bind_eq_ok.mp h
  obtain ⟨differ,hdiffer,h⟩ := bind_eq_ok.mp h
  obtain ⟨name,hname,hdiffer⟩ := bind_eq_ok.mp hdiffer
  obtain ⟨subject,hsubject,hdiffer⟩ := bind_eq_ok.mp hdiffer
  cases hdiffer
  by_cases heq : name = subject
  · refine ⟨key,orBad_eq_ok.mp hkey,verifyCertAgainstIssuer_ok.mp hsigned,?_,?_⟩
    · exact ⟨name,orBad_eq_ok.mp hname,heq ▸ orBad_eq_ok.mp hsubject⟩
    · rw [if_neg (by simp [heq])] at h
      exact checkRevocation_ok h
  · rw [if_pos (by simpa using heq)] at h
    cases h

theorem checkDistrust_ok (h : checkDistrust crypto store cert = .ok ()) : ¬ Distrusted crypto store cert := by
  unfold checkDistrust at h
  by_cases hempty : (store.distrustedSpki.isEmpty && store.distrustedCert.isEmpty) = true
  · simp only [Bool.and_eq_true,List.isEmpty_iff] at hempty
    rintro (hmem | ⟨spki,-,hmem⟩)
    · rw [hempty.2] at hmem
      cases hmem
    · rw [hempty.1] at hmem
      cases hmem
  · rw [if_neg hempty] at h
    obtain ⟨spki,hspki,h⟩ := bind_eq_ok.mp h
    obtain ⟨_,hkey,h⟩ := bind_eq_ok.mp h
    unfold checkDistrustSpki at hkey
    split_ifs at hkey with hk
    split_ifs at h with hc
    rintro (hmem | ⟨spki',hspki',hmem⟩)
    · exact hc (by simpa using hmem)
    · rw [orBad_eq_ok.mp hspki,Except.ok.injEq] at hspki'
      exact hk (by simpa [hspki'] using hmem)

theorem checkValidity_ok (h : checkValidity now cert = .ok ()) {t : Time} (ht : now = some t) :
    ∃ validity, cert.validity = .ok validity ∧ validity.accepts t = true := by
  subst ht
  obtain ⟨validity,hvalidity,h⟩ := bind_eq_ok.mp h
  split_ifs at h with haccepts
  exact ⟨validity,orBad_eq_ok.mp hvalidity,haccepts⟩
variable {purpose : ChainPurpose}
theorem enforceCa_ok {below : Nat} (h : enforceCa purpose cert below = .ok ()) : MaySignCerts cert := by
  obtain ⟨bc,hbc,h⟩ := bind_eq_ok.mp h
  cases bc with
  | none => cases h
  | some bc =>
    obtain ⟨isCa,pathLen⟩ := bc
    obtain ⟨keyUsage,hkeyUsage,h⟩ := bind_eq_ok.mp h
    obtain ⟨ekus,-,h⟩ := bind_eq_ok.mp h
    split_ifs at h with hall
    simp only [Bool.and_eq_true] at hall
    obtain ⟨⟨⟨hca,hsign⟩,-⟩,-⟩ := hall
    subst hca
    exact ⟨⟨pathLen,orBad_eq_ok.mp hbc⟩,keyUsage,orBad_eq_ok.mp hkeyUsage,hsign⟩

theorem enforceConstraints_ok {path : List Certificate}
    (h : enforceConstraints purpose path = .ok ()) : ∀ cert ∈ path.tail, MaySignCerts cert := by
  cases path with
  | nil => exact fun cert hcert => absurd hcert not_mem_nil
  | cons leaf cas =>
    intro cert hcert
    obtain ⟨_,hcas,-⟩ := bind_eq_ok.mp h
    obtain ⟨i,hi⟩ := mem_iff_getElem?.mp hcert
    have hmem : (cert, i) ∈ cas.zipIdx := mem_zipIdx_iff_getElem?.mpr hi
    exact enforceCa_ok (forM_eq_ok.mp hcas _ hmem)
end Single
section Climbing
variable {crypto store crls now}
/-- What the loop has checked: every certificate up to the anchor, with its signer. -/
inductive Climbed (crypto : Crypto Key) (store : RootCertStore Key) (crls : List Crl)
    (now : Option Time) : List Certificate → TrustAnchor Key → Prop
  | anchored {cert : Certificate} {anchor : TrustAnchor Key} (hmem : anchor ∈ store.anchors)
      (hsigned : Signed crypto cert anchor.key) (hname : cert.issuerDer = .ok anchor.subjectDer)
      (hunrevoked : Unrevoked crypto crls now cert anchor.key none) :
      Climbed crypto store crls now [cert] anchor
  | issued {cert issuer : Certificate} {above : List Certificate} {anchor : TrustAnchor Key}
      {key : Key} (hkey : crypto.certKey issuer = .ok key) (hsigned : Signed crypto cert key)
      (hname : ∃ name, cert.issuerDer = .ok name ∧ issuer.subjectDer = .ok name)
      (hunrevoked : Unrevoked crypto crls now cert key (some issuer))
      (habove : Climbed crypto store crls now (issuer :: above) anchor) :
      Climbed crypto store crls now (cert :: issuer :: above) anchor

/-- Who issued the leaf of a path. -/
def IsLeafIssuer (path : List Certificate) (anchor : TrustAnchor Key) (leafIssuer : LeafIssuer) : Prop :=
  match path[1]? with
  | some issuer => issuer.subjectDer = .ok leafIssuer.nameDer ∧ issuer.spkiDer = .ok leafIssuer.spkiDer
  | none => leafIssuer = LeafIssuer.fromAnchor anchor

theorem Climbed.ne_nil {path : List Certificate} {anchor : TrustAnchor Key}
    (h : Climbed crypto store crls now path anchor) : path ≠ [] := by
  cases h <;> exact cons_ne_nil _ _

theorem leafIssuerFrom_ok {first : Bool} {issuer : Certificate} {leafIssuer : LeafIssuer}
    (h : leafIssuerFrom first issuer = .ok (some leafIssuer)) :
    issuer.subjectDer = .ok leafIssuer.nameDer ∧ issuer.spkiDer = .ok leafIssuer.spkiDer := by
  cases first with
  | false => cases h
  | true =>
    obtain ⟨found,hfound,h⟩ := bind_eq_ok.mp h
    cases h
    obtain ⟨name,hname,hfound⟩ := bind_eq_ok.mp hfound
    obtain ⟨spki,hspki,hfound⟩ := bind_eq_ok.mp hfound
    cases hfound
    exact ⟨orBad_eq_ok.mp hname,orBad_eq_ok.mp hspki⟩

/-- The loop reads a prefix of the chain and nothing else. -/
theorem climb_ok {first : Bool} {certs : List Certificate} {c : Climb Key}
    (h : climb crypto store crls now first certs = .ok c) : Climbed crypto store crls now c.path c.anchor ∧
      (∀ leafIssuer, c.leafIssuer = some leafIssuer → IsLeafIssuer c.path c.anchor leafIssuer) ∧
      (∃ rest, certs = c.path ++ rest) ∧ ∀ rest, climb crypto store crls now first (c.path ++ rest) = .ok c := by
  induction certs generalizing first c with
  | nil => cases h
  | cons cert above ih =>
    obtain ⟨found,hfound,h⟩ := bind_eq_ok.mp h
    cases found with
    | some anchor =>
      obtain ⟨_,hrevocation,h⟩ := bind_eq_ok.mp h
      cases h
      obtain ⟨hmem,hsigned,hname⟩ := anchorFor_some hfound
      refine ⟨.anchored hmem hsigned hname (checkRevocation_ok hrevocation),?_,⟨above,rfl⟩,?_⟩
      · intro leafIssuer hleaf
        cases first with
        | true => exact (Option.some.inj hleaf).symm
        | false => cases hleaf
      · intro rest
        exact bind_eq_ok.mpr ⟨some anchor,hfound,bind_eq_ok.mpr ⟨(),hrevocation,rfl⟩⟩
    | none =>
      cases above with
      | nil =>
        obtain ⟨_,-,h⟩ := bind_eq_ok.mp h
        cases h
      | cons issuer above =>
        obtain ⟨_,hissued,h⟩ := bind_eq_ok.mp h
        obtain ⟨leafIssuer,hleafIssuer,h⟩ := bind_eq_ok.mp h
        obtain ⟨c',hc',h⟩ := bind_eq_ok.mp h
        cases h
        obtain ⟨hclimbed,-,⟨rest,hrest⟩,hany⟩ := ih hc'
        obtain ⟨key,hkey,hsigned,hname,hunrevoked⟩ := checkIssued_ok hissued
        -- the path above starts with the issuer
        obtain ⟨path,hpath⟩ : ∃ path, c'.path = issuer :: path := by
          cases hpath : c'.path with
          | nil => exact absurd hpath hclimbed.ne_nil
          | cons issuer' path =>
            rw [hpath,cons_append,List.cons.injEq] at hrest
            exact ⟨path,by rw [hrest.1]⟩
        dsimp only
        rw [hpath] at hclimbed hany hrest ⊢
        refine ⟨.issued hkey hsigned hname hunrevoked hclimbed,?_,⟨rest,?_⟩,?_⟩
        · intro leaf hleaf
          exact leafIssuerFrom_ok (hleaf ▸ hleafIssuer)
        · rw [hrest]
          rfl
        · intro rest
          refine bind_eq_ok.mpr ⟨none,hfound,bind_eq_ok.mpr ⟨(),hissued,?_⟩⟩
          refine bind_eq_ok.mpr ⟨leafIssuer,hleafIssuer,bind_eq_ok.mpr ⟨c',hany rest,?_⟩⟩
          rw [hpath]
          rfl
variable {path : List Certificate} {anchor : TrustAnchor Key}
variable (h : Climbed crypto store crls now path anchor)
include h
theorem Climbed.anchor_mem : anchor ∈ store.anchors := by
  induction h with
  | anchored hmem _ _ _ => exact hmem
  | issued _ _ _ _ _ ih => exact ih

theorem Climbed.isChain : path.IsChain (IssuedBy crypto) := by
  induction h with
  | anchored => exact .singleton _
  | issued hkey hsigned hname _ _ ih => exact isChain_cons_cons.mpr ⟨⟨hname,_,hkey,hsigned⟩,ih⟩

theorem Climbed.top {cert : Certificate} (hcert : path.getLast? = some cert) :
    Signed crypto cert anchor.key ∧ cert.issuerDer = .ok anchor.subjectDer := by
  induction h with
  | anchored _ hsigned hname _ =>
    cases hcert
    exact ⟨hsigned,hname⟩
  | issued _ _ _ _ _ ih => exact ih (by rwa [getLast?_cons_cons] at hcert)

theorem Climbed.unrevoked {i : Nat} {cert : Certificate} {key : Key} (hcert : path[i]? = some cert)
    (hkey : SignerKey crypto anchor path[i + 1]? key) : Unrevoked crypto crls now cert key path[i + 1]? := by
  induction h generalizing i with
  | anchored _ _ _ hunrevoked =>
    cases i with
    | zero =>
      cases hcert
      cases hkey
      exact hunrevoked
    | succ i => cases hcert
  | issued hissuerKey _ _ hunrevoked _ ih =>
    cases i with
    | zero =>
      cases hcert
      cases hissuerKey.symm.trans hkey
      exact hunrevoked
    | succ i => exact ih hcert hkey
end Climbing
section Parsing
variable {α β ε : Type} {f : α → Except ε β}
theorem length_of_mapM {l : List α} {m : List β} (h : l.mapM f = .ok m) : m.length = l.length := by
  induction l generalizing m with
  | nil =>
    cases h
    rfl
  | cons a l ih =>
    rw [mapM_cons] at h
    obtain ⟨b,-,h⟩ := bind_eq_ok.mp h
    obtain ⟨m,hm,h⟩ := bind_eq_ok.mp h
    cases h
    rw [length_cons,length_cons,ih hm]

theorem exists_mapM {l : List α} (h : ∀ a ∈ l, ∃ b, f a = .ok b) : ∃ m, l.mapM f = .ok m := by
  induction l with
  | nil => exact ⟨[],rfl⟩
  | cons a l ih =>
    obtain ⟨b,hb⟩ := h a mem_cons_self
    obtain ⟨m,hm⟩ := ih fun a ha => h a (mem_cons_of_mem _ ha)
    refine ⟨b :: m,?_⟩
    rw [mapM_cons]
    exact bind_eq_ok.mpr ⟨b,hb,bind_eq_ok.mpr ⟨m,hm,rfl⟩⟩

theorem mapM_take {l l' : List α} {m n : List β} (h : l.mapM f = .ok (m ++ n))
    (htake : l'.take m.length = l.take m.length) (hl' : ∀ a ∈ l', ∃ b, f a = .ok b) :
    ∃ n', l'.mapM f = .ok (m ++ n') := by
  rw [← take_append_drop m.length l,mapM_append] at h
  obtain ⟨m₁,hm₁,h⟩ := bind_eq_ok.mp h
  obtain ⟨n₁,hn₁,h⟩ := bind_eq_ok.mp h
  have happend : m₁ ++ n₁ = m ++ n := Except.ok.inj h
  have hlength := length_of_mapM hm₁
  have hlengths := length_of_mapM hn₁
  have htotal := congrArg List.length happend
  simp only [length_append,length_take,length_drop] at hlength hlengths htotal
  obtain ⟨rfl,-⟩ := append_inj happend (by omega)
  obtain ⟨n',hn'⟩ := exists_mapM (l := l'.drop m₁.length) fun a ha => hl' a (mem_of_mem_drop ha)
  refine ⟨n',?_⟩
  rw [← take_append_drop m₁.length l',mapM_append,htake]
  exact bind_eq_ok.mpr ⟨m₁,hm₁,bind_eq_ok.mpr ⟨n',hn',rfl⟩⟩
end Parsing
/-- A path from the leaf up to the certificate below `anchor`. -/
structure SoundPath (path : List Certificate) (anchor : TrustAnchor Key) (leafIssuer : LeafIssuer) :
    Prop where
  ne_nil : path ≠ []
  anchor_mem : anchor ∈ store.anchors
  issued : path.IsChain (IssuedBy crypto)
  top : ∀ cert, path.getLast? = some cert →
    Signed crypto cert anchor.key ∧ cert.issuerDer = .ok anchor.subjectDer
  cas : ∀ cert ∈ path.tail, MaySignCerts cert
  valid : ∀ cert ∈ path, ∀ t, now = some t →
    ∃ validity, cert.validity = .ok validity ∧ validity.accepts t = true
  trusted : ∀ cert ∈ path, ¬ Distrusted crypto store cert
  unrevoked : ∀ (i : Nat) (cert : Certificate) (key : Key), path[i]? = some cert →
    SignerKey crypto anchor path[i + 1]? key → Unrevoked crypto crls now cert key path[i + 1]?
  leafIssuer : IsLeafIssuer path anchor leafIssuer
section Verification
variable {crypto store crls now} {names : NameReader} {purpose : ChainPurpose}
  {policyOpts : PolicyOptions}
theorem verifyCertificates_ok {certs : List Certificate} {v : VerifiedChain Key}
    (h : verifyCertificates crypto store crls now names purpose policyOpts certs = .ok v) :
    ∃ path rest anchor, certs = path ++ rest ∧ SoundPath crypto store crls now path anchor v.leafIssuer ∧
      ∀ rest, verifyCertificates crypto store crls now names purpose policyOpts (path ++ rest) = .ok v := by
  obtain ⟨c,hc,h⟩ := bind_eq_ok.mp h
  obtain ⟨_,hpath,h⟩ := bind_eq_ok.mp h
  obtain ⟨hclimbed,hleafIssuer,⟨rest,hrest⟩,hany⟩ := climb_ok hc
  obtain ⟨leaf,path,hcons⟩ := exists_cons_of_ne_nil hclimbed.ne_nil
  have hhead : ∀ rest, (c.path ++ rest).head? = some leaf := by
    intro rest
    rw [hcons]
    rfl
  rw [hrest,hhead rest] at h
  cases hissuer : c.leafIssuer with
  | none =>
    rw [hissuer] at h
    cases h
  | some leafIssuer =>
    have htail := h
    rw [hissuer] at h
    obtain ⟨leafKey,-,h⟩ := bind_eq_ok.mp h
    cases h
    refine ⟨c.path,rest,c.anchor,hrest,?_,fun rest => ?_⟩
    · obtain ⟨_,hdistrust,hpath⟩ := bind_eq_ok.mp hpath
      obtain ⟨_,-,hpath⟩ := bind_eq_ok.mp hpath
      obtain ⟨_,-,hpath⟩ := bind_eq_ok.mp hpath
      obtain ⟨_,hvalidity,hpath⟩ := bind_eq_ok.mp hpath
      obtain ⟨_,-,hpath⟩ := bind_eq_ok.mp hpath
      obtain ⟨_,hcas,-⟩ := bind_eq_ok.mp hpath
      exact {
        ne_nil := hclimbed.ne_nil
        anchor_mem := hclimbed.anchor_mem
        issued := hclimbed.isChain
        top := fun cert hcert => hclimbed.top hcert
        cas := enforceConstraints_ok hcas
        valid := fun cert hcert t ht => checkValidity_ok (forM_eq_ok.mp hvalidity cert hcert) ht
        trusted := fun cert hcert => checkDistrust_ok (forM_eq_ok.mp hdistrust cert hcert)
        unrevoked := fun i cert key hcert hkey => hclimbed.unrevoked hcert hkey
        leafIssuer := hleafIssuer leafIssuer hissuer }
    · refine bind_eq_ok.mpr ⟨c,hany rest,bind_eq_ok.mpr ⟨(),hpath,?_⟩⟩
      rw [hhead rest]
      exact htail
end Verification
/-- A chain that verifies has a sound path at its start, and only that start matters. -/
theorem verifyChainInner_sound (crypto : Crypto Key) (store : RootCertStore Key) (crls : List Crl)
    (now : Option Time) (names : NameReader) (purpose : ChainPurpose) (policyOpts : PolicyOptions)
    (chain : List Bytes) (v : VerifiedChain Key)
    (h : verifyChainInner crypto store crls now names purpose policyOpts chain = .ok v) :
    ∃ certs k anchor, chain.mapM (fun der => orBad (crypto.fromDer der)) = .ok certs ∧
      k ≤ certs.length ∧ SoundPath crypto store crls now (certs.take k) anchor v.leafIssuer ∧
      ∀ chain', chain'.take k = chain.take k → chain'.length ≤ maxChainLen →
        (∀ der ∈ chain', ∃ cert, crypto.fromDer der = .ok cert) →
        verifyChainInner crypto store crls now names purpose policyOpts chain' = .ok v := by
  unfold verifyChainInner at h
  split_ifs at h with hlength
  obtain ⟨certs,hcerts,h⟩ := bind_eq_ok.mp h
  obtain ⟨path,rest,anchor,rfl,hsound,hany⟩ := verifyCertificates_ok h
  refine ⟨path ++ rest,path.length,anchor,hcerts,by simp,?_,fun chain' htake hlen hparse => ?_⟩
  · rwa [take_left]
  · obtain ⟨rest',hrest'⟩ := mapM_take hcerts htake fun der hder => by
      obtain ⟨cert,hcert⟩ := hparse der hder
      exact ⟨cert,orBad_eq_ok.mpr hcert⟩
    have hne : chain' ≠ [] := by
      rintro rfl
      have hnil : path ++ rest' = [] := (Except.ok.inj hrest').symm
      exact hsound.ne_nil (append_eq_nil_iff.mp hnil).1
    unfold verifyChainInner
    rw [if_neg (by simpa [hne] using hlen)]
    exact bind_eq_ok.mpr ⟨path ++ rest',hrest',hany rest'⟩

/-- `serial` under the name `subject`, issued by `issuer`; the key is the name. -/
private def issuedCert (issuer subject serial : UInt8) (isCa : Bool) : Certificate where
  issuerDer := .ok [issuer]
  subjectDer := .ok [subject]
  serialBytes := .ok [serial]
  spkiDer := .ok [subject]
  signatureAlgorithm := .ok []
  checkSignatureAlgidConsistent := .ok ()
  basicConstraints := .ok (some (isCa, none))

/-- Keys are names, and what is signed is signed by the one it names. -/
private def nameKeys : Crypto Bytes where
  fromDer
    | [issuer, subject, serial, isCa] => .ok (issuedCert issuer subject serial (isCa == 1))
    | _ => .error .malformed
  certKey cert := cert.subjectDer
  signatureAlgorithm _ _ := some 0
  toSpkiDer key := key
  permits _ _ := true
  certSignature cert key := match cert.issuerDer with
    | .ok name => name == key
    | .error _ => false
  crlSignature crl key := crl.der == key
  sha256 bytes := bytes

/-- The root `1`. -/
private def nameStore : RootCertStore Bytes where
  anchors := [⟨[1], [1], [1], none, none, none, none, [], none⟩]

/-- A list in the name of the root that revokes `7`. -/
private def rootCrl (signer : Bytes) : Crl := ⟨signer, .ok [1], .ok [], .error .malformed, .error .malformed, .ok [[7]]⟩

/-- A leaf, an intermediate, the root and a stray certificate on top. -/
theorem verifyChainInner_sound_intermediate :
    ∃ certs k anchor, [[2, 3, 7, 0], [1, 2, 6, 1], [9, 9, 9, 9]].mapM
        (fun der => orBad (nameKeys.fromDer der)) = .ok certs ∧
      k ≤ certs.length ∧ SoundPath nameKeys nameStore [rootCrl [1]] none (certs.take k) anchor ⟨[2], [2]⟩ ∧
      ∀ chain', chain'.take k = [[2, 3, 7, 0], [1, 2, 6, 1], [9, 9, 9, 9]].take k →
        chain'.length ≤ maxChainLen → (∀ der ∈ chain', ∃ cert, nameKeys.fromDer der = .ok cert) →
        verifyChainInner nameKeys nameStore [rootCrl [1]] none .empty .server .none chain' =
          .ok ⟨[3], ⟨[2], [2]⟩⟩ :=
  verifyChainInner_sound nameKeys nameStore [rootCrl [1]] none .empty .server .none
    [[2, 3, 7, 0], [1, 2, 6, 1], [9, 9, 9, 9]] ⟨[3],⟨[2],[2]⟩⟩ (by rfl)

/-- Eight lists that the root did not sign come before the one that it did. -/
theorem verifyChainInner_ninth_crl :
    let crls := List.replicate 8 (rootCrl [5]) ++ [rootCrl [1]]
    let leaf := issuedCert 1 3 7 false
    nameKeys.fromDer [1, 3, 7, 0] = .ok leaf ∧
      verifyChainInner nameKeys nameStore crls none .empty .server .none [[1, 3, 7, 0]] =
        .ok ⟨[3],⟨[1],[1]⟩⟩ ∧
      Covering nameKeys crls none leaf [1] none (rootCrl [1]) ∧
      leaf.serialBytes = .ok [7] ∧ (rootCrl [1]).isRevoked [7] = .ok true := by
  refine ⟨rfl,rfl,⟨⟨[1],rfl,?_⟩,rfl,rfl,rfl,rfl⟩,rfl,rfl⟩
  refine mem_filter.mpr ⟨?_,rfl⟩
  exact mem_append_right _ (List.mem_singleton.mpr rfl)
end PureCrypto.Pki
