import PureCrypto.Tls.ConnectionCore
import PureCrypto.Tls.LastNonzero

/-! # Records between two cores -/
namespace PureCrypto.Tls
open List
open ByteReader (FixedBytes)
/-- Decryption gives back what was encrypted. -/
def Aead.Inverts (aead : Aead) : Prop :=
  ∀ nonce aad buf,
    aead.decrypt nonce aad (aead.encrypt nonce aad buf).1 (aead.encrypt nonce aad buf).2 = some buf

theorem Aead.inverts_null : Aead.null.Inverts := fun _ _ _ => rfl
namespace RecordCrypter
variable {k : RecordCrypter} {ct : ContentType} {content : List UInt8}
def next (k : RecordCrypter) : RecordCrypter := { k with seq := k.seq + 1 }

/-- The fragment of the protected record that carries `content`. -/
def sealFragment (k : RecordCrypter) (ct : ContentType) (content : List UInt8) : List UInt8 :=
  let (text, tag) := k.aead.encrypt (nonceFor k.iv k.seq)
    (protectedHeader (content.length + 1 + aeadTagLen)) (content ++ [ct.asU8])
  text ++ tag.toList

@[simp] theorem length_sealFragment : (k.sealFragment ct content).length = content.length + 1 + aeadTagLen := by
  simp [sealFragment,k.aead.length_encrypt,FixedBytes.length_eq,aeadTagLen]

theorem encryptInto_eq (hlen : content.length ≤ 2 ^ 14) (hseq : k.seq < maxRecordsPerKey)
    (out : List UInt8) : k.encryptInto ct content out =
      .ok (out ++ frame .applicationData (k.sealFragment ct content), k.next) := by
  have hframe : frame .applicationData (k.sealFragment ct content) =
      protectedHeader (content.length + 1 + aeadTagLen) ++ k.sealFragment ct content := by
    rw [frame,length_sealFragment]
    rfl
  rw [encryptInto,if_neg (Nat.not_lt.mpr hlen),hframe]
  simp [peekNonce,Nat.not_le.mpr hseq,sealFragment,next]
section Opening
variable (k ct content)
private theorem length_text : (k.aead.encrypt (nonceFor k.iv k.seq)
    (protectedHeader (content.length + 1 + aeadTagLen)) (content ++ [ct.asU8])).1.length = content.length + 1 := by
  simp [k.aead.length_encrypt]

theorem take_sealFragment : (k.sealFragment ct content).take (content.length + 1) =
    (k.aead.encrypt (nonceFor k.iv k.seq) (protectedHeader (content.length + 1 + aeadTagLen))
      (content ++ [ct.asU8])).1 :=
  take_left' (length_text k ct content)

theorem drop_sealFragment (h : ((k.sealFragment ct content).drop (content.length + 1)).length = 16) :
    (⟨(k.sealFragment ct content).drop (content.length + 1), h⟩ : FixedBytes 16) =
      (k.aead.encrypt (nonceFor k.iv k.seq) (protectedHeader (content.length + 1 + aeadTagLen))
        (content ++ [ct.asU8])).2 := by
  congr 1
  exact drop_left' (length_text k ct content)
end Opening
theorem ctFindLastNonzero_inner (hlen : content.length ≤ 2 ^ 14) (hct : ∀ code, ct ≠ .unknown code) :
    ctFindLastNonzero (content ++ [ct.asU8]) = .ok (ct.asU8, content.length) := by
  have hne : ct.asU8 ≠ 0 := by
    cases ct with
    | unknown code => exact absurd rfl (hct code)
    | _ => decide
  rw [ctFindLastNonzero_eq _ (by simp; omega),lastNonzero?_concat content hne]

/-- What was sealed is opened: the content lies at the front of the fragment as it is left. -/
theorem decryptInPlace_sealFragment (hinverts : k.aead.Inverts) (hlen : content.length ≤ 2 ^ 14)
    (hseq : k.seq < maxRecordsPerKey) (hct : ∀ code, ct ≠ .unknown code) :
    ∃ left, left.length = content.length + 1 + aeadTagLen ∧ left.take content.length = content ∧
      k.decryptInPlace (protectedHeader (content.length + 1 + aeadTagLen))
        (k.sealFragment ct content) = (.ok (ct, content.length), left, k.next) := by
  have hwide : ¬ (k.sealFragment ct content).length < aeadTagLen := by simp
  have hcap : ¬ maxReadSeq ≤ k.seq := by
    unfold maxReadSeq
    unfold maxRecordsPerKey at hseq
    omega
  refine ⟨content ++ [ct.asU8] ++ (k.sealFragment ct content).drop (content.length + 1),?_,?_,?_⟩
  · simp only [length_append,length_drop,length_sealFragment,length_singleton]
    omega
  · rw [append_assoc,take_left]
  · rw [RecordCrypter.decryptInPlace]
    simp only [length_sealFragment,Nat.add_sub_cancel,peekNonce,if_neg hcap,take_sealFragment,
      drop_sealFragment,hinverts _ _ _,ctFindLastNonzero_inner hlen hct,
      if_neg (Nat.not_lt.mpr hlen),ContentType.fromU8_asU8 hct]
    rfl
end RecordCrypter
namespace ConnectionCore
/-- A record on the wire, in the clear or under a key. -/
def wireRecord (key : Option RecordCrypter) (ct : ContentType) (content : List UInt8) : List UInt8 :=
  match key with
  | none => frame ct content
  | some k => frame .applicationData (k.sealFragment ct content)

/-- The key has not sealed too many, and the peer takes that much in one record. -/
structure Fits (limit : Option Nat) (key : Option RecordCrypter) (content : List UInt8) : Prop where
  length_le : content.length ≤ 2 ^ 14
  keyed : ∀ k ∈ key, k.aead.Inverts ∧ k.seq < maxRecordsPerKey ∧ ∀ l ∈ limit, content.length + 1 ≤ l
variable {c : ConnectionCore} {ct : ContentType} {content : List UInt8} {limit : Option Nat}
theorem emitOneRecord_eq (ct : ContentType) (h : Fits limit c.write content) :
    c.emitOneRecord ct content =
      { c with
        outbuf := c.outbuf ++ wireRecord c.write ct content
        write := c.write.map RecordCrypter.next } := by
  unfold emitOneRecord wireRecord
  cases hwrite : c.write with
  | none =>
    have hlen : content.length ≤ maxFragmentBlock := h.length_le.trans (by decide)
    simp [emitPlaintextRecord,writeRecord_eq _ _ hlen,hwrite]
  | some k => simp [RecordCrypter.encryptInto_eq h.length_le (h.keyed k hwrite).2.1]

def pieces (c : ConnectionCore) (payload : List UInt8) : List (List UInt8) :=
  if payload.length ≤ c.outboundFragmentCap then [payload]
  else fragments payload c.outboundFragmentCap
section
variable (c : ConnectionCore)
theorem emitRecord_eq (ct : ContentType) (payload : List UInt8) :
    c.emitRecord ct payload = (c.pieces payload).foldl (fun c p => c.emitOneRecord ct p) c := by
  unfold emitRecord pieces
  split_ifs <;> rfl

theorem outboundFragmentCap_pos : 0 < c.outboundFragmentCap := by
  unfold outboundFragmentCap maxPlaintextFragment
  split <;> omega
theorem outboundFragmentCap_le : c.outboundFragmentCap ≤ 2 ^ 14 := by
  unfold outboundFragmentCap maxPlaintextFragment
  split <;> omega

theorem flatten_pieces (payload : List UInt8) : (c.pieces payload).flatten = payload := by
  unfold pieces
  split_ifs
  · simp
  · exact flatten_fragments payload c.outboundFragmentCap_pos
end
variable {payload p : List UInt8}
theorem length_le_of_mem_pieces (hp : p ∈ c.pieces payload) : p.length ≤ c.outboundFragmentCap := by
  unfold pieces at hp
  split_ifs at hp with hfit
  · rw [List.mem_singleton.mp hp]
    exact hfit
  · exact length_le_of_mem_fragments c.outboundFragmentCap_pos hp

theorem ne_nil_of_mem_pieces (hne : payload ≠ []) (hp : p ∈ c.pieces payload) : p ≠ [] := by
  unfold pieces at hp
  split_ifs at hp
  · rw [List.mem_singleton.mp hp]
    exact hne
  · exact ne_nil_of_mem_fragments c.outboundFragmentCap_pos hne hp

def opened (c : ConnectionCore) : ConnectionCore :=
  { c with
    read := c.read.map RecordCrypter.next
    skipEarlyData := if c.read.isSome then none else c.skipEarlyData }

theorem opened_of_none (h : c.read = none) : c.opened = c := by
  cases c
  subst h
  rfl

/-- Application data only under a key, and only handshake fragments while one is pending. -/
structure Admits (c : ConnectionCore) (ct : ContentType) (content : List UInt8) : Prop where
  fits : Fits c.inboundRecordSizeLimit c.read content
  type : ct = .handshake ∨ ct = .alert ∨ ct = .applicationData ∧ c.read.isSome
  ne_nil : ct ≠ .applicationData → content ≠ []
  inside : c.hsPending ≠ [] → ct = .handshake

theorem Admits.known (h : c.Admits ct content) (code : UInt8) : ct ≠ .unknown code := by
  rcases h.type with rfl | rfl | ⟨rfl,-⟩ <;> exact ContentType.noConfusion

theorem processProtected_sealFragment {k : RecordCrypter} (h : c.Admits ct content)
    (hread : c.read = some k) : ∃ left, left.length = content.length + 1 + aeadTagLen ∧
      c.processProtected k (k.sealFragment ct content) =
        ((c.opened.dispatchInner ct content).1, left, (c.opened.dispatchInner ct content).2) := by
  obtain ⟨hinverts,hseq,hlimit⟩ := h.fits.keyed k hread
  obtain ⟨left,hlen,htake,hdec⟩ := RecordCrypter.decryptInPlace_sealFragment
    hinverts h.fits.length_le hseq h.known
  have hopened : { c with read := some k.next, skipEarlyData := none } = c.opened := by
    simp [opened,hread]
  have hsmall : ¬ c.inboundRecordSizeLimit.any
      (fun l => decide (l < left.length - aeadTagLen)) = true := by
    cases hl : c.inboundRecordSizeLimit with
    | none => simp
    | some l =>
      have := hlimit l hl
      simp only [Option.any_some,decide_eq_true_eq,hlen]
      omega
  refine ⟨left,hlen,?_⟩
  unfold processProtected
  rw [RecordCrypter.length_sealFragment,hdec]
  simp [hopened,if_neg hsmall,htake]

/-- A record passes the checks on its outside, and is routed the same way, sealed or not. -/
structure Routes (c : ConnectionCore) (ct : ContentType) (content : List UInt8) (outer : ContentType)
    (fragment left : List UInt8) : Prop where
  wire : wireRecord c.read ct content = frame outer fragment
  known : ∀ code, outer ≠ .unknown code
  length_le : fragment.length ≤ maxFragment
  plain : (outer != .applicationData && decide (2 ^ 14 < fragment.length)) = false
  inside : (!c.hsPending.isEmpty && outer != .handshake && outer != .applicationData) = false
  length_left : left.length = fragment.length
  process : c.processRecord outer fragment =
    ((c.opened.dispatchInner ct content).1, left, (c.opened.dispatchInner ct content).2)

theorem Admits.routes_keyed {k : RecordCrypter} (h : c.Admits ct content) (hread : c.read = some k) :
    ∃ left, c.Routes ct content .applicationData (k.sealFragment ct content) left := by
  obtain ⟨left,hlen,hprocess⟩ := processProtected_sealFragment h hread
  refine ⟨left,?_,fun code => ContentType.noConfusion,?_,by simp,by simp,?_,?_⟩
  · rw [hread]
    rfl
  · have := h.fits.length_le
    simp only [RecordCrypter.length_sealFragment,aeadTagLen,maxFragment]
    omega
  · rw [hlen,RecordCrypter.length_sealFragment]
  · simp [processRecord,hread,hprocess]

theorem Admits.routes_plain (h : c.Admits ct content) (hread : c.read = none) :
    c.Routes ct content ct content content := by
  have hlen := h.fits.length_le
  have hempty : ct ≠ .handshake → c.hsPending = [] := by
    intro hct
    by_contra hpending
    exact hct (h.inside hpending)
  refine ⟨by rw [hread]; rfl,h.known,hlen.trans (by decide),?_,?_,rfl,?_⟩
  · rw [decide_eq_false (Nat.not_lt.mpr hlen),Bool.and_false]
  · by_cases hct : ct = .handshake
    · simp [hct]
    · simp [hempty hct]
  · rw [opened_of_none hread]
    rcases h.type with rfl | rfl | ⟨-,hsome⟩
    · simp only [processRecord,dispatchInner,hread,List.isEmpty_iff,h.ne_nil (by decide)]
      cases c.appendHandshakeBytes content with
      | mk r c' => cases r <;> simp
    · simp [processRecord,dispatchInner,hread,h.ne_nil (by decide),hempty (by decide)]
    · rw [hread] at hsome
      cases hsome

theorem Admits.routes (h : c.Admits ct content) : ∃ outer fragment left, c.Routes ct content outer fragment left := by
  cases hread : c.read with
  | some k => exact ⟨_,_,h.routes_keyed hread⟩
  | none => exact ⟨_,_,_,h.routes_plain hread⟩

theorem putBack_drop {inbuf : List UInt8} {fragStart fragEnd : Nat} {left : List UInt8}
    (hinbuf : c.inbuf = inbuf) (hoff : c.inOff = fragEnd) (hlen : fragStart + left.length = fragEnd)
    (hend : fragEnd ≤ inbuf.length) : ∃ inbuf' inOff', inbuf'.drop inOff' = inbuf.drop fragEnd ∧
      c.putBack fragStart fragEnd left = { c with inbuf := inbuf', inOff := inOff' } := by
  have hfront : (inbuf.take fragStart ++ left).length = fragEnd := by
    rw [length_append,length_take]
    omega
  unfold putBack
  simp only [hinbuf,hoff]
  by_cases hall : fragEnd = (inbuf.take fragStart ++ left ++ inbuf.drop fragEnd).length
  · refine ⟨[],0,?_,if_pos hall⟩
    rw [length_append] at hall
    have hnone : (inbuf.drop fragEnd).length = 0 := by omega
    rw [length_eq_zero_iff.mp hnone]
    rfl
  · rw [if_neg hall]
    refine ⟨inbuf.take fragStart ++ left ++ inbuf.drop fragEnd,fragEnd,?_,?_⟩
    · exact drop_left' hfront
    · rfl

def Turn.ofRouted (o : Option Incoming) (c : ConnectionCore) : Turn :=
  match o with
  | some message => .done (.ok (some message)) c
  | none => .again c

theorem turn_wireRecord (h : c.Admits ct content) (hpop : c.popHandshake = none)
    {more : List UInt8} (hbuf : c.inbuf.drop c.inOff = wireRecord c.read ct content ++ more)
    {o : Option Incoming} (routed : ConnectionCore) (hinbuf : routed.inbuf = c.inbuf)
    (hroute : ∀ off, { c.opened with inOff := off }.dispatchInner ct content =
      (.ok o, { routed with inOff := off })) :
    ∃ inbuf inOff, inbuf.drop inOff = more ∧
      c.turn = Turn.ofRouted o { routed with inbuf, inOff } := by
  let off := c.inOff + (wireRecord c.read ct content).length
  have hmoved : ({ c with inOff := off }).Admits ct content :=
    ⟨h.fits,h.type,h.ne_nil,h.inside⟩
  obtain ⟨outer,fragment,left,hr⟩ := hmoved.routes
  have hwire : wireRecord c.read ct content = frame outer fragment := hr.wire
  have hoff : c.inOff + (5 + fragment.length) = off := by
    simp [off,hwire]
  have hend : off ≤ c.inbuf.length := by
    have hlen := congrArg List.length hbuf
    rw [length_drop,length_append,hwire,length_frame] at hlen
    omega
  have hprocess := hr.process
  rw [show ({ c with inOff := off } : ConnectionCore).opened = { c.opened with inOff := off } from rfl,
    hroute off] at hprocess
  obtain ⟨inbuf,inOff,hdrop,hput⟩ := putBack_drop (c := { routed with inOff := off }) hinbuf
    (show off = c.inOff + 5 + fragment.length by omega) (by rw [hr.length_left]) (by omega)
  refine ⟨inbuf,inOff,?_,?_⟩
  · rw [hdrop,Nat.add_assoc,hoff,← drop_drop,hbuf,drop_left]
  · have hrecord : readRecord (c.inbuf.drop c.inOff) =
        .ok (some ⟨outer,legacyVersion,fragment,5 + fragment.length⟩) := by
      rw [hbuf,hwire]
      exact readRecord_frame hr.known hr.length_le more
    have hlegal : (!isLegalRecordVersion legacyVersion) = false := rfl
    unfold turn consume
    simp only [hpop,hrecord,hoff,hlegal,hr.plain,hr.inside,hprocess,Bool.false_eq_true,if_false]
    cases o with
    | none => simp [hput,Turn.ofRouted]
    | some message => simp [hput,Turn.ofRouted]

theorem turn_wait (h : c.Admits ct content) (hpop : c.popHandshake = none)
    (hpart : c.inbuf.drop c.inOff <+: wireRecord c.read ct content)
    (hshort : (c.inbuf.drop c.inOff).length < (wireRecord c.read ct content).length) :
    c.turn = .done (.ok none) c := by
  obtain ⟨outer,fragment,left,hr⟩ := h.routes
  rw [hr.wire] at hpart hshort
  rw [length_frame] at hshort
  unfold turn
  simp [hpop, readRecord_partial hr.length_le hpart hshort]
end ConnectionCore
end PureCrypto.Tls
