import PureCrypto.Framework.Trace
import PureCrypto.Tls.ConnectionCore

/-! # Handshake messages and the records between their fragments -/
namespace PureCrypto.Tls
open List Option
open ByteReader (FixedBytes)
/-- The read key (`0` before the first one), the sequence number if it was opened, and the content.
-/
structure Received where
  epoch : Nat
  seq : Option Nat
  contentType : ContentType
  content : List UInt8
deriving DecidableEq

/-- The sequence numbers of the records opened under a key, in the order they were received. -/
def seqsOf (epoch : Nat) (log : List Received) : List Nat :=
  log.filterMap fun r => if r.epoch = epoch then r.seq else none

/-- `m` lies inside the handshake records received last, one after the other under one key. -/
def Intact (log : List Received) (m : List UInt8) : Prop :=
  ∃ before run epoch, log = before ++ run ∧
    (∀ r ∈ run, r.contentType = .handshake ∧ r.epoch = epoch ∧ (r.seq.isSome ↔ epoch ≠ 0)) ∧
    m <:+: (run.map Received.content).flatten

/-- Bytes that reach back over a record of another type are not intact. -/
theorem not_intact {before : List Received} {other last : Received} {m : List UInt8}
    (hother : other.contentType ≠ .handshake) (hlong : last.content.length < m.length) :
    ¬ Intact (before ++ [other, last]) m := by
  rintro ⟨before',run,epoch,hlog,hrun,hm⟩
  -- the run stops behind `other`, so it holds no more than the last record
  have hsuffix : run <:+ [last] := by
    have hrun' : run <:+ before ++ [other, last] := hlog ▸ suffix_append before' run
    rcases suffix_or_suffix_of_suffix hrun' (suffix_append _ _) with h | h
    · rcases suffix_cons_iff.mp h with rfl | h
      · exact absurd (hrun other (by simp)).1 hother
      · exact h
    · exact absurd (hrun other (h.subset (by simp))).1 hother
  have hlen : (run.map Received.content).flatten.length ≤ last.content.length := by
    rcases suffix_cons_iff.mp hsuffix with rfl | h
    · simp
    · rw [suffix_nil.mp h]
      simp
  exact absurd (hm.length_le.trans hlen) (Nat.not_le.mpr hlong)
namespace ConnectionCore
/-- The record the next round of `nextMessage` reads. -/
def current (c : ConnectionCore) : Option ParsedRecord :=
  match c.popHandshake with
  | some _ => none
  | none =>
    match readRecord (c.inbuf.drop c.inOff) with
    | .ok record => record
    | .error _ => none

/-- What a record holds under the read key of `c`. -/
def view (c : ConnectionCore) (epoch : Nat) (contentType : ContentType) (fragment : List UInt8) :
    Received :=
  match contentType, c.read with
  | .applicationData, some crypter =>
    match crypter.decryptInPlace (protectedHeader fragment.length) fragment with
    | (.ok (innerCt, stop), left, _) => ⟨epoch, some crypter.seq, innerCt, left.take stop⟩
    | (.error _, _, _) => ⟨epoch, none, .applicationData, fragment⟩
  | ct, _ => ⟨epoch, none, ct, fragment⟩

/-- The records that the rounds of `nextMessage` read. -/
def heard (epoch : Nat) : Nat → ConnectionCore → List Received
  | 0, _ => []
  | fuel + 1, c =>
    (c.current.map fun record => c.view epoch record.contentType record.fragment).toList ++
      match c.turn with
      | .again c => heard epoch fuel c
      | .done _ _ => []

/-- The next record is skipped as early data while a handshake message is pending. -/
def SkipsInside (c : ConnectionCore) : Prop :=
  c.hsPending ≠ [] ∧ ∃ record ∈ c.current, record.contentType = .applicationData ∧
    (∃ budget ∈ c.skipEarlyData, record.fragment.length ≤ budget) ∧
    ∀ crypter ∈ c.read,
      (crypter.decryptInPlace (protectedHeader record.fragment.length) record.fragment).1 =
        .error .badRecordMac

/-- No round of `nextMessage` skips a record inside a handshake message. -/
def Clean : Nat → ConnectionCore → Prop
  | 0, _ => True
  | fuel + 1, c => ¬ c.SkipsInside ∧ match c.turn with
      | .again c => Clean fuel c
      | .done _ _ => True

instance (c : ConnectionCore) : Decidable c.SkipsInside :=
  inferInstanceAs (Decidable (_ ∧ ∃ record ∈ c.current, _ ∧ (∃ budget ∈ c.skipEarlyData, _) ∧
    ∀ crypter ∈ c.read, _))

instance Clean.decidable : (fuel : Nat) → (c : ConnectionCore) → Decidable (Clean fuel c)
  | 0, _ => isTrue trivial
  | fuel + 1, c => by
    unfold Clean
    have := Clean.decidable fuel
    cases c.turn <;> infer_instance

/-- An accepted record continues the pending handshake message, or nothing is pending. -/
structure Takes (c : ConnectionCore) (r : Received) (c' : ConnectionCore) : Prop where
  pending : (r.contentType = .handshake ∧ r.seq.isSome = c.read.isSome ∧
      c'.hsPending = c.hsPending ++ r.content) ∨
    (c.hsPending = [] ∧ c'.hsPending = [])
  key : (r.seq = none ∧ c'.read = c.read) ∨
    ∃ crypter, c.read = some crypter ∧ r.seq = some crypter.seq ∧
      ∃ crypter', c'.read = some crypter' ∧ crypter'.seq = crypter.seq + 1
variable {c c' : ConnectionCore}
theorem appendHandshakeBytes_ok {bytes : List UInt8}
    (h : c.appendHandshakeBytes bytes = (.ok (), c')) :
    c' = { c with hsPending := c.hsPending ++ bytes } := by
  unfold appendHandshakeBytes at h
  split_ifs at h
  · cases h
  · cases h
    rfl
variable {o : Option Incoming} {fragment header left m : List UInt8}
  {crypter crypter' : RecordCrypter} {epoch : Nat} {log : List Received}
theorem parseAlert_ok {body : List UInt8} (h : (parseAlert body).map some = .ok o) (m : List UInt8) :
    o ≠ some (.handshake m) := by
  unfold parseAlert at h
  split at h
  · cases h
    simp
  · cases h

theorem dispatchInner_ok {innerCt : ContentType} {content : List UInt8}
    (h : c.dispatchInner innerCt content = (.ok o, c')) :
    c'.read = c.read ∧ ((innerCt = .handshake ∧ c'.hsPending = c.hsPending ++ content) ∨
      (c.hsPending = [] ∧ c'.hsPending = [])) ∧ ∀ m, o ≠ some (.handshake m) := by
  unfold dispatchInner at h
  by_cases hinside : (!c.hsPending.isEmpty && innerCt != .handshake) = true
  · rw [if_pos hinside] at h
    cases h
  rw [if_neg hinside] at h
  have hempty : innerCt ≠ .handshake → c.hsPending = [] := by
    intro hct
    simpa [hct] using hinside
  cases innerCt with
  | handshake =>
    simp only at h
    split_ifs at h
    · cases h
    · cases hadd : c.appendHandshakeBytes content with
      | mk r added =>
        rw [hadd] at h
        cases r with
        | error e => cases h
        | ok u =>
          cases h
          rw [appendHandshakeBytes_ok hadd]
          exact ⟨rfl,.inl ⟨rfl,rfl⟩,by simp⟩
  | applicationData =>
    have hnone := hempty (by decide)
    obtain ⟨rfl,rfl⟩ := h
    refine ⟨?_,?_,by simp⟩
    · split_ifs <;> rfl
    · split_ifs <;> exact .inr ⟨hnone,hnone⟩
  | alert =>
    have hnone := hempty (by decide)
    simp only at h
    split_ifs at h
    · cases h
    · simp only [Prod.mk.injEq] at h
      obtain ⟨hparse,rfl⟩ := h
      exact ⟨rfl,.inr ⟨hnone,hnone⟩,parseAlert_ok hparse⟩
  | changeCipherSpec => cases h
  | unknown code => cases h

/-- A record is skipped between messages only. -/
theorem skipRecord_ok {e : Error} (h : c.skipRecord fragment e = (.ok o, c')) (harmed : c.skipEarlyData.isSome)
    (hclean : c.hsPending ≠ [] → ¬ ∃ budget, c.skipEarlyData = some budget ∧ fragment.length ≤ budget) :
    c'.read = c.read ∧ (c.hsPending = [] ∧ c'.hsPending = []) ∧ ∀ m, o ≠ some (.handshake m) := by
  obtain ⟨budget,hbudget⟩ := isSome_iff_exists.mp harmed
  simp only [skipRecord,hbudget] at h
  split_ifs at h with hfit <;> cases h
  have hnone : c.hsPending = [] := by
    by_contra hne
    exact hclean hne ⟨budget,hbudget,hfit⟩
  exact ⟨rfl,⟨hnone,hnone⟩,by simp⟩

theorem ctFindLastNonzero_error {buf : List UInt8} {e : Error} (h : ctFindLastNonzero buf = .error e) :
    e = .peerMisbehaved := by
  unfold ctFindLastNonzero at h
  split_ifs at h
  · cases h
    rfl
  · simp only at h
    split_ifs at h
    cases h
    rfl

theorem decryptInPlace_cases {result : Except Error (ContentType × Nat)}
    (h : crypter.decryptInPlace header fragment = (result, left, crypter')) :
    (∀ r, result = .ok r → crypter'.seq = crypter.seq + 1) ∧
      (result = .error .badRecordMac → crypter' = crypter ∧ left = fragment) := by
  unfold RecordCrypter.decryptInPlace at h
  split_ifs at h
  · cases h
    simp
  · cases hnonce : crypter.peekNonce maxReadSeq with
    | error e =>
      rw [hnonce] at h
      cases h
      simp
    | ok nonce =>
      rw [hnonce] at h
      simp only at h
      split at h
      · cases h
        simp
      · -- the AEAD accepted: whatever is wrong behind it is another error
        simp only [Prod.mk.injEq] at h
        obtain ⟨rfl,-,rfl⟩ := h
        refine ⟨fun _ _ => rfl,fun hresult => ?_⟩
        split at hresult
        · next e hfind =>
            rw [ctFindLastNonzero_error hfind] at hresult
            cases hresult
        · split_ifs at hresult
          cases hresult

/-- A protected record that is accepted, or skipped outside a message. -/
theorem processProtected_takes (hread : c.read = some crypter)
    (h : c.processProtected crypter fragment = (.ok o, left, c'))
    (hclean : c.hsPending ≠ [] → ¬ ((∃ budget, c.skipEarlyData = some budget ∧ fragment.length ≤ budget) ∧ (crypter.decryptInPlace (protectedHeader fragment.length) fragment).1 = .error .badRecordMac))
    (epoch : Nat) : c.Takes (c.view epoch .applicationData fragment) c' ∧ ∀ m, o ≠ some (.handshake m) := by
  unfold processProtected at h
  simp only [view,hread]
  cases hdec : crypter.decryptInPlace (protectedHeader fragment.length) fragment with
  | mk r rest =>
    obtain ⟨opened,crypter'⟩ := rest
    rw [hdec] at h hclean
    cases r with
    | ok inner =>
      simp only at h ⊢
      split_ifs at h
      · cases h
      · simp only [Prod.mk.injEq] at h
        obtain ⟨hr,-,hc'⟩ := h
        obtain ⟨hkey,hpending,hmessage⟩ := dispatchInner_ok (Prod.ext hr hc')
        refine ⟨⟨?_,.inr ⟨crypter,hread,rfl,crypter',hkey,(decryptInPlace_cases hdec).1 _ rfl⟩⟩,hmessage⟩
        exact hpending.imp (fun hp => ⟨hp.1,by rw [hread]; rfl,hp.2⟩) id
    | error e =>
      simp only at h hclean ⊢
      split_ifs at h with hskip
      · obtain ⟨rfl,harmed⟩ := hskip
        obtain ⟨rfl,rfl⟩ := (decryptInPlace_cases hdec).2 rfl
        simp only [Prod.mk.injEq] at h
        obtain ⟨hr,-,hc'⟩ := h
        obtain ⟨hkey,hpending,hmessage⟩ :=
          skipRecord_ok (Prod.ext hr hc') harmed fun hne hfit => hclean hne ⟨hfit,rfl⟩
        exact ⟨⟨.inr hpending,.inl ⟨rfl,hkey.trans hread.symm⟩⟩,hmessage⟩
      · cases h

theorem processRecord_takes {ct : ContentType} (h : c.processRecord ct fragment = (.ok o, left, c'))
    (hinside : c.hsPending ≠ [] → ct = .handshake ∨ ct = .applicationData)
    (hclean : c.hsPending ≠ [] → ct = .applicationData → ¬ ((∃ budget, c.skipEarlyData = some budget ∧ fragment.length ≤ budget) ∧ ∀ crypter, c.read = some crypter → (crypter.decryptInPlace (protectedHeader fragment.length) fragment).1 = .error .badRecordMac))
    (epoch : Nat) : c.Takes (c.view epoch ct fragment) c' ∧ ∀ m, o ≠ some (.handshake m) := by
  have hempty : ct ≠ .handshake → ct ≠ .applicationData → c.hsPending = [] := by
    intro hh ha
    by_contra hne
    exact (hinside hne).elim hh ha
  unfold processRecord at h
  cases ct with
  | changeCipherSpec =>
    have hnone := hempty (by decide) (by decide)
    simp only at h
    split_ifs at h
    · cases h
    · cases h
      exact ⟨⟨.inr ⟨hnone,hnone⟩,.inl ⟨rfl,rfl⟩⟩,by simp⟩
  | applicationData =>
    cases hread : c.read with
    | some crypter =>
      simp only [hread] at h
      refine processProtected_takes hread h (fun hne hskip => hclean hne rfl ⟨hskip.1,?_⟩) epoch
      intro crypter₁ h₁
      rw [hread] at h₁
      cases h₁
      exact hskip.2
    | none =>
      simp only [hread] at h
      split_ifs at h with harmed
      · simp only [Prod.mk.injEq] at h
        obtain ⟨hr,-,hc'⟩ := h
        obtain ⟨hkey,hpending,hmessage⟩ :=
          skipRecord_ok (Prod.ext hr hc') harmed fun hne hfit => hclean hne rfl ⟨hfit,by simp [hread]⟩
        simp only [view,hread]
        exact ⟨⟨.inr hpending,.inl ⟨rfl,hkey⟩⟩,hmessage⟩
      · cases h
  | handshake =>
    simp only at h
    split_ifs at h with hkeys hzero
    · cases h
    · cases h
    · cases hadd : c.appendHandshakeBytes fragment with
      | mk r added =>
        rw [hadd] at h
        cases r with
        | error e => cases h
        | ok u =>
          cases h
          rw [appendHandshakeBytes_ok hadd]
          refine ⟨⟨.inl ⟨rfl,?_,rfl⟩,.inl ⟨rfl,rfl⟩⟩,by simp⟩
          simpa [view] using hkeys
  | alert =>
    have hnone := hempty (by decide) (by decide)
    simp only at h
    split_ifs at h
    · cases h
    · simp only [Prod.mk.injEq] at h
      obtain ⟨hparse,-,rfl⟩ := h
      exact ⟨⟨.inr ⟨hnone,hnone⟩,.inl ⟨rfl,rfl⟩⟩,parseAlert_ok hparse⟩
  | unknown code => cases h

inductive Round (c : ConnectionCore) (epoch : Nat) : Turn → Prop
  | popped (m : List UInt8) (c' : ConnectionCore) (hcurrent : c.current = none)
      (hpending : c.hsPending = m ++ c'.hsPending) (hread : c'.read = c.read) :
      Round c epoch (.done (.ok (some (.handshake m))) c')
  | waiting (hcurrent : c.current = none) : Round c epoch (.done (.ok none) c)
  | message (record : ParsedRecord) (message : Incoming) (c' : ConnectionCore)
      (hcurrent : c.current = some record)
      (htakes : c.Takes (c.view epoch record.contentType record.fragment) c')
      (hmessage : ∀ m, message ≠ .handshake m) : Round c epoch (.done (.ok (some message)) c')
  | next (record : ParsedRecord) (c' : ConnectionCore) (hcurrent : c.current = some record)
      (htakes : c.Takes (c.view epoch record.contentType record.fragment) c') :
      Round c epoch (.again c')
  | failed (e : Error) (c' : ConnectionCore) : Round c epoch (.done (.error e) c')

theorem popHandshake_eq (h : c.popHandshake = some (m, c')) : c.hsPending = m ++ c'.hsPending ∧ c'.read = c.read := by
  unfold popHandshake at h
  split at h
  · simp only at h
    split_ifs at h
    · obtain ⟨rfl,rfl⟩ := h
      exact ⟨(take_append_drop _ _).symm,rfl⟩
  · cases h

theorem Takes.putBack {r : Received} (h : c.Takes r c') (fragStart fragEnd : Nat)
    (left : List UInt8) : c.Takes r (c'.putBack fragStart fragEnd left) := by
  unfold ConnectionCore.putBack
  simp only
  split_ifs
  · exact ⟨h.pending,h.key⟩
  · exact ⟨h.pending,h.key⟩

theorem consume_round {record : ParsedRecord} (hcurrent : c.current = some record)
    (hclean : ¬ c.SkipsInside) (epoch : Nat) : c.Round epoch (c.consume record) := by
  unfold consume
  simp only
  split_ifs with hinside
  · exact .failed _ _
  · have htakes : ∀ o left c', processRecord { c with inOff := c.inOff + record.len }
        record.contentType record.fragment = (.ok o, left, c') →
        c.Takes (c.view epoch record.contentType record.fragment) c' ∧
          ∀ m, o ≠ some (.handshake m) := by
      intro o left c' hok
      have hstep := processRecord_takes hok ?_ ?_ epoch
      · exact ⟨⟨hstep.1.pending,hstep.1.key⟩,hstep.2⟩
      · intro hne
        by_contra hct
        rw [not_or] at hct
        exact hinside (by simp [hne,hct])
      · intro hne hct hskip
        exact hclean ⟨hne,record,hcurrent,hct,hskip.1,hskip.2⟩
    cases hproc : processRecord { c with inOff := c.inOff + record.len } record.contentType
        record.fragment with
    | mk r rest =>
      obtain ⟨left,c'⟩ := rest
      cases r with
      | error e => exact .failed _ _
      | ok o =>
        obtain ⟨hstep,hmessage⟩ := htakes o left c' hproc
        have hback := hstep.putBack (c.inOff + 5) (c.inOff + 5 + record.fragment.length) left
        cases o with
        | none => exact .next record _ hcurrent hback
        | some message =>
          exact .message record message _ hcurrent hback fun m hm => hmessage m (by rw [hm])

theorem turn_round (c : ConnectionCore) (hclean : ¬ c.SkipsInside) (epoch : Nat) : c.Round epoch c.turn := by
  unfold turn
  cases hpop : c.popHandshake with
  | some popped =>
    obtain ⟨m,c'⟩ := popped
    obtain ⟨hpending,hread⟩ := popHandshake_eq hpop
    exact .popped m c' (by rw [current,hpop]) hpending hread
  | none =>
    cases hrecord : readRecord (c.inbuf.drop c.inOff) with
    | error e => exact .failed e c
    | ok record =>
      have hcurrent : c.current = record := by rw [current,hpop,hrecord]
      cases record with
      | none => exact .waiting hcurrent
      | some record =>
        simp only
        split_ifs
        · exact .failed _ c
        · exact .failed _ c
        · exact consume_round hcurrent hclean epoch

/-- What is pending ends a run of handshake records, and the key counts the records it opened. -/
structure Follows (c : ConnectionCore) (epoch : Nat) (log : List Received) : Prop where
  pending : ∃ before run popped, log = before ++ run ∧
    (∀ r ∈ run, r.contentType = .handshake ∧ r.epoch = epoch ∧ r.seq.isSome = c.read.isSome) ∧
    (run.map Received.content).flatten = popped ++ c.hsPending
  keyed : c.read.isSome ↔ epoch ≠ 0
  seqs : seqsOf epoch log = List.range (c.read.elim 0 RecordCrypter.seq)

theorem view_epoch (c : ConnectionCore) (epoch : Nat) (ct : ContentType) (fragment : List UInt8) :
    (c.view epoch ct fragment).epoch = epoch := by
  unfold view
  split
  · split <;> rfl
  · rfl

theorem Follows.takes {r : Received} (h : c.Follows epoch log) (hr : r.epoch = epoch)
    (ht : c.Takes r c') : c'.Follows epoch (log ++ [r]) := by
  have hkeyed : c'.read.isSome = c.read.isSome := by
    rcases ht.key with ⟨-,hread⟩ | ⟨crypter,hread,-,crypter',hread',-⟩
    · rw [hread]
    · rw [hread,hread']
      rfl
  refine ⟨?_,by rw [hkeyed]; exact h.keyed,?_⟩
  · obtain ⟨before,run,popped,rfl,hrun,hflat⟩ := h.pending
    rcases ht.pending with ⟨hct,hseq,hpending⟩ | ⟨-,hnone⟩
    · refine ⟨before,run ++ [r],popped,append_assoc _ _ _,?_,?_⟩
      · rw [forall_mem_append]
        constructor
        · rw [hkeyed]
          exact hrun
        · rw [forall_mem_singleton,hkeyed]
          exact ⟨hct,hr,hseq⟩
      · rw [map_append,flatten_append,hflat,hpending]
        simp
    · exact ⟨before ++ run ++ [r],[],[],(append_nil _).symm,nofun,by
        rw [hnone]
        rfl⟩
  · rw [seqsOf,filterMap_append,← seqsOf,h.seqs]
    rcases ht.key with ⟨hseq,hread⟩ | ⟨crypter,hread,hseq,crypter',hread',hnext⟩
    · simp [hr,hseq,hread]
    · simp [hr,hseq,hread,hread',hnext,List.range_succ]

theorem Follows.popped (h : c.Follows epoch log) (hpending : c.hsPending = m ++ c'.hsPending)
    (hread : c'.read = c.read) : c'.Follows epoch log ∧ Intact log m := by
  obtain ⟨before,run,popped,hlog,hrun,hflat⟩ := h.pending
  have hflat' : (run.map Received.content).flatten = popped ++ m ++ c'.hsPending := by
    rw [hflat,hpending,append_assoc]
  refine ⟨⟨⟨before,run,popped ++ m,hlog,by rwa [hread],hflat'⟩,by rw [hread]; exact h.keyed,
    by rw [hread]; exact h.seqs⟩,before,run,epoch,hlog,?_,⟨popped,c'.hsPending,hflat'.symm⟩⟩
  intro r hr
  obtain ⟨hct,hepoch,hseq⟩ := hrun r hr
  exact ⟨hct,hepoch,by rw [hseq]; exact h.keyed⟩

theorem turns_follows (fuel : Nat) (c : ConnectionCore) (h : c.Follows epoch log)
    (hclean : Clean fuel c) {c' : ConnectionCore} (hok : turns fuel c = (.ok o, c')) :
    c'.Follows epoch (log ++ heard epoch fuel c) ∧
      ∀ m, o = some (.handshake m) → Intact (log ++ heard epoch fuel c) m := by
  induction fuel generalizing c log with
  | zero =>
    cases hok
    rw [heard,append_nil]
    exact ⟨h,nofun⟩
  | succ fuel ih =>
    obtain ⟨hskip,hrest⟩ := hclean
    have hround := c.turn_round hskip epoch
    rw [turns] at hok
    rw [heard]
    cases hturn : c.turn with
    | done r c₁ =>
      rw [hturn] at hround hok
      cases hround with
      | popped m c₂ hcurrent hpending hread =>
        cases hok
        obtain ⟨hfollows,hintact⟩ := h.popped hpending hread
        simp only [hcurrent,map_none,toList_none,append_nil]
        refine ⟨hfollows,fun m' hm => ?_⟩
        cases hm
        exact hintact
      | waiting hcurrent =>
        cases hok
        simp only [hcurrent,map_none,toList_none,append_nil]
        exact ⟨h,nofun⟩
      | message record message c₂ hcurrent htakes hmessage =>
        cases hok
        simp only [hcurrent,map_some,toList_some,append_nil]
        refine ⟨h.takes (c.view_epoch _ _ _) htakes,fun m hm => ?_⟩
        exact absurd (Option.some.inj hm) (hmessage m)
      | failed e c₂ => cases hok
    | again c₁ =>
      rw [hturn] at hround hok hrest
      cases hround with
      | next record c₂ hcurrent htakes =>
        have hstep := ih c₁ (h.takes (c.view_epoch epoch _ _) htakes) hrest hok
        simpa [hcurrent] using hstep
end ConnectionCore
/-- A core with what was received, the messages out so far, and whether a call has failed. -/
structure RecvSession where
  core : ConnectionCore
  epoch : Nat
  log : List Received
  returned : List (List UInt8 × Nat)
  failed : Bool

inductive RecvOp where
  | readTls (bytes : List UInt8)
  | nextMessage
  | setRead (aead : Aead) (iv : FixedBytes 12)
  | setCcsWindowOpen («open» : Bool)
  | beginSkipEarlyData (budget : Nat)
  | setAppDataAllowed (allowed : Bool)
  | setEarlyDataRouting (enabled : Bool)
  | setInboundRecordSizeLimit (limit : Nat)
  | takeReceived
namespace RecvSession
def start : RecvSession := ⟨.new, 0, [], [], false⟩

/-- Nothing is recorded of a failing call, which ends the run. -/
def next (s : RecvSession) : RecvSession :=
  match s.core.nextMessage with
  | (.error _, c) => { s with core := c, failed := true }
  | (.ok o, c) =>
    let log := s.log ++ s.core.heard s.epoch (s.core.inbuf.length + 1)
    { s with
      core := c
      log
      returned := s.returned ++ match o with
        | some (.handshake m) => [(m, log.length)]
        | _ => [] }

def step (s : RecvSession) (op : RecvOp) : RecvSession :=
  if s.failed then s
  else
    match op with
    | .readTls bytes => { s with core := s.core.readTls bytes }
    | .nextMessage => s.next
    | .setRead aead iv =>
      match s.core.setRead ⟨aead, iv, 0⟩ with
      | (.ok (), core) => { s with core, epoch := s.epoch + 1 }
      | (.error _, core) => { s with core }
    | .setCcsWindowOpen b => { s with core := s.core.setCcsWindowOpen b }
    | .beginSkipEarlyData budget => { s with core := s.core.beginSkipEarlyData budget }
    | .setAppDataAllowed b => { s with core := s.core.setAppDataAllowed b }
    | .setEarlyDataRouting b => { s with core := s.core.setEarlyDataRouting b }
    | .setInboundRecordSizeLimit limit => { s with core := s.core.setInboundRecordSizeLimit limit }
    | .takeReceived => { s with core := s.core.takeReceived.2 }

/-- No record is skipped as early data while a handshake message is pending. -/
def Keeps (s : RecvSession) : RecvOp → Prop
  | .nextMessage => s.core.Clean (s.core.inbuf.length + 1)
  | _ => True

instance (s : RecvSession) : (op : RecvOp) → Decidable (s.Keeps op)
  | .nextMessage => inferInstanceAs (Decidable (s.core.Clean (s.core.inbuf.length + 1)))
  | .readTls _ | .setRead _ _ | .setCcsWindowOpen _ | .beginSkipEarlyData _ | .setAppDataAllowed _
  | .setEarlyDataRouting _ | .setInboundRecordSizeLimit _ | .takeReceived => isTrue trivial

structure Sound (s : RecvSession) : Prop where
  follows : s.failed = false → s.core.Follows s.epoch s.log
  epochs : ∀ r ∈ s.log, r.epoch ≤ s.epoch
  seqs : ∀ epoch, ∃ n, seqsOf epoch s.log = List.range n
  returned : ∀ e ∈ s.returned, e.2 ≤ s.log.length ∧ Intact (s.log.take e.2) e.1

theorem sound_start : start.Sound where
  follows := fun _ => ⟨⟨[],[],[],rfl,nofun,rfl⟩,by simp [start,ConnectionCore.new],rfl⟩
  epochs := nofun
  seqs := fun _ => ⟨0,rfl⟩
  returned := nofun

theorem heard_epoch (epoch fuel : Nat) (c : ConnectionCore) : ∀ r ∈ c.heard epoch fuel, r.epoch = epoch := by
  induction fuel generalizing c with
  | zero => simp [ConnectionCore.heard]
  | succ fuel ih =>
    rw [ConnectionCore.heard,forall_mem_append]
    constructor
    · intro r hr
      simp only [mem_toList,map_eq_some_iff] at hr
      obtain ⟨record,-,rfl⟩ := hr
      exact c.view_epoch _ _ _
    · split
      · exact ih _
      · simp

theorem seqsOf_append_other {epoch epoch' : Nat} {log more : List Received}
    (hmore : ∀ r ∈ more, r.epoch = epoch') (hne : epoch ≠ epoch') :
    seqsOf epoch (log ++ more) = seqsOf epoch log := by
  unfold seqsOf
  have hnone : more.filterMap (fun r => if r.epoch = epoch then r.seq else none) = [] := by
    rw [filterMap_eq_nil_iff]
    intro r hr
    rw [hmore r hr,if_neg hne.symm]
  rw [filterMap_append,hnone,append_nil]
variable {s : RecvSession}
theorem sound_next (h : s.Sound) (hrunning : s.failed = false)
    (hclean : s.core.Clean (s.core.inbuf.length + 1)) : s.next.Sound := by
  unfold next
  cases hnext : s.core.nextMessage with
  | mk r c =>
    cases r with
    | error e => exact ⟨nofun,h.epochs,h.seqs,h.returned⟩
    | ok o =>
      obtain ⟨hfollows,hintact⟩ :=
        ConnectionCore.turns_follows _ _ (h.follows hrunning) hclean hnext
      have hheard := heard_epoch s.epoch (s.core.inbuf.length + 1) s.core
      refine ⟨fun _ => hfollows,?_,?_,?_⟩
      · rw [forall_mem_append]
        exact ⟨h.epochs,fun r hr => (hheard r hr).le⟩
      · intro epoch
        by_cases hepoch : epoch = s.epoch
        · subst hepoch
          exact ⟨_,hfollows.seqs⟩
        · obtain ⟨n,hn⟩ := h.seqs epoch
          exact ⟨n,(seqsOf_append_other hheard hepoch).trans hn⟩
      · simp only [forall_mem_append]
        constructor
        · intro e he
          obtain ⟨hlen,hold⟩ := h.returned e he
          rw [length_append,take_append_of_le_length hlen]
          exact ⟨by omega,hold⟩
        · split
          · next m =>
              rw [forall_mem_singleton,take_length]
              exact ⟨le_rfl,hintact m rfl⟩
          · simp

theorem Sound.withCore (h : s.Sound) {core : ConnectionCore} (hread : core.read = s.core.read)
    (hpending : core.hsPending = s.core.hsPending) : ({ s with core } : RecvSession).Sound := by
  refine ⟨fun hrunning => ?_,h.epochs,h.seqs,h.returned⟩
  obtain ⟨hrun,hkeyed,hseqs⟩ := h.follows hrunning
  rw [← hread] at hkeyed hseqs
  simp only [← hread,← hpending] at hrun
  exact ⟨hrun,hkeyed,hseqs⟩

theorem Sound.newKey (h : s.Sound) {core : ConnectionCore} {crypter : RecordCrypter}
    (hread : core.read = some crypter) (hseq : crypter.seq = 0) (hpending : core.hsPending = []) :
    ({ s with core, epoch := s.epoch + 1 } : RecvSession).Sound := by
  have hnone : seqsOf (s.epoch + 1) s.log = [] := by
    rw [seqsOf,filterMap_eq_nil_iff]
    intro r hr
    have := h.epochs r hr
    rw [if_neg (by omega)]
  refine ⟨fun _ => ⟨⟨s.log,[],[],(append_nil _).symm,nofun,?_⟩,?_,?_⟩,
    fun r hr => (h.epochs r hr).trans (Nat.le_succ _),h.seqs,h.returned⟩
  · rw [hpending]
    rfl
  · simp [hread]
  · simp [hnone,hread,hseq]

theorem sound_step (s : RecvSession) (op : RecvOp) (h : s.Sound) (hkeeps : s.Keeps op) : (s.step op).Sound := by
  unfold step
  by_cases hfailed : s.failed = true
  · rw [if_pos hfailed]
    exact h
  rw [if_neg hfailed]
  cases op with
  | nextMessage => exact sound_next h (by simpa using hfailed) hkeeps
  | setRead aead iv =>
    simp only [ConnectionCore.setRead]
    by_cases hpending : s.core.hsPending = []
    · simp only [hpending]
      exact h.newKey rfl rfl rfl
    · simpa [hpending] using h
  | _ => exact h.withCore rfl rfl

/-- Handshake messages are not assembled across other records or keys, as long as no record is
skipped inside one; and the `i`-th record that a key opens is opened with sequence number `i`. -/
theorem handshake_unbroken (ops : List RecvOp) (hkeeps : Trace.Along step Keeps start ops) :
    let s := Trace.run step start ops
    (∀ e ∈ s.returned, Intact (s.log.take e.2) e.1) ∧
      ∀ epoch, ∃ n, seqsOf epoch s.log = List.range n := by
  have hsound := hkeeps.invariant sound_step sound_start
  exact ⟨fun e he => (hsound.returned e he).2,hsound.seqs⟩

/-- A message in two records, with a skipped record before it, and one under a key. -/
theorem handshake_unbroken_split :
    let ops : List RecvOp :=
      [.beginSkipEarlyData 64,
        .readTls (frame .applicationData [0] ++ frame .handshake [8, 0, 0, 2, 0xab]), .nextMessage,
        .readTls (frame .handshake [0xcd]), .nextMessage,
        .setRead .null ⟨List.replicate 12 0,rfl⟩,
        .readTls (frame .applicationData ([20, 0, 0, 0, 22] ++ List.replicate 16 0)), .nextMessage]
    let s := Trace.run step start ops
    s.returned = [([8, 0, 0, 2, 0xab, 0xcd], 3), ([20, 0, 0, 0], 4)] ∧
      (∀ e ∈ s.returned, Intact (s.log.take e.2) e.1) ∧
      ∀ epoch, ∃ n, seqsOf epoch s.log = List.range n :=
  ⟨by decide +kernel,handshake_unbroken _ (by decide +kernel)⟩

/-- A record that is skipped between the two halves of a message. -/
theorem handshake_broken_by_skip :
    let s := Trace.run step start [.beginSkipEarlyData 64,
      .readTls (frame .handshake [8, 0, 0, 2, 0xab] ++ frame .applicationData [0] ++
        frame .handshake [0xcd]), .nextMessage]
    s.returned = [([8, 0, 0, 2, 0xab, 0xcd], 3)] ∧
      ∃ e ∈ s.returned, ¬ Intact (s.log.take e.2) e.1 := by
  intro s
  have hreturned : s.returned = [([8, 0, 0, 2, 0xab, 0xcd], 3)] := by decide +kernel
  have hlog : s.log.take 3 = [⟨0,none,.handshake,[8, 0, 0, 2, 0xab]⟩] ++
      [⟨0,none,.applicationData,[0]⟩, ⟨0,none,.handshake,[0xcd]⟩] := by decide +kernel
  refine ⟨hreturned,_,hreturned ▸ mem_singleton_self _,?_⟩
  rw [hlog]
  exact not_intact (by decide) (by decide)
end RecvSession
end PureCrypto.Tls
