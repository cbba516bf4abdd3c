import Mathlib.Tactic.IntervalCases
import PureCrypto.Quic.Frame

/-! # The frame codec round trip -/
namespace PureCrypto.Quic
open ByteReader List Option
open Varint (encode_eq reads_bytes parses_read bytes)
namespace Frame
/-- A complete varint, in any of the four forms. -/
def IsVarint (bytes : List UInt8) : Prop := ∃ value, Varint.decode bytes = .ok (value, bytes.length)

/-- A sequence of `n` pairs of varints. -/
inductive VarintPairs : List UInt8 → Nat → Prop
  | nil : VarintPairs [] 0
  | cons {gap range raw : List UInt8} {n : Nat} (hgap : IsVarint gap) (hrange : IsVarint range)
      (h : VarintPairs raw n) : VarintPairs (gap ++ (range ++ raw)) (n + 1)

/-- The values of a frame are in the range of their wire fields. -/
def WellFormed : Frame → Prop
  | .padding n => 1 ≤ n
  | .ack largest ackDelay rangesRaw firstRange ecn =>
    largest ≤ Varint.max ∧ ackDelay ≤ Varint.max ∧ firstRange ≤ Varint.max ∧
      (∃ n, VarintPairs rangesRaw n) ∧ rangesRaw.length < 2 ^ 63 ∧
      ∀ c ∈ ecn, c.ect0 ≤ Varint.max ∧ c.ect1 ≤ Varint.max ∧ c.ce ≤ Varint.max
  | .resetStream id code finalSize =>
    id ≤ Varint.max ∧ code ≤ Varint.max ∧ finalSize ≤ Varint.max
  | .stopSending id code => id ≤ Varint.max ∧ code ≤ Varint.max
  | .crypto offset data => offset + data.length ≤ Varint.max
  | .newToken token => token ≠ [] ∧ token.length ≤ Varint.max
  | .stream id offset _ data => id ≤ Varint.max ∧ offset + data.length ≤ Varint.max
  | .maxData limit => limit ≤ Varint.max
  | .maxStreamData id limit => id ≤ Varint.max ∧ limit ≤ Varint.max
  | .maxStreams _ limit => limit ≤ maxStreamsLimit
  | .dataBlocked limit => limit ≤ Varint.max
  | .streamDataBlocked id limit => id ≤ Varint.max ∧ limit ≤ Varint.max
  | .streamsBlocked _ limit => limit ≤ maxStreamsLimit
  | .newConnectionId seq retirePriorTo cid _ =>
    seq ≤ Varint.max ∧ retirePriorTo ≤ Varint.max ∧ 1 ≤ cid.length ∧ cid.length ≤ 20
  | .retireConnectionId seq => seq ≤ Varint.max
  | .connectionClose error frameType reason =>
    error ≤ Varint.max ∧ (∀ t ∈ frameType, t ≤ Varint.max) ∧ reason.length ≤ Varint.max
  | .datagram data => data.length ≤ Varint.max
  | .ping | .pathChallenge _ | .pathResponse _ | .handshakeDone => True

/-- What may follow the frame: a run of padding ends where it ends. -/
def Separated : Frame → List UInt8 → Prop
  | .padding _, suffix => suffix.head? ≠ some 0
  | _, _ => True

/-- `encode` writes the type byte `t` and then `body`. -/
def Encodes (frame : Frame) (t : UInt8) (body : List UInt8) : Prop :=
  ∀ out, frame.encode out = some (out ++ t :: body)

theorem readBounded_eq (length : Nat) : readBounded length = slice length .decode := by
  funext buf
  unfold readBounded Varint.boundedLen slice
  split_ifs <;> rfl

theorem reads_bounded (data : List UInt8) : Reads (readBounded data.length) data data := by
  rw [readBounded_eq]
  exact reads_slice _ data
variable {offset n : Nat} {raw data buf left : List UInt8} {ecn : Option EcnCounts}
  {frame : Frame}
theorem reads_checkExtent {length : Nat} (h : offset + length ≤ Varint.max) :
    Reads (checkExtent offset length) [] () := by
  have hmax : Varint.max = 2 ^ 62 - 1 := rfl
  have hbound : u64Bound = 2 ^ 64 := rfl
  have hadd : checkedAdd offset length = some (offset + length) := if_pos (by omega)
  rw [checkExtent,hadd]
  simp only [if_pos h]
  exact .pure ()

theorem IsVarint.reads (h : IsVarint raw) : ∃ value, Reads Varint.read raw value := by
  obtain ⟨value,hv⟩ := h
  refine ⟨value,fun suffix => ?_⟩
  have hlong := Varint.decode_append hv suffix
  simp only [Varint.read,hlong]
  show Except.ok (value, (raw ++ suffix).drop raw.length) = _
  rw [drop_left]

theorem IsVarint.ne_nil (h : IsVarint raw) : raw ≠ [] := by
  rintro rfl
  obtain ⟨value,hv⟩ := h
  cases hv

theorem VarintPairs.reads (h : VarintPairs raw n) : Reads (skipRanges n) raw () := by
  induction h with
  | nil => exact .pure ()
  | cons hgap hrange _ ih =>
    obtain ⟨g,hg⟩ := hgap.reads
    obtain ⟨l,hl⟩ := hrange.reads
    exact hg.bind (hl.bind ih)

theorem VarintPairs.two_mul_le (h : VarintPairs raw n) : 2 * n ≤ raw.length := by
  induction h with
  | nil => simp
  | cons hgap hrange _ ih =>
    have hg := length_pos_of_ne_nil hgap.ne_nil
    have hr := length_pos_of_ne_nil hrange.ne_nil
    simp only [length_append]
    omega

theorem VarintPairs.count (h : VarintPairs raw n) : ∀ fuel, n ≤ fuel → countRanges fuel raw = some n := by
  induction h with
  | nil =>
    intro fuel _
    cases fuel <;> rfl
  | @cons gap range raw n hgap hrange _ ih =>
    intro fuel hfuel
    obtain ⟨g,hg⟩ := hgap.reads
    obtain ⟨l,hl⟩ := hrange.reads
    obtain ⟨fuel,rfl⟩ : ∃ k, fuel = k + 1 := ⟨fuel - 1,by omega⟩
    have hpair := (hg.bind (f := fun _ => Varint.read) hl) raw
    rw [append_assoc] at hpair
    obtain ⟨b,tail,hcons⟩ := exists_cons_of_ne_nil
      (append_ne_nil_of_left_ne_nil hgap.ne_nil (range ++ raw))
    rw [hcons] at hpair ⊢
    simp [countRanges,hpair,ih fuel (by omega)]

/-- A frame is its type byte in front of a body that the reader for that type reads back. -/
def HasLayout (frame : Frame) : Prop :=
  ∃ t body, Encodes frame t body ∧ Reads (readBody t) body frame

theorem encodeEcn_eq (ecn : Option EcnCounts) (out : List UInt8) : encodeEcn ecn out = out ++ encodeEcn ecn [] := by
  cases ecn with
  | none => simp [encodeEcn]
  | some c => simp [encodeEcn,encode_eq]

theorem reads_ecn (h : ∀ c ∈ ecn, c.ect0 ≤ Varint.max ∧ c.ect1 ≤ Varint.max ∧ c.ce ≤ Varint.max) :
    Reads (readEcn (if ecn.isSome then 0x03 else 0x02)) (encodeEcn ecn []) ecn := by
  cases ecn with
  | none => exact .pure none
  | some c =>
    obtain ⟨h0,h1,hce⟩ := h c rfl
    have hbytes : encodeEcn (some c) [] =
        bytes c.ect0 ++ (bytes c.ect1 ++ bytes c.ce) := by
      simp [encodeEcn,encode_eq]
    rw [hbytes]
    apply (reads_bytes h0).bind
    apply (reads_bytes h1).bind
    exact (reads_bytes hce).map _

theorem ack_layout {largest ackDelay firstRange : Nat} {rangesRaw : List UInt8}
    (h : (ack largest ackDelay rangesRaw firstRange ecn).WellFormed) :
    HasLayout (ack largest ackDelay rangesRaw firstRange ecn) := by
  obtain ⟨hlargest,hdelay,hfirst,⟨n,hpairs⟩,hlength,hecn⟩ := h
  have htwo := hpairs.two_mul_le
  have hcount : n ≤ Varint.max := by
    have hmax : Varint.max = 2 ^ 62 - 1 := rfl
    omega
  refine ⟨if ecn.isSome then 0x03 else 0x02,bytes largest ++ (bytes ackDelay ++
    (bytes n ++ (bytes firstRange ++ (rangesRaw ++ encodeEcn ecn [])))),?_,?_⟩
  · intro out
    simp only [encode,hpairs.count rangesRaw.length (by omega),encode_eq,bind_eq_bind,bind_some]
    rw [encodeEcn_eq]
    simp
  · have hreader : readBody (if ecn.isSome then 0x03 else 0x02) =
        readAck (if ecn.isSome then 0x03 else 0x02) := by
      cases ecn <;> rfl
    rw [hreader]
    apply (reads_bytes hlargest).bind
    apply (reads_bytes hdelay).bind
    apply (reads_bytes hcount).bind
    apply (reads_bytes hfirst).bind
    apply hpairs.reads.passedOver.bind
    exact (reads_ecn hecn).map _

theorem reads_streamData (h : offset + data.length ≤ Varint.max) :
    Reads (readStreamData true offset) (bytes data.length ++ data) data := by
  have hlen : data.length ≤ Varint.max := by omega
  apply (reads_bytes hlen).bind
  exact (reads_checkExtent h).bind (reads_bounded data)

theorem reads_stream {id : Nat} {raw : List UInt8} (t : UInt8) (hid : id ≤ Varint.max)
    (h : offset + data.length ≤ Varint.max) (hlen : (t &&& 0x02 != 0) = true)
    (hoff : Reads (readOffset (t &&& 0x04 != 0)) raw offset) :
    Reads (readStream t) (bytes id ++ (raw ++ (bytes data.length ++ data)))
      (stream id offset (t &&& 0x01 != 0) data) := by
  apply (reads_bytes hid).bind
  apply hoff.bind
  rw [hlen]
  exact (reads_streamData h).map _

theorem stream_layout {id : Nat} {fin : Bool} (h : (stream id offset fin data).WellFormed) :
    HasLayout (stream id offset fin data) := by
  obtain ⟨hid,hextent⟩ := h
  by_cases hzero : offset = 0
  · subst hzero
    cases fin with
    | false =>
      refine ⟨0x0A,_,?_,reads_stream 0x0A hid hextent rfl (.pure 0)⟩
      intro out
      simp [encode]
      rfl
    | true =>
      refine ⟨0x0B,_,?_,reads_stream 0x0B hid hextent rfl (.pure 0)⟩
      intro out
      simp [encode]
      rfl
  · have hoffset : offset ≤ Varint.max := by omega
    cases fin with
    | false =>
      refine ⟨0x0E,_,?_,reads_stream 0x0E hid hextent rfl (reads_bytes hoffset)⟩
      intro out
      simp [encode,encode_eq,hzero]
      rfl
    | true =>
      refine ⟨0x0F,_,?_,reads_stream 0x0F hid hextent rfl (reads_bytes hoffset)⟩
      intro out
      simp [encode,encode_eq,hzero]
      rfl

theorem newConnectionId_layout {seq retirePriorTo : Nat} {cid : List UInt8}
    {resetToken : FixedBytes 16} (h : (newConnectionId seq retirePriorTo cid resetToken).WellFormed) :
    HasLayout (newConnectionId seq retirePriorTo cid resetToken) := by
  obtain ⟨hseq,hretire,hmin,hmax⟩ := h
  have hlen : (UInt8.ofNat cid.length).toNat = cid.length := by
    rw [UInt8.toNat_ofNat']
    omega
  have hvalid : ¬(UInt8.ofNat cid.length = 0 ∨ 20 < UInt8.ofNat cid.length) := by
    rw [← UInt8.toNat_inj,UInt8.lt_iff_toNat_lt,hlen,not_or,not_lt]
    exact ⟨Nat.ne_of_gt hmin,hmax⟩
  have hcid := reads_slice Tls.Error.decode cid
  rw [← hlen] at hcid
  refine ⟨0x18,bytes seq ++ (bytes retirePriorTo ++
    ([UInt8.ofNat cid.length] ++ (cid ++ resetToken.toList))),?_,?_⟩
  · intro out
    simp [encode,encode_eq,not_lt.mpr hmax]
  · apply (reads_bytes hseq).bind
    apply (reads_bytes hretire).bind
    apply (reads_byte Tls.Error.decode (UInt8.ofNat cid.length)).bind
    rw [if_neg hvalid]
    apply hcid.bind
    exact (reads_fixed Tls.Error.decode resetToken).map _

theorem connectionClose_layout {error : Nat} {frameType : Option Nat} {reason : List UInt8}
    (h : (connectionClose error frameType reason).WellFormed) :
    HasLayout (connectionClose error frameType reason) := by
  obtain ⟨herror,htype,hreason⟩ := h
  cases frameType with
  | none =>
    refine ⟨0x1D,bytes error ++ (bytes reason.length ++ reason),?_,?_⟩
    · intro out
      simp [encode]
    · apply (reads_bytes herror).bind
      apply (Reads.pure none).bind
      apply (reads_bytes hreason).bind
      exact (reads_bounded reason).map _
  | some t =>
    refine ⟨0x1C,bytes error ++ (bytes t ++ (bytes reason.length ++ reason)),?_,?_⟩
    · intro out
      simp [encode]
    · apply (reads_bytes herror).bind
      apply ((reads_bytes (htype t rfl)).map some).bind
      apply (reads_bytes hreason).bind
      exact (reads_bounded reason).map _

theorem newToken_layout {token : List UInt8} (h : (newToken token).WellFormed) : HasLayout (newToken token) := by
  obtain ⟨hne,hlen⟩ := h
  have hpos : token.length ≠ 0 := fun hzero => hne (length_eq_zero_iff.mp hzero)
  refine ⟨0x07,bytes token.length ++ token,?_,?_⟩
  · intro out
    simp [encode]
  · apply (reads_bytes hlen).bind
    simp only [if_neg hpos]
    exact (reads_bounded token).map _

theorem crypto_layout (h : (crypto offset data).WellFormed) : HasLayout (crypto offset data) := by
  have hextent : offset + data.length ≤ Varint.max := h
  have hoffset : offset ≤ Varint.max := by omega
  have hlen : data.length ≤ Varint.max := by omega
  refine ⟨0x06,bytes offset ++ (bytes data.length ++ ([] ++ data)),?_,?_⟩
  · intro out
    simp [encode]
  · apply (reads_bytes hoffset).bind
    apply (reads_bytes hlen).bind
    apply (reads_checkExtent hextent).bind
    exact (reads_bounded data).map _

theorem reads_streamCount {limit : Nat} (make : Nat → Frame) (h : limit ≤ maxStreamsLimit) :
    Reads (readStreamCount make) (bytes limit ++ []) (make limit) := by
  have hmax : limit ≤ Varint.max := h.trans (by decide)
  apply (reads_bytes hmax).bind
  rw [if_neg (not_lt.mpr h)]
  exact .pure _

theorem WellFormed.layout (h : frame.WellFormed) (hpad : ∀ n, frame ≠ padding n) : HasLayout frame := by
  cases frame with
  | padding n => exact absurd rfl (hpad n)
  | ping => exact ⟨0x01,[],fun out => rfl,.pure _⟩
  | ack largest ackDelay rangesRaw firstRange ecn => exact ack_layout h
  | resetStream id code finalSize =>
    refine ⟨0x04,bytes id ++ (bytes code ++ bytes finalSize),?_,?_⟩
    · intro out
      simp [encode]
    · apply (reads_bytes h.1).bind
      apply (reads_bytes h.2.1).bind
      exact (reads_bytes h.2.2).map _
  | stopSending id code =>
    refine ⟨0x05,bytes id ++ bytes code,?_,?_⟩
    · intro out
      simp [encode]
    · apply (reads_bytes h.1).bind
      exact (reads_bytes h.2).map _
  | crypto offset data => exact crypto_layout h
  | newToken token => exact newToken_layout h
  | stream id offset fin data => exact stream_layout h
  | maxData limit =>
    refine ⟨0x10,bytes limit,?_,(reads_bytes h).map _⟩
    intro out
    simp [encode]
  | maxStreamData id limit =>
    refine ⟨0x11,bytes id ++ bytes limit,?_,?_⟩
    · intro out
      simp [encode]
    · apply (reads_bytes h.1).bind
      exact (reads_bytes h.2).map _
  | maxStreams dir limit =>
    cases dir with
    | bidi =>
      refine ⟨0x12,_,?_,reads_streamCount _ h⟩
      intro out
      simp [encode]
    | uni =>
      refine ⟨0x13,_,?_,reads_streamCount _ h⟩
      intro out
      simp [encode]
  | dataBlocked limit =>
    refine ⟨0x14,bytes limit,?_,(reads_bytes h).map _⟩
    intro out
    simp [encode]
  | streamDataBlocked id limit =>
    refine ⟨0x15,bytes id ++ bytes limit,?_,?_⟩
    · intro out
      simp [encode]
    · apply (reads_bytes h.1).bind
      exact (reads_bytes h.2).map _
  | streamsBlocked dir limit =>
    cases dir with
    | bidi =>
      refine ⟨0x16,_,?_,reads_streamCount _ h⟩
      intro out
      simp [encode]
    | uni =>
      refine ⟨0x17,_,?_,reads_streamCount _ h⟩
      intro out
      simp [encode]
  | newConnectionId seq retirePriorTo cid resetToken => exact newConnectionId_layout h
  | retireConnectionId seq =>
    refine ⟨0x19,bytes seq,?_,(reads_bytes h).map _⟩
    intro out
    simp [encode]
  | pathChallenge data =>
    refine ⟨0x1A,data.toList,?_,(reads_fixed Tls.Error.decode data).map _⟩
    intro out
    simp [encode]
  | pathResponse data =>
    refine ⟨0x1B,data.toList,?_,(reads_fixed Tls.Error.decode data).map _⟩
    intro out
    simp [encode]
  | connectionClose error frameType reason => exact connectionClose_layout h
  | handshakeDone => exact ⟨0x1E,[],fun out => rfl,.pure _⟩
  | datagram data =>
    refine ⟨0x31,bytes data.length ++ data,?_,?_⟩
    · intro out
      simp [encode]
    · apply (reads_bytes h).bind
      exact (reads_bounded data).map _

theorem decode_of_reads {t : UInt8} {body : List UInt8} (h : Reads (readBody t) body frame)
    (suffix : List UInt8) : decode (t :: body ++ suffix) = .ok (frame, (t :: body).length) := by
  rw [cons_append,decode,h suffix]
  show Except.ok (frame, (t :: (body ++ suffix)).length - suffix.length) = _
  simp only [length_cons,length_append]
  congr 2
  omega

theorem decode_padding (n : Nat) {suffix : List UInt8} (h : suffix.head? ≠ some 0) :
    decode (List.replicate (n + 1) 0 ++ suffix) = .ok (padding (n + 1), n + 1) := by
  have hstop : suffix.takeWhile (· == 0) = [] ∧ suffix.dropWhile (· == 0) = suffix := by
    cases suffix with
    | nil => exact ⟨rfl,rfl⟩
    | cons b suffix =>
      have hb : (b == 0) = false := by simpa using h
      simp [hb]
  have htake : (List.replicate n 0 ++ suffix).takeWhile (· == 0) = List.replicate n 0 := by
    rw [takeWhile_append_of_pos (by simp),hstop.1,append_nil]
  have hdrop : (List.replicate n 0 ++ suffix).dropWhile (· == 0) = suffix := by
    rw [dropWhile_append_of_pos (by simp),hstop.2]
  show Except.ok (padding (((List.replicate n 0 ++ suffix).takeWhile (· == 0)).length + 1),
    (0 :: (List.replicate n 0 ++ suffix)).length -
      ((List.replicate n 0 ++ suffix).dropWhile (· == 0)).length) = _
  rw [htake,hdrop]
  simp only [length_replicate,length_cons,length_append]
  congr 2
  omega

theorem WellFormed.round_trip (h : frame.WellFormed) (out suffix : List UInt8)
    (hsuffix : frame.Separated suffix) : ∃ bytes, frame.encode out = some (out ++ bytes) ∧
      decode (bytes ++ suffix) = .ok (frame, bytes.length) := by
  by_cases hpad : ∃ n, frame = padding n
  · obtain ⟨n,rfl⟩ := hpad
    obtain ⟨n,rfl⟩ : ∃ k, n = k + 1 := ⟨n - 1,by simp only [WellFormed] at h; omega⟩
    refine ⟨List.replicate (n + 1) 0,rfl,?_⟩
    rw [length_replicate]
    exact decode_padding n hsuffix
  · obtain ⟨t,body,hencode,hreads⟩ := h.layout (fun n hn => hpad ⟨n,hn⟩)
    exact ⟨t :: body,hencode out,decode_of_reads hreads suffix⟩
section
variable (t : UInt8)
/-- Extents that only the size of memory bounds. -/
def FitsMemory : Frame → Prop
  | .ack _ _ rangesRaw _ _ => rangesRaw.length < 2 ^ 63
  | .datagram data => data.length ≤ Varint.max
  | _ => True

theorem parses_checkExtent (offset length : Nat) :
    Parses (checkExtent offset length) (fun _ => offset + length ≤ Varint.max) := by
  unfold checkExtent
  cases hadd : checkedAdd offset length with
  | none => exact parses_fail _ _
  | some stop =>
    obtain ⟨rfl,-⟩ := checkedAdd_eq_some hadd
    simp only
    split_ifs with hle
    · exact .pure hle
    · exact parses_fail _ _

theorem parses_bounded (length : Nat) : Parses (readBounded length) (·.length = length) := by
  rw [readBounded_eq]
  exact parses_slice _ _

theorem isVarint_of_read {value : Nat} (h : Varint.read buf = .ok (value, left)) :
    ∃ bytes, buf = bytes ++ left ∧ IsVarint bytes := by
  unfold Varint.read at h
  cases hd : Varint.decode buf with
  | error e =>
    rw [hd] at h
    cases h
  | ok p =>
    rw [hd] at h
    cases h
    have hn := (Varint.decode_bounds hd).2
    refine ⟨buf.take p.2,(take_append_drop p.2 buf).symm,p.1,?_⟩
    rw [length_take_of_le hn]
    exact Varint.decode_take hd

theorem varintPairs_of_skip {count : Nat} (h : skipRanges count buf = .ok ((), left)) :
    ∃ raw, buf = raw ++ left ∧ VarintPairs raw count := by
  induction count generalizing buf with
  | zero =>
    cases h
    exact ⟨[],rfl,.nil⟩
  | succ count ih =>
    obtain ⟨gap,mid,hgap,h'⟩ := ByteReader.bind_eq_ok h
    obtain ⟨range,mid',hrange,hrest⟩ := ByteReader.bind_eq_ok h'
    obtain ⟨g,rfl,hg⟩ := isVarint_of_read hgap
    obtain ⟨l,rfl,hl⟩ := isVarint_of_read hrange
    obtain ⟨raw,rfl,hraw⟩ := ih hrest
    exact ⟨g ++ (l ++ raw),by simp,.cons hg hl hraw⟩

theorem parses_ranges (count : Nat) :
    Parses (passedOver (skipRanges count)) (fun raw => ∃ n, VarintPairs raw n) := by
  refine .of_ok fun buf raw left h => ?_
  unfold passedOver at h
  cases hs : skipRanges count buf with
  | error e =>
    rw [hs] at h
    cases h
  | ok p =>
    rw [hs] at h
    cases h
    obtain ⟨raw,hbuf,hpairs⟩ := varintPairs_of_skip hs
    rw [hbuf,length_append,Nat.add_sub_cancel,take_left]
    exact ⟨⟨count,hpairs⟩,suffix_append raw p.2⟩

theorem parses_ecn : Parses (readEcn t) (fun ecn => ∀ c ∈ ecn,
    c.ect0 ≤ Varint.max ∧ c.ect1 ≤ Varint.max ∧ c.ce ≤ Varint.max) := by
  unfold readEcn
  split_ifs
  · refine parses_read.bind fun ect0 h0 => ?_
    refine parses_read.bind fun ect1 h1 => ?_
    refine parses_read.bind fun ce hce => .pure ?_
    intro c hc
    cases hc
    exact ⟨h0,h1,hce⟩
  · refine .pure ?_
    intro c hc
    cases hc

theorem parses_offset (hasOff : Bool) : Parses (readOffset hasOff) (· ≤ Varint.max) := by
  unfold readOffset
  split_ifs
  · exact parses_read
  · exact .pure (Nat.zero_le _)

theorem parses_streamData (hasLen : Bool) (offset : Nat) :
    Parses (readStreamData hasLen offset) (fun data => offset + data.length ≤ Varint.max) := by
  unfold readStreamData
  split_ifs
  · refine parses_read.bind fun length _ => ?_
    refine (parses_checkExtent offset length).bind fun _ hle => ?_
    obtain ⟨hconsumes,hyields⟩ := parses_bounded length
    exact ⟨hconsumes,fun buf data left hdata => hyields buf data left hdata ▸ hle⟩
  · refine parses_rest.bind fun data _ => ?_
    exact (parses_checkExtent offset data.length).bind fun _ hle => .pure hle

theorem parses_ack : Parses (readAck t) (fun frame => frame.FitsMemory → frame.WellFormed) := by
  refine parses_read.bind fun largest hlargest => ?_
  refine parses_read.bind fun ackDelay hdelay => ?_
  refine parses_read.bind fun count _ => ?_
  refine parses_read.bind fun firstRange hfirst => ?_
  refine (parses_ranges count).bind fun raw hraw => ?_
  refine (parses_ecn t).bind fun ecn hecn => ?_
  exact .pure fun hmem => ⟨hlargest,hdelay,hfirst,hraw,hmem,hecn⟩

theorem parses_crypto : Parses readCrypto (fun frame => frame.FitsMemory → frame.WellFormed) := by
  refine parses_read.bind fun offset _ => ?_
  refine parses_read.bind fun length _ => ?_
  refine (parses_checkExtent offset length).bind fun _ hextent => ?_
  refine (parses_bounded length).bind fun data hdata => ?_
  subst hdata
  exact .pure fun _ => hextent

theorem parses_newToken :
    Parses readNewToken (fun frame => frame.FitsMemory → frame.WellFormed) := by
  refine parses_read.bind fun length hlength => ?_
  refine (parses_bounded length).bind fun token htoken => ?_
  subst htoken
  split_ifs with hzero
  · exact parses_fail _ _
  · refine .pure fun _ => ⟨?_,hlength⟩
    intro hnil
    exact hzero (length_eq_zero_iff.mpr hnil)

theorem parses_newConnectionId :
    Parses readNewConnectionId (fun frame => frame.FitsMemory → frame.WellFormed) := by
  refine parses_read.bind fun seq hseq => ?_
  refine parses_read.bind fun retirePriorTo hretire => ?_
  refine (parses_byte _).bind fun cidLen _ => ?_
  split_ifs with hbad
  · exact parses_fail _ _
  · have hrange : 1 ≤ cidLen.toNat ∧ cidLen.toNat ≤ 20 := by
      rw [← UInt8.toNat_inj,UInt8.lt_iff_toNat_lt,not_or,not_lt] at hbad
      exact ⟨Nat.one_le_iff_ne_zero.mpr hbad.1,hbad.2⟩
    refine (parses_slice cidLen.toNat _).bind fun cid hcid => ?_
    refine (parses_fixed 16 _).bind fun token _ => .pure fun _ => ?_
    exact ⟨hseq,hretire,hcid ▸ hrange.1,hcid ▸ hrange.2⟩

theorem parses_frameType :
    Parses (readFrameType t) (fun frameType => ∀ t ∈ frameType, t ≤ Varint.max) := by
  unfold readFrameType
  split_ifs
  · refine parses_read.bind fun frameType h => .pure ?_
    intro t ht
    cases ht
    exact h
  · refine .pure ?_
    intro t ht
    cases ht

theorem parses_connectionClose :
    Parses (readConnectionClose t) (fun frame => frame.FitsMemory → frame.WellFormed) := by
  refine parses_read.bind fun error herror => ?_
  refine (parses_frameType t).bind fun frameType htype => ?_
  refine parses_read.bind fun length hlength => ?_
  refine (parses_bounded length).bind fun reason hreason => ?_
  subst hreason
  exact .pure fun _ => ⟨herror,htype,hlength⟩

theorem parses_body : Parses (readBody t) (fun frame => frame.FitsMemory → frame.WellFormed) := by
  have hone : ∀ make : Nat → Frame, (∀ v ≤ Varint.max, (make v).WellFormed) →
      Parses (do let v ← Varint.read; pure (make v))
        (fun frame => frame.FitsMemory → frame.WellFormed) :=
    fun make h => parses_read.bind fun v hv => .pure fun _ => h v hv
  have htwo : ∀ make : Nat → Nat → Frame,
      (∀ v ≤ Varint.max, ∀ w ≤ Varint.max, (make v w).WellFormed) →
      Parses (do let v ← Varint.read; let w ← Varint.read; pure (make v w))
        (fun frame => frame.FitsMemory → frame.WellFormed) :=
    fun make h => parses_read.bind fun v hv => hone (make v) (h v hv)
  have hcount : ∀ make : Nat → Frame, (∀ v ≤ maxStreamsLimit, (make v).WellFormed) →
      Parses (readStreamCount make) (fun frame => frame.FitsMemory → frame.WellFormed) := by
    intro make h
    refine parses_read.bind fun limit _ => ?_
    split_ifs with hlimit
    · exact parses_fail _ _
    · exact .pure fun _ => h limit (not_lt.mp hlimit)
  unfold readBody
  split_ifs
  · refine parses_read.bind fun id hid => (parses_offset _).bind fun offset _ => ?_
    exact (parses_streamData _ offset).bind fun data hdata => .pure fun _ => ⟨hid,hdata⟩
  split
  · refine .of_ok fun buf frame left h => ?_
    cases h
    exact ⟨fun _ => Nat.le_add_left 1 _,dropWhile_suffix _⟩
  · exact .pure fun _ => trivial
  · exact parses_ack _
  · exact parses_ack _
  · exact parses_read.bind fun id hid => htwo (resetStream id) fun v hv w hw => ⟨hid,hv,hw⟩
  · exact htwo stopSending fun v hv w hw => ⟨hv,hw⟩
  · exact parses_crypto
  · exact parses_newToken
  · exact hone maxData fun v hv => hv
  · exact htwo maxStreamData fun v hv w hw => ⟨hv,hw⟩
  · exact hcount (maxStreams .bidi) fun v hv => hv
  · exact hcount (maxStreams .uni) fun v hv => hv
  · exact hone dataBlocked fun v hv => hv
  · exact htwo streamDataBlocked fun v hv w hw => ⟨hv,hw⟩
  · exact hcount (streamsBlocked .bidi) fun v hv => hv
  · exact hcount (streamsBlocked .uni) fun v hv => hv
  · exact parses_newConnectionId
  · exact hone retireConnectionId fun v hv => hv
  · exact (parses_fixed 8 _).bind fun _ _ => .pure fun _ => trivial
  · exact (parses_fixed 8 _).bind fun _ _ => .pure fun _ => trivial
  · exact parses_connectionClose _
  · exact parses_connectionClose _
  · exact .pure fun _ => trivial
  · exact parses_rest.bind fun _ _ => .pure fun hmem => hmem
  · exact parses_read.bind fun length _ => (parses_bounded length).bind
      fun _ _ => .pure fun hmem => hmem
  · exact parses_fail _ _
end
theorem decode_ok (h : decode buf = .ok (frame, n)) : ∃ t body rest, buf = t :: body ∧
    readBody t body = .ok (frame, rest) ∧ n = buf.length - rest.length := by
  cases buf with
  | nil => cases h
  | cons t body =>
    cases hbody : readBody t body with
    | error e =>
      rw [decode,hbody] at h
      cases h
    | ok p =>
      rw [decode,hbody] at h
      cases h
      exact ⟨t,body,p.2,rfl,hbody,rfl⟩

theorem decode_wellFormed (h : decode buf = .ok (frame, n)) (hmem : frame.FitsMemory) : frame.WellFormed := by
  obtain ⟨t,body,rest,-,hbody,-⟩ := decode_ok h
  exact (parses_body t).yields body frame rest hbody hmem

theorem decode_bounds (h : decode buf = .ok (frame, n)) : 1 ≤ n ∧ n ≤ buf.length := by
  obtain ⟨t,body,rest,rfl,hbody,rfl⟩ := decode_ok h
  have hle := ((parses_body t).consumes body frame rest hbody).length_le
  rw [length_cons]
  omega
end Frame
theorem FrameIter.next_shrinks (it : FrameIter) (h : it.buf ≠ []) : it.next.2.buf.length < it.buf.length := by
  obtain ⟨buf⟩ := it
  cases buf with
  | nil => exact absurd rfl h
  | cons b buf =>
    cases hd : Frame.decode (b :: buf) with
    | error e => simp [next,hd]
    | ok p =>
      have hbounds := Frame.decode_bounds hd
      simp only [next,hd,length_drop]
      omega

theorem FrameIter.ends (it : FrameIter) :
    ∃ k, k ≤ it.buf.length ∧ ((fun it => it.next.2)^[k] it).buf = [] := by
  obtain ⟨len,hlen⟩ : ∃ len, it.buf.length ≤ len := ⟨_,le_refl _⟩
  induction len generalizing it with
  | zero =>
    exact ⟨0,Nat.zero_le _,length_eq_zero_iff.mp (Nat.le_zero.mp hlen)⟩
  | succ len ih =>
    by_cases hnil : it.buf = []
    · exact ⟨0,Nat.zero_le _,hnil⟩
    · have hshrink := it.next_shrinks hnil
      obtain ⟨k,hk,hend⟩ := ih it.next.2 (by omega)
      refine ⟨k + 1,by omega,?_⟩
      exact hend

/-- Every well-formed frame is read back, whatever follows; every frame that is read takes at least
one byte and no more than there are, so that the iterator over a payload ends. -/
theorem frame_codec :
    (∀ (frame : Frame) (out suffix : List UInt8), frame.WellFormed → frame.Separated suffix →
      ∃ bytes, frame.encode out = some (out ++ bytes) ∧
        Frame.decode (bytes ++ suffix) = .ok (frame, bytes.length)) ∧
    (∀ (buf : List UInt8) (frame : Frame) (n : Nat), Frame.decode buf = .ok (frame, n) →
      1 ≤ n ∧ n ≤ buf.length) ∧
    ∀ it : FrameIter, ∃ k, k ≤ it.buf.length ∧ ((fun it => it.next.2)^[k] it).next.1 = none := by
  refine ⟨fun frame out suffix h hsuffix => h.round_trip out suffix hsuffix,
    fun buf frame n h => Frame.decode_bounds h,?_⟩
  intro it
  obtain ⟨k,hk,hend⟩ := it.ends
  refine ⟨k,hk,?_⟩
  rw [FrameIter.next,hend]

/-- A STREAM frame in front of a byte that is no part of it. -/
theorem frame_codec_stream : ∃ bytes, (Frame.stream 4 300 true [7, 8]).encode [1] = some ([1] ++ bytes) ∧
      Frame.decode (bytes ++ [0]) = .ok (Frame.stream 4 300 true [7, 8], bytes.length) :=
  frame_codec.1 (Frame.stream 4 300 true [7, 8]) [1] [0] ⟨by decide,by decide⟩ trivial
end PureCrypto.Quic
