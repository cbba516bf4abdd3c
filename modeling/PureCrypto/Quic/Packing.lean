import PureCrypto.Quic.FrameCodec
import PureCrypto.Quic.StreamsChanges

/-!
# Packing agrees with the frame codec

`offer` names the frame whose turn it is, read off the state. What `pop_frame_into` writes is what
`Frame::encode` writes for it.
-/
namespace PureCrypto.Quic
open ByteReader List Option
open Varint (encode_eq length_bytes)
namespace PoppedFrame
/-- The frame on the wire; a STREAM frame carries `data`. -/
def wire (data : List UInt8) : PoppedFrame → Frame
  | .stream id offset _ fin => .stream id offset fin data
  | .resetStream id code finalSize => .resetStream id code finalSize
  | .stopSending id code => .stopSending id code
  | .maxData limit => .maxData limit
  | .maxStreamData id limit => .maxStreamData id limit
  | .dataBlocked limit => .dataBlocked limit
  | .streamDataBlocked id limit => .streamDataBlocked id limit
  | .maxStreams dir limit => .maxStreams dir limit
  | .streamsBlocked dir limit => .streamsBlocked dir limit

def Encodable : PoppedFrame → Prop
  | .stream id offset len _ => id ≤ Varint.max ∧ offset + len ≤ Varint.max
  | .resetStream id code finalSize =>
    id ≤ Varint.max ∧ code ≤ Varint.max ∧ finalSize ≤ Varint.max
  | .stopSending id code => id ≤ Varint.max ∧ code ≤ Varint.max
  | .maxData limit | .dataBlocked limit => limit ≤ Varint.max
  | .maxStreamData id limit | .streamDataBlocked id limit => id ≤ Varint.max ∧ limit ≤ Varint.max
  | .maxStreams _ limit | .streamsBlocked _ limit => limit ≤ maxStreamsLimit

def dataLen : PoppedFrame → Nat
  | .stream _ _ len _ => len
  | _ => 0
def ifFits (frame : PoppedFrame) (budget : Nat) : Option PoppedFrame :=
  if frame.encodedLen ≤ budget then some frame else none

/-- Between `out` and `out'` stand the bytes of the frame, as many as `encoded_len` says. -/
structure Written (frame : PoppedFrame) (data out bytes out' : List UInt8) : Prop where
  appended : out' = out ++ bytes
  data_length : data.length = frame.dataLen
  length_eq : bytes.length = frame.encodedLen
  encoded : (frame.wire data).encode [] = some bytes
variable {frame : PoppedFrame} {data : List UInt8}
theorem wellFormed_wire (h : data.length = frame.dataLen) : (frame.wire data).WellFormed ↔ frame.Encodable := by
  cases frame <;> simp only [wire,Frame.WellFormed,Encodable]
  case stream id offset len fin =>
    simp only [dataLen] at h
    rw [h]

theorem Written.decode_iff {out bytes out' : List UInt8} (h : frame.Written data out bytes out') :
    Frame.decode bytes = .ok (frame.wire data, bytes.length) ↔ frame.Encodable := by
  rw [← wellFormed_wire h.data_length]
  constructor
  · intro hdecode
    apply Frame.decode_wellFormed hdecode
    cases frame <;> trivial
  · intro hwf
    obtain ⟨bytes',hencode,hdecode⟩ := hwf.round_trip [] [] (by cases frame <;> trivial)
    rw [h.encoded] at hencode
    cases hencode
    rwa [append_nil] at hdecode

theorem written_control (h : frame.controlHint.isSome = true) (out : List UInt8) :
    ∃ bytes, frame.Written [] out bytes (frame.encode out) := by
  cases frame with
  | stream id offset len fin => cases h
  | maxStreams dir limit | streamsBlocked dir limit =>
    cases dir <;> refine ⟨_,?_,rfl,?_,rfl⟩ <;>
      simp [encode,encodedLen,encode_eq,length_bytes] <;> omega
  | _ =>
    refine ⟨_,?_,rfl,?_,rfl⟩ <;>
      simp [encode,encodedLen,encode_eq,length_bytes]
    all_goals omega

theorem written_stream (id offset len : Nat) (fin : Bool) (h : data.length = len) (out : List UInt8) :
    ∃ bytes, (PoppedFrame.stream id offset len fin).Written data out bytes
      (encodeStreamHeader out id offset len fin ++ data) := by
  subst h
  refine ⟨encodeStreamHeader [] id offset data.length fin ++ data,?_,rfl,?_,?_⟩
  · by_cases hzero : offset = 0 <;> cases fin <;> simp [encodeStreamHeader,encode_eq,hzero]
  · by_cases hzero : offset = 0 <;> cases fin <;>
      simp [encodeStreamHeader,encodedLen,encode_eq,length_bytes,hzero] <;> omega
  · by_cases hzero : offset = 0
    · cases fin <;> simp [encodeStreamHeader,wire,Frame.encode,hzero]
    · cases fin <;> simp [encodeStreamHeader,wire,Frame.encode,hzero] <;> rfl
end PoppedFrame
/-- As much of the front chunk of the retransmit queue as fits. -/
def Chunk.offer (c : Chunk) (id budget : Nat) : Option PoppedFrame :=
  let overhead := headerOverhead id c.off + Varint.encodedLen c.bytes.length
  if budget < overhead + min 1 c.bytes.length then none
  else if c.bytes.length ≤ budget - overhead then
    some (.stream id c.off c.bytes.length c.fin)
  else some (.stream id c.off (budget - overhead) false)

/-- As much of the write buffer as fits, with the FIN if it ends there. -/
def SendStream.offerFresh (send : SendStream) (id budget : Nat) : Option PoppedFrame :=
  let overhead := headerOverhead id send.writeOff + Varint.encodedLen send.writeBuf.length
  if budget < overhead + 1 then none
  else
    let take := min (budget - overhead) send.writeBuf.length
    some (.stream id send.writeOff take (send.finOffset == some (send.writeOff + take) &&
      take == send.writeBuf.length && !send.finSent))

/-- The frame a stream sends next, if it fits. -/
def Stream.offer (stream : Stream) (id budget : Nat) : Option PoppedFrame :=
  match stream.send.filter (fun send => send.resetPending) with
  | some send =>
    (PoppedFrame.resetStream id (send.resetCode.getD 0) send.sentOffset).ifFits budget
  | none =>
  match stream.recv.bind (fun recv => recv.stopSendingPending) with
  | some code => (PoppedFrame.stopSending id code).ifFits budget
  | none =>
  match stream.recv.filter (fun recv => recv.maxDataPending) with
  | some recv => (PoppedFrame.maxStreamData id recv.maxData).ifFits budget
  | none =>
  match stream.send.bind (fun send => send.blockedAt) with
  | some lim => (PoppedFrame.streamDataBlocked id lim).ifFits budget
  | none =>
  match stream.send.bind (fun send => send.rtxQueue.head?) with
  | some c => c.offer id budget
  | none =>
  match stream.send.filter (fun send => send.hasOutbound) with
  | some send => send.offerFresh id budget
  | none => none

theorem Stream.id_of_offer {stream : Stream} {id id' offset len budget : Nat} {fin : Bool}
    (h : stream.offer id budget = some (.stream id' offset len fin)) : id' = id := by
  have hcontrol : ∀ frame : PoppedFrame, frame.controlHint.isSome = true →
      frame.ifFits budget ≠ some (.stream id' offset len fin) := by
    intro frame hframe hfits
    unfold PoppedFrame.ifFits at hfits
    split_ifs at hfits
    cases hfits
    cases hframe
  unfold Stream.offer at h
  split at h
  · exact absurd h (hcontrol _ rfl)
  split at h
  · exact absurd h (hcontrol _ rfl)
  split at h
  · exact absurd h (hcontrol _ rfl)
  split at h
  · exact absurd h (hcontrol _ rfl)
  split at h
  · simp only [Chunk.offer] at h
    split_ifs at h <;> cases h
    · rfl
    · rfl
  split at h
  · simp only [SendStream.offerFresh] at h
    split_ifs at h
    cases h
    rfl
  · cases h
namespace Streams
/-- The connection-level frames that are due, in the order they are tried. -/
def connDue (s : Streams) : List PoppedFrame :=
  (if s.maxDataPending then [.maxData s.connRecvMax] else []) ++
  ((if s.bidi.maxStreamsPending then [.maxStreams .bidi s.bidi.selfMax] else []) ++
  ((if s.uni.maxStreamsPending then [.maxStreams .uni s.uni.selfMax] else []) ++
  ((s.dataBlockedAt.map .dataBlocked).toList ++
  ((s.streamsBlockedBidiAt.map (.streamsBlocked .bidi)).toList ++
  (s.streamsBlockedUniAt.map (.streamsBlocked .uni)).toList))))

def offerOf (s : Streams) (budget id : Nat) : Option PoppedFrame :=
  (s.map.get? id).bind (fun stream => stream.offer id budget)

/-- The frame whose turn it is: the first one that fits. -/
def offer (s : Streams) (budget : Nat) : Option PoppedFrame :=
  (s.connDue.find? (fun frame => frame.encodedLen ≤ budget)).or
    (s.readyToSend.findSome? (s.offerOf budget))
end Streams
/-- The half has these bytes of the stream at `offset`. -/
def SendStream.HoldsAt (send : SendStream) (offset : Nat) (data : List UInt8) : Prop :=
  (offset = send.writeOff ∧ data <+: send.writeBuf) ∨
    ∃ c ∈ send.rtxQueue, c.off = offset ∧ data <+: c.bytes

/-- `data` are the stream bytes that a STREAM frame announces. -/
def Stream.Supplies (stream : Stream) (frame : PoppedFrame) (data : List UInt8) : Prop :=
  match frame with
  | .stream _ offset _ _ => ∃ send, stream.send = some send ∧ send.HoldsAt offset data
  | _ => data = []
section OneStream
variable {stream stream' : Stream} {id budget : Nat} {out : List UInt8}
/-- What popping a stream did agrees with what it offered. -/
def PopFollows (stream : Stream) (budget : Nat) (out : List UInt8)
    (offered : Option PoppedFrame) (r : StreamPop × Stream × List UInt8) : Prop :=
  match r.1 with
  | .frame frame _ => offered = some frame ∧ frame.encodedLen ≤ budget ∧
      ∃ data bytes, stream.Supplies frame data ∧ frame.Written data out bytes r.2.2
  | .noRoom => offered = none
  | .idle => offered = none

theorem follows_control {frame : PoppedFrame} (h : frame.controlHint.isSome = true) :
    PopFollows stream budget out (frame.ifFits budget) (popControl frame stream stream' budget out) := by
  unfold popControl PoppedFrame.ifFits
  by_cases hfit : frame.encodedLen ≤ budget
  · rw [if_neg (not_lt.mpr hfit),if_pos hfit]
    obtain ⟨bytes,hw⟩ := PoppedFrame.written_control h out
    refine ⟨rfl,hfit,[],bytes,?_,hw⟩
    cases frame with
    | stream id offset len fin => cases h
    | _ => rfl
  · rw [if_pos (not_le.mp hfit),if_neg hfit]
    rfl

theorem encodedLen_mono {a b : Nat} (h : a ≤ b) : Varint.encodedLen a ≤ Varint.encodedLen b := by
  unfold Varint.encodedLen
  split_ifs <;> omega

theorem stream_encodedLen_le {offset len whole : Nat} (fin : Bool) (hlen : len ≤ whole)
    (hroom : headerOverhead id offset + Varint.encodedLen whole + len ≤ budget) :
    (PoppedFrame.stream id offset len fin).encodedLen ≤ budget := by
  have hmono := encodedLen_mono hlen
  have hzero : (if offset ≠ 0 then Varint.encodedLen offset else 0) =
      if 0 < offset then Varint.encodedLen offset else 0 := by
    simp only [Nat.pos_iff_ne_zero]
  simp only [PoppedFrame.encodedLen,headerOverhead,hzero] at hroom ⊢
  omega

theorem follows_retransmission {send : SendStream} {c : Chunk} (hsend : stream.send = some send)
    (hc : send.rtxQueue.head? = some c) : PopFollows stream budget out (c.offer id budget)
      (popRetransmission stream send id c.off c.bytes.length budget out) := by
  obtain ⟨rest,hq⟩ : ∃ rest, send.rtxQueue = c :: rest := head?_eq_some_iff.mp hc
  have hmem : c ∈ send.rtxQueue := hq ▸ mem_cons_self
  have hmin : (if 0 < c.bytes.length then 1 else 0) = min 1 c.bytes.length := by
    split_ifs <;> omega
  simp only [popRetransmission,Chunk.offer,hmin]
  by_cases hroom : budget < headerOverhead id c.off + Varint.encodedLen c.bytes.length +
      min 1 c.bytes.length
  · rw [if_pos hroom,if_pos hroom]
    rfl
  rw [if_neg hroom,if_neg hroom]
  by_cases hwhole : c.bytes.length ≤
      budget - (headerOverhead id c.off + Varint.encodedLen c.bytes.length)
  · obtain ⟨bytes,hw⟩ := PoppedFrame.written_stream id c.off c.bytes.length c.fin rfl out
    have hfit : headerOverhead id c.off + Varint.encodedLen c.bytes.length + c.bytes.length ≤
        budget := by omega
    simp only [SendStream.popRtxFrame,hq,if_pos hwhole]
    refine ⟨rfl,stream_encodedLen_le c.fin (le_refl _) hfit,c.bytes,bytes,?_,hw⟩
    exact ⟨send,hsend,.inr ⟨c,hmem,rfl,prefix_refl _⟩⟩
  · have hlen : (c.bytes.take (budget - (headerOverhead id c.off +
        Varint.encodedLen c.bytes.length))).length = _ :=
      length_take_of_le (le_of_lt (not_le.mp hwhole))
    obtain ⟨bytes,hw⟩ := PoppedFrame.written_stream id c.off _ false hlen out
    have hfit : headerOverhead id c.off + Varint.encodedLen c.bytes.length +
        (budget - (headerOverhead id c.off + Varint.encodedLen c.bytes.length)) ≤ budget := by omega
    simp only [SendStream.popRtxFrame,hq,if_neg hwhole]
    refine ⟨rfl,stream_encodedLen_le false (le_of_lt (not_le.mp hwhole)) hfit,_,bytes,?_,hw⟩
    exact ⟨send,hsend,.inr ⟨c,hmem,rfl, take_prefix _ _⟩⟩

theorem follows_fresh {send : SendStream} (hsend : stream.send = some send)
    (hrtx : send.rtxQueue = []) (hout : send.hasOutbound = true) :
    PopFollows stream budget out (send.offerFresh id budget) (popFresh stream send id budget out) := by
  simp only [popFresh,SendStream.offerFresh]
  set overhead := headerOverhead id send.writeOff + Varint.encodedLen send.writeBuf.length
    with hoverhead
  by_cases hroom : budget < overhead + 1
  · rw [if_pos hroom,if_pos hroom]
    rfl
  rw [if_neg hroom,if_neg hroom]
  set take := min (budget - overhead) send.writeBuf.length with htake
  have hlen : (send.writeBuf.take take).length = take := length_take_of_le (by omega)
  have hsupplied : send.HoldsAt send.writeOff (send.writeBuf.take take) :=
    .inl ⟨rfl, take_prefix _ _⟩
  obtain ⟨bytes,hw⟩ := PoppedFrame.written_stream id send.writeOff take
    (send.finOffset == some (send.writeOff + take) && take == send.writeBuf.length && !send.finSent) hlen out
  by_cases hempty : take = 0
  · -- the budget leaves room for a byte, so the buffer is empty and the FIN is what waits
    have hbuf : send.writeBuf = [] := length_eq_zero_iff.mp (by omega)
    have hfin : send.finOffset.isSome = true ∧ send.finSent = false := by
      simpa [SendStream.hasOutbound,hrtx,hbuf] using hout
    have hfits : headerOverhead id send.writeOff + Varint.encodedLen 0 ≤ budget := by
      have hzero : overhead = headerOverhead id send.writeOff + Varint.encodedLen 0 := by
        rw [hoverhead,hbuf]
        rfl
      omega
    have hcond : send.finOffset.isSome = true ∧ (!send.finSent) = true ∧
        send.writeBuf.isEmpty = true ∧
        headerOverhead id send.writeOff + Varint.encodedLen 0 ≤ budget := by
      simp [hfin,hbuf,hfits]
    rw [if_pos hcond]
    simp only [SendStream.carveFrame,hout,hbuf,hempty] at hw hsupplied ⊢
    have hfit : headerOverhead id send.writeOff + Varint.encodedLen 0 + 0 ≤ budget := hfits
    refine ⟨rfl,stream_encodedLen_le _ (le_refl 0) hfit,[],bytes,?_,?_⟩
    · exact ⟨send,hsend,by simpa using hsupplied⟩
    · simpa using hw
  · rw [if_neg hempty]
    have hmin : min take send.writeBuf.length = take := by omega
    simp only [SendStream.carveFrame,hout,Bool.not_true,Bool.false_eq_true,if_false,hmin]
    have hle : take ≤ send.writeBuf.length := by omega
    have hfit : headerOverhead id send.writeOff + Varint.encodedLen send.writeBuf.length + take ≤
        budget := by omega
    refine ⟨rfl,stream_encodedLen_le _ hle hfit,_,bytes,?_,hw⟩
    exact ⟨send,hsend,hsupplied⟩

theorem popStreamFrame_follows (stream : Stream) (id budget : Nat) (out : List UInt8) :
    PopFollows stream budget out (stream.offer id budget) (popStreamFrame stream id budget out) := by
  obtain ⟨send,recv⟩ := stream
  unfold popStreamFrame Stream.offer
  cases hreset : send.filter (fun send => send.resetPending) with
  | some s => exact follows_control rfl
  | none =>
  cases hstop : recv.bind (fun recv => recv.stopSendingPending) with
  | some code =>
    obtain ⟨r,rfl,hcode⟩ := bind_eq_some_iff.mp hstop
    simp only [bind_some,hcode,map_some]
    exact follows_control rfl
  | none =>
  have hstop' : recv.bind (fun recv => recv.stopSendingPending.map (recv, ·)) = none := by
    cases recv with
    | none => rfl
    | some r =>
      have hcode : r.stopSendingPending = none := hstop
      simp [hcode]
  simp only [hstop']
  cases hmax : recv.filter (fun recv => recv.maxDataPending) with
  | some r => exact follows_control rfl
  | none =>
  cases send with
  | none => exact rfl
  | some s =>
    simp only [bind_some]
    cases hblocked : s.blockedAt with
    | some lim => exact follows_control rfl
    | none =>
      simp only [map_none,SendStream.peekRtx]
      cases hrtx : s.rtxQueue.head? with
      | some c =>
        exact follows_retransmission rfl hrtx
      | none =>
        cases hout : s.hasOutbound with
        | false =>
          simp only [filter_some,hout,Bool.false_eq_true,if_false]
          exact rfl
        | true =>
          simp only [filter_some,hout,if_true]
          exact follows_fresh rfl (head?_eq_none_iff.mp hrtx) hout
end OneStream
namespace Streams
variable {s : Streams} {budget : Nat} {out : List UInt8}
def Supplies (s : Streams) (frame : PoppedFrame) (data : List UInt8) : Prop :=
  match frame with
  | .stream id offset _ _ => ∃ send, s.sendHalf id = some send ∧ send.HoldsAt offset data
  | _ => data = []

/-- What the packer did agrees with what was offered. -/
def Follows (s : Streams) (budget : Nat) (out : List UInt8) (offered : Option PoppedFrame)
    (r : Option PoppedFrame × Streams × List UInt8) : Prop :=
  r.1 = offered ∧
  match offered with
  | some frame => frame.encodedLen ≤ budget ∧
      ∃ data bytes, s.Supplies frame data ∧ frame.Written data out bytes r.2.2
  | none => r.2.2 = out ∧ r.2.1.map = s.map

theorem supplies_of_stream {id : Nat} {stream : Stream} {frame : PoppedFrame} {data : List UInt8}
    (hget : s.map.get? id = some stream) (hoffer : stream.offer id budget = some frame)
    (h : stream.Supplies frame data) : s.Supplies frame data := by
  cases frame with
  | stream id' offset len fin =>
    obtain ⟨send,hsend,hholds⟩ := h
    have hid : id' = id := Stream.id_of_offer hoffer
    subst hid
    refine ⟨send,?_,hholds⟩
    rw [sendHalf,hget]
    exact hsend
  | _ => exact h

theorem Follows.congr {s' : Streams} {offered : Option PoppedFrame}
    {r : Option PoppedFrame × Streams × List UInt8} (h : s'.Follows budget out offered r)
    (hmap : s'.map = s.map) : s.Follows budget out offered r := by
  refine ⟨h.1,?_⟩
  have hrest := h.2
  cases offered with
  | none => exact ⟨hrest.1,hrest.2.trans hmap⟩
  | some frame =>
    obtain ⟨hlen,data,bytes,hsupplied,hw⟩ := hrest
    refine ⟨hlen,data,bytes,?_,hw⟩
    cases frame with
    | stream id offset len fin =>
      obtain ⟨send,hsend,hholds⟩ := hsupplied
      exact ⟨send,by rwa [sendHalf,← hmap],hholds⟩
    | _ => exact hsupplied

theorem readyToSend_enqueueReady (s : Streams) (id : Nat) : s.readyToSend <+: (s.enqueueReady id).readyToSend := by
  unfold enqueueReady
  split_ifs
  · exact prefix_refl _
  · exact prefix_append _ _

/-- A stream put back is put behind all that are still to be asked. -/
theorem popReady_follows (n : Nat) (s : Streams) (hn : n ≤ s.readyToSend.length) :
    s.Follows budget out ((s.readyToSend.take n).findSome? (s.offerOf budget)) (popReady budget out n s) := by
  induction n generalizing s with
  | zero => exact ⟨rfl,rfl,rfl⟩
  | succ n ih =>
    cases hq : s.readyToSend with
    | nil =>
      rw [hq] at hn
      exact absurd hn (Nat.not_succ_le_zero n)
    | cons id rest =>
      have hrest : n ≤ rest.length := by
        rw [hq] at hn
        exact Nat.le_of_succ_le_succ hn
      -- going on from a state with the same streams and `rest` in front
      have hgo : ∀ s' : Streams, s'.map = s.map → rest <+: s'.readyToSend →
          s.Follows budget out ((rest.take n).findSome? (s.offerOf budget))
            (popReady budget out n s') := by
        intro s' hmap hprefix
        have hlen := hprefix.length_le
        have hsame := ih s' (by omega)
        obtain ⟨tail,htail⟩ := hprefix
        rw [← htail,take_append_of_le_length hrest] at hsame
        have hoffers : s'.offerOf budget = s.offerOf budget := by
          funext id
          rw [offerOf,offerOf,hmap]
        rw [hoffers] at hsame
        exact hsame.congr hmap
      rw [take_succ_cons,findSome?_cons]
      simp only [popReady,hq]
      cases hget : s.map.get? id with
      | none =>
        have hnone : s.offerOf budget id = none := by rw [offerOf,hget]; rfl
        simp only [hnone,dequeue,hget]
        exact hgo _ rfl (prefix_refl _)
      | some stream =>
        have hoffer : s.offerOf budget id = stream.offer id budget := by
          rw [offerOf,hget]
          rfl
        have hpop := popStreamFrame_follows stream id budget out
        simp only [hoffer,dequeue,hget]
        cases hr : popStreamFrame stream id budget out with
        | mk pop after =>
          rw [hr] at hpop
          cases pop with
          | frame frame more =>
            obtain ⟨hsome,hlen,data,bytes,hsupplied,hw⟩ := hpop
            simp only [hsome]
            exact ⟨rfl,hlen,data,bytes,supplies_of_stream hget hsome hsupplied,hw⟩
          | noRoom =>
            have hnone : stream.offer id budget = none := hpop
            simp only [hnone]
            apply hgo
            · rw [map_enqueueReady]
            · exact readyToSend_enqueueReady
                { s with readyToSend := rest, readySet := s.readySet.erase id } id
          | idle =>
            have hnone : stream.offer id budget = none := hpop
            simp only [hnone]
            exact hgo _ rfl (prefix_refl _)

private theorem popDue_find (due : Bool) (frame : PoppedFrame) (s' : Streams) (budget : Nat) :
    (popDue due frame s' budget).map Prod.fst =
      (if due then [frame] else []).find? (fun frame => frame.encodedLen ≤ budget) := by
  unfold popDue
  cases due with
  | false => rfl
  | true => by_cases hfit : frame.encodedLen ≤ budget <;> simp [hfit]

private theorem toList_map (limit : Option Nat) (make : Nat → PoppedFrame) :
    (limit.map make).toList = if limit.isSome then [make (limit.getD 0)] else [] := by
  cases limit with
  | none => rfl
  | some limit => rfl

private theorem map_orElse (a b : Option (PoppedFrame × Streams)) :
    (a <|> b).map Prod.fst = (a.map Prod.fst).or (b.map Prod.fst) := by
  cases a with
  | none => rfl
  | some x => rfl

theorem popConnFrame_fst (s : Streams) (budget : Nat) : (s.popConnFrame budget).map Prod.fst =
      s.connDue.find? (fun frame => frame.encodedLen ≤ budget) := by
  simp only [popConnFrame,connDue,map_orElse,popDue_find,toList_map,find?_append]

theorem isControl_of_connDue {frame : PoppedFrame} (h : frame ∈ s.connDue) : frame.controlHint.isSome = true := by
  simp only [connDue,List.mem_append,mem_toList,map_eq_some_iff] at h
  rcases h with h | h | h | ⟨limit,-,rfl⟩ | ⟨limit,-,rfl⟩ | ⟨limit,-,rfl⟩
  case inl | inr.inl | inr.inr.inl =>
    split_ifs at h
    · cases List.mem_singleton.mp h
      rfl
    · cases h
  all_goals rfl

theorem popFrameInto_follows (s : Streams) (budget : Nat) (out : List UInt8) :
    s.Follows budget out (s.offer budget) (s.popFrameInto budget out) := by
  have hconn := popConnFrame_fst s budget
  unfold popFrameInto offer
  cases hpop : s.popConnFrame budget with
  | none =>
    rw [hpop] at hconn
    rw [← hconn]
    have hscan : s.Follows budget out
        ((s.readyToSend.take s.readyToSend.length).findSome? (s.offerOf budget))
        (popReady budget out s.readyToSend.length s) :=
      popReady_follows s.readyToSend.length s (le_refl _)
    rw [take_length] at hscan
    exact hscan
  | some r =>
    rw [hpop] at hconn
    rw [← hconn]
    have hmem := mem_of_find?_eq_some hconn.symm
    have hfit : r.1.encodedLen ≤ budget := by simpa using find?_some hconn.symm
    have hcontrol := isControl_of_connDue hmem
    obtain ⟨bytes,hw⟩ := PoppedFrame.written_control hcontrol out
    refine ⟨rfl,hfit,[],bytes,?_,hw⟩
    cases hframe : r.1 with
    | stream id offset len fin =>
      rw [hframe] at hcontrol
      cases hcontrol
    | _ => rfl

/-- A popped frame stands in the packet, in as many bytes as it announces and no more than the
budget, and decodes to itself with the stream's bytes as its payload; if none is popped, the packet
and the streams are as before. -/
def PacksWire (s : Streams) (budget : Nat) (out : List UInt8) : Prop :=
  match s.popFrameInto budget out with
  | (some frame, _, out') => ∃ bytes data, out' = out ++ bytes ∧
      bytes.length = frame.encodedLen ∧ frame.encodedLen ≤ budget ∧
      Frame.decode bytes = .ok (frame.wire data, bytes.length) ∧
      data.length = frame.dataLen ∧ s.Supplies frame data
  | (none, s', out') => out' = out ∧ s'.map = s.map

/-- The packer agrees with the codec exactly if the frame's values fit their wire fields. -/
theorem packsWire_iff (s : Streams) (budget : Nat) (out : List UInt8) :
    s.PacksWire budget out ↔ ∀ frame ∈ s.offer budget, frame.Encodable := by
  obtain ⟨hframe,hrest⟩ := popFrameInto_follows s budget out
  unfold PacksWire
  cases hr : s.popFrameInto budget out with
  | mk popped after =>
    rw [hr] at hframe hrest
    cases hoffer : s.offer budget with
    | none =>
      rw [hoffer] at hframe hrest
      cases hframe
      exact ⟨nofun,fun _ => hrest⟩
    | some frame =>
      rw [hoffer] at hframe hrest
      cases hframe
      obtain ⟨hlen,data,bytes,hsupplied,hw⟩ := hrest
      constructor
      · rintro ⟨bytes',data',happended,-,-,hdecode,hdata,-⟩ frame' hmem
        cases hmem
        have hbytes : bytes' = bytes :=
          append_cancel_left (happended.symm.trans hw.appended)
        rw [← PoppedFrame.wellFormed_wire hdata]
        apply Frame.decode_wellFormed hdecode
        cases frame <;> trivial
      · intro hall
        exact ⟨bytes,data,hw.appended,hw.length_eq,hlen,hw.decode_iff.mpr (hall frame rfl),hw.data_length,hsupplied⟩

/-- One reset uses up a window of `2 ^ 62 - 1` bytes: the limit announced in return is clamped. -/
theorem max_data_clamped :
    let s := step (Streams.new .server (.uniform (2 ^ 62 - 1) 1) (.uniform 0 0))
      (.onReset 0 0 (2 ^ 62 - 1))
    (s.popFrameInto 100 []).1 = some (.maxData (2 ^ 63 - 2)) ∧
      Frame.decode (s.popFrameInto 100 []).2.2 = .ok (.maxData (2 ^ 62 - 1), 9) := by
  decide +kernel
end Streams
end PureCrypto.Quic
