import PureCrypto.Framework.Intervals
import PureCrypto.Framework.PartitionPoint
import PureCrypto.Quic.StreamTypes
import PureCrypto.Quic.Varint

/-!
# The send half of a stream

`SendStream` of `quic/stream.rs`: the write buffer, the chunks in flight and awaiting
retransmission, and the acknowledged ranges.  Frame-writing operations append the whole STREAM
frame to the packet under construction.
-/
namespace PureCrypto.Quic
open Intervals
/-- Bytes emitted at `off`, with the FIN bit of the frame that carried them. -/
structure Chunk where
  off : Nat
  bytes : List UInt8
  fin : Bool
deriving DecidableEq

def Chunk.stop (c : Chunk) : Nat := c.off + c.bytes.length

/-- What a frame-writing operation reports of the frame it wrote. -/
structure StreamFrame where
  offset : Nat
  len : Nat
  fin : Bool
deriving DecidableEq

structure SendStream where
  state : SendState
  /-- Bytes not yet carved; the front is at `writeOff`. -/
  writeBuf : List UInt8
  writeOff : Nat
  sentOffset : Nat
  ackedOffset : Nat
  finOffset : Option Nat
  finSent : Bool
  peerMaxData : Nat
  resetCode : Option Nat
  blockedAt : Option Nat
  resetPending : Bool
  sentChunks : List Chunk
  /-- `sentChunks` is in non-decreasing offset order. -/
  sentSorted : Bool
  rtxQueue : List Chunk
  ackedRanges : SortedMap Nat Nat
  finAcked : Bool

/-- LEN always set, OFF unless the offset is zero. -/
def encodeStreamHeader (out : List UInt8) (id offset len : Nat) (fin : Bool) : List UInt8 :=
  let t : UInt8 := 0x08 ||| 0x02
  let t := if offset ≠ 0 then t ||| 0x04 else t
  let t := if fin then t ||| 0x01 else t
  let out := Varint.encode id (out ++ [t])
  let out := if offset ≠ 0 then Varint.encode offset out else out
  Varint.encode len out
namespace SendStream
def new (peerMaxData : Nat) : SendStream where
  state := .ready
  writeBuf := []
  writeOff := 0
  sentOffset := 0
  ackedOffset := 0
  finOffset := none
  finSent := false
  peerMaxData := peerMaxData
  resetCode := none
  blockedAt := none
  resetPending := false
  sentChunks := []
  sentSorted := true
  rtxQueue := []
  ackedRanges := .empty
  finAcked := false

/-- Stream bytes, a retransmission or a bare FIN wait for the packer. -/
def hasOutbound (s : SendStream) : Bool :=
  !s.rtxQueue.isEmpty || !s.writeBuf.isEmpty || (s.finOffset.isSome && !s.finSent)

/-- `[off, off + len)`, and the FIN if the chunk has it, are acknowledged. -/
def chunkAcked (s : SendStream) (off len : Nat) (fin : Bool) : Bool :=
  rangeCovered s.ackedRanges off (saturatingAdd off len) && (!fin || s.finAcked)

def hasUnacked (s : SendStream) : Bool := !s.sentChunks.isEmpty || !s.rtxQueue.isEmpty

/-- Move `hi` down to `lo` past chunks that are not covered. -/
def trimRun (covered : Chunk → Bool) (chunks : List Chunk) (lo : Nat) : Nat → Nat
  | 0 => 0
  | hi + 1 =>
    if lo < hi + 1 ∧ (chunks[hi]?).any (fun c => !covered c) then trimRun covered chunks lo hi
    else hi + 1

/-- Drop the chunks inside the acknowledged interval `[ms, me)`. -/
def pruneSortedSent (s : SendStream) (ms me : Nat) : SendStream :=
  let covered := fun c : Chunk =>
    ms ≤ c.off && saturatingAdd c.off c.bytes.length ≤ me && (!c.fin || s.finAcked)
  let lo := partitionPoint (fun c => c.off < ms) s.sentChunks
  let hi := trimRun covered s.sentChunks lo (partitionPoint (fun c => c.off < me) s.sentChunks)
  if ((s.sentChunks.drop lo).take (hi - lo)).all covered then
    { s with sentChunks := s.sentChunks.take lo ++ s.sentChunks.drop hi }
  else { s with sentChunks := s.sentChunks.filter (fun c => !covered c) }

def recordAck (s : SendStream) (offset stop : Nat) (fin : Bool) : SendStream :=
  let s := if fin then { s with finAcked := true } else s
  let s := { s with ackedRanges := insertRange s.ackedRanges offset stop }
  match s.ackedRanges.entries.head? with
  | some (start, e) => if start = 0 then { s with ackedOffset := e } else s
  | none => s

/-- Unless the FIN was just acknowledged, only the merged interval has to be looked at. -/
def pruneSent (s : SendStream) (offset stop : Nat) (finNewlyAcked : Bool) : SendStream :=
  let s :=
    if offset < stop ∧ !finNewlyAcked ∧ s.sentSorted then
      match s.ackedRanges.lastLE offset with
      | some (ms, me) => s.pruneSortedSent ms me
      | none => s
    else { s with
      sentChunks := s.sentChunks.filter (fun c => !s.chunkAcked c.off c.bytes.length c.fin) }
  if s.sentChunks.isEmpty then { s with sentSorted := true } else s

def pruneRtx (s : SendStream) : SendStream :=
  if s.rtxQueue.isEmpty then s
  else { s with
    rtxQueue := s.rtxQueue.filter (fun c => !s.chunkAcked c.off c.bytes.length c.fin) }

/-- With the FIN and every carved byte acknowledged the send half is done. -/
def settleAcked (s : SendStream) : SendStream :=
  if s.finAcked && s.writeBuf.isEmpty && !s.hasUnacked
      && !(s.state == .resetSent || s.state == .resetRecvd) then
    { s with state := .dataRecvd }
  else s

/-- The packet that carried `[offset, offset + len)` was acknowledged. -/
def onRangeAcked (s : SendStream) (offset len : Nat) (fin : Bool) : SendStream :=
  let finNewlyAcked := fin && !s.finAcked
  let stop := saturatingAdd offset len
  (((s.recordAck offset stop fin).pruneSent offset stop finNewlyAcked).pruneRtx).settleAcked

/-- Record an emitted chunk as in flight, unless all of it is acknowledged already. -/
def pushSent (s : SendStream) (chunk : Chunk) : SendStream :=
  if s.chunkAcked chunk.off chunk.bytes.length chunk.fin then s
  else
    let s := match s.sentChunks.getLast? with
      | some back => if chunk.off < back.off then { s with sentSorted := false } else s
      | none => { s with sentSorted := true }
    { s with sentChunks := s.sentChunks ++ [chunk] }

def isFinished (s : SendStream) : Bool :=
  match s.state with
  | .resetRecvd => !s.resetPending
  | .dataRecvd => s.writeBuf.isEmpty && !s.hasUnacked
  | _ => false

def onResetAcked (s : SendStream) : SendStream :=
  if s.state = .resetSent then { s with state := .resetRecvd } else s

/-- The packet that carried our RESET_STREAM was lost. -/
def onResetLost (s : SendStream) : Bool × SendStream :=
  if s.state = .resetSent ∧ s.resetCode.isSome then (true, { s with resetPending := true })
  else (false, s)

/-- The unacknowledged chunks of a lost range move to the retransmit queue. -/
def onRangeLost (s : SendStream) (offset len : Nat) (fin : Bool) : Bool × SendStream :=
  let stop := saturatingAdd offset len
  let lost := fun c : Chunk =>
    let overlapsData := c.off < stop && offset < c.off + c.bytes.length
    let finOnlyMatch := c.bytes.isEmpty && c.fin && fin && c.off == offset
    (overlapsData || finOnlyMatch) && !s.chunkAcked c.off c.bytes.length c.fin
  let moved := s.sentChunks.filter lost
  let keep := s.sentChunks.filter (fun c => !lost c)
  (!moved.isEmpty, { s with
    rtxQueue := s.rtxQueue ++ moved
    sentChunks := keep
    sentSorted := keep.isEmpty || s.sentSorted })

/-- Offset and length of the chunk at the front of the retransmit queue. -/
def peekRtx (s : SendStream) : Option (Nat × Nat) :=
  s.rtxQueue.head?.map (fun c => (c.off, c.bytes.length))

/-- A chunk over the budget is split: the head goes out without its FIN bit. -/
def popRtxFrame (s : SendStream) (id maxPayload : Nat) (out : List UInt8) :
    Option StreamFrame × SendStream × List UInt8 :=
  match s.rtxQueue with
  | [] => (none, s, out)
  | c :: rest =>
    if c.bytes.length ≤ maxPayload then
      let len := c.bytes.length
      (some ⟨c.off, len, c.fin⟩, { s with rtxQueue := rest }.pushSent c,
        encodeStreamHeader out id c.off len c.fin ++ c.bytes)
    else
      let tail := c.bytes.drop maxPayload
      let head := c.bytes.take maxPayload
      (some ⟨c.off, maxPayload, false⟩,
        { s with rtxQueue := ⟨c.off + maxPayload, tail, c.fin⟩ :: rest }.pushSent
          ⟨c.off, head, false⟩,
        encodeStreamHeader out id c.off maxPayload false ++ head)

def availableCredit (s : SendStream) : Nat := s.peerMaxData - s.sentOffset

/-- Accept as much of `data` as the peer's stream credit allows. -/
def enqueue (s : SendStream) (data : List UInt8) : Nat × SendStream :=
  if s.state ≠ .ready ∧ s.state ≠ .send then (0, s)
  else
    let streamRoom := s.availableCredit - s.writeBuf.length
    let take := min streamRoom data.length
    if take = 0 then (0, s)
    else
      let s := { s with writeBuf := s.writeBuf ++ data.take take }
      (take, if s.state = .ready then { s with state := .send } else s)

def finish (s : SendStream) : SendStream :=
  if s.finOffset.isSome then s
  else { s with finOffset := some (s.writeOff + s.writeBuf.length) }

/-- Up to `cap` fresh bytes, with the FIN if they end at the final size. -/
def carveFrame (s : SendStream) (id cap : Nat) (out : List UInt8) :
    Option StreamFrame × SendStream × List UInt8 :=
  if !s.hasOutbound then (none, s, out)
  else
    let offset := s.writeOff
    let take := min cap s.writeBuf.length
    let stop := offset + take
    let fin := s.finOffset == some stop && take == s.writeBuf.length && !s.finSent
    let bytes := s.writeBuf.take take
    let out := encodeStreamHeader out id offset take fin ++ bytes
    let s := { s with
      writeBuf := s.writeBuf.drop take
      writeOff := stop
      sentOffset := if s.sentOffset < stop then stop else s.sentOffset }
    let s :=
      if fin then { s with finSent := true, state := .dataSent }
      else if s.state = .ready ∧ 0 < take then { s with state := .send }
      else s
    (some ⟨offset, take, fin⟩, s.pushSent ⟨offset, bytes, fin⟩, out)

/-- PTO: queue every chunk in flight for retransmission, except what was acknowledged. -/
def requeueAllSent (s : SendStream) : SendStream :=
  { s with
    rtxQueue := s.rtxQueue ++
      s.sentChunks.filter (fun c => !s.chunkAcked c.off c.bytes.length c.fin)
    sentChunks := []
    sentSorted := true }

/-- Drop everything buffered and queue a RESET_STREAM. -/
def enterReset (s : SendStream) (code : Nat) : SendStream :=
  { s with
    writeBuf := []
    rtxQueue := []
    sentChunks := []
    sentSorted := true
    resetCode := some code
    resetPending := true
    state := .resetSent }

theorem enqueue_cases (s : SendStream) (data : List UInt8) :
    s.enqueue data = (0, s) ∨ ∃ n, n ≤ data.length ∧
      s.sentOffset + s.writeBuf.length + n ≤ s.peerMaxData ∧ (s.state = .ready ∨ s.state = .send) ∧
      s.enqueue data = (n, { s with writeBuf := s.writeBuf ++ data.take n, state := .send }) := by
  unfold enqueue
  by_cases hst : s.state ≠ .ready ∧ s.state ≠ .send
  · exact .inl (if_pos hst)
  rw [if_neg hst]
  have hopen : s.state = .ready ∨ s.state = .send := by
    by_cases h : s.state = .ready
    · exact .inl h
    · exact .inr (by_contra fun h' => hst ⟨h,h'⟩)
  simp only [availableCredit]
  by_cases hzero : min (s.peerMaxData - s.sentOffset - s.writeBuf.length) data.length = 0
  · exact .inl (if_pos hzero)
  · refine .inr ⟨min (s.peerMaxData - s.sentOffset - s.writeBuf.length) data.length,
      Nat.min_le_right _ _,by omega,hopen,(if_neg hzero).trans ?_⟩
    rcases hopen with h | h
    · simp [h]
    · simp only [h]
      rfl

/-- The chunk a carve takes, and the fields it leaves. -/
theorem carveFrame_cases (s : SendStream) (id cap : Nat) (out : List UInt8) :
    (s.hasOutbound = false ∧ s.carveFrame id cap out = (none, s, out)) ∨
    ∃ take fin, s.hasOutbound = true ∧ take = min cap s.writeBuf.length ∧
      (fin = true ↔ s.finOffset = some (s.writeOff + take) ∧ take = s.writeBuf.length ∧
        s.finSent = false) ∧
      s.carveFrame id cap out =
        (some ⟨s.writeOff, take, fin⟩,
          { s with
            writeBuf := s.writeBuf.drop take
            writeOff := s.writeOff + take
            sentOffset := max s.sentOffset (s.writeOff + take)
            finSent := s.finSent || fin
            state := if fin then .dataSent
              else if s.state = SendState.ready ∧ 0 < take then .send else s.state }.pushSent
            ⟨s.writeOff,s.writeBuf.take take,fin⟩,
          encodeStreamHeader out id s.writeOff take fin ++ s.writeBuf.take take) := by
  unfold carveFrame
  cases hout : s.hasOutbound with
  | false => exact .inl ⟨rfl,rfl⟩
  | true =>
    refine .inr ⟨_,s.finOffset == some (s.writeOff + min cap s.writeBuf.length) &&
      min cap s.writeBuf.length == s.writeBuf.length && !s.finSent,rfl,rfl,?_,?_⟩
    · simp [and_assoc]
    · have hmax : (if s.sentOffset < s.writeOff + min cap s.writeBuf.length then
          s.writeOff + min cap s.writeBuf.length else s.sentOffset) =
            max s.sentOffset (s.writeOff + min cap s.writeBuf.length) := by
        split_ifs <;> omega
      simp only [Bool.not_true,Bool.false_eq_true,if_false,hmax]
      cases s.finOffset == some (s.writeOff + min cap s.writeBuf.length) &&
          min cap s.writeBuf.length == s.writeBuf.length && !s.finSent with
      | true => simp
      | false =>
        simp only [Bool.false_eq_true,if_false,Bool.or_false]
        by_cases hready : s.state = .ready ∧ 0 < min cap s.writeBuf.length
        · simp only [if_pos hready]
        · simp only [if_neg hready]
end SendStream
end PureCrypto.Quic
