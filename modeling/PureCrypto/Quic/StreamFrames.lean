import PureCrypto.Quic.RecvStream
import PureCrypto.Quic.SendStream

/-!
# Frames one stream emits

`PoppedFrame`, `ControlHint` and `pop_stream_frame` of `quic/streams.rs`: a stream with work emits
its control frames first, then retransmissions, then fresh data.
-/
namespace PureCrypto.Quic
structure Stream where
  send : Option SendStream
  recv : Option RecvStream
namespace Stream
def newSend (peerMaxData : Nat) : Stream := ⟨some (.new peerMaxData), none⟩

def newRecv (maxData : Nat) : Stream := ⟨none, some (.new maxData)⟩

def newBidi (peerMaxData selfMaxData : Nat) : Stream :=
  ⟨some (.new peerMaxData), some (.new selfMaxData)⟩
end Stream
inductive PoppedFrame
  | stream (id offset len : Nat) (fin : Bool)
  | resetStream (id code finalSize : Nat)
  | stopSending (id code : Nat)
  | maxData (limit : Nat)
  | maxStreamData (id limit : Nat)
  | dataBlocked (limit : Nat)
  | streamDataBlocked (id limit : Nat)
  | maxStreams (dir : StreamDir) (limit : Nat)
  | streamsBlocked (dir : StreamDir) (limit : Nat)
deriving DecidableEq

/-- What the connection remembers of a control frame, to report it acknowledged or lost. -/
inductive ControlHint
  | resetStream (id : Nat)
  | stopSending (id code : Nat)
  | maxData (limit : Nat)
  | maxStreamData (id limit : Nat)
  | dataBlocked (limit : Nat)
  | streamDataBlocked (id limit : Nat)
  | maxStreams (dir : StreamDir) (limit : Nat)
  | streamsBlocked (dir : StreamDir) (limit : Nat)
deriving DecidableEq
namespace PoppedFrame
/-- Append the frame.  A STREAM frame is already there: carving it wrote it. -/
def encode (frame : PoppedFrame) (out : List UInt8) : List UInt8 :=
  match frame with
  | .stream _ _ _ _ => out
  | .resetStream id code finalSize =>
    Varint.encode finalSize (Varint.encode code (Varint.encode id (out ++ [0x04])))
  | .stopSending id code => Varint.encode code (Varint.encode id (out ++ [0x05]))
  | .maxData limit => Varint.encode limit (out ++ [0x10])
  | .maxStreamData id limit => Varint.encode limit (Varint.encode id (out ++ [0x11]))
  | .maxStreams .bidi limit => Varint.encode limit (out ++ [0x12])
  | .maxStreams .uni limit => Varint.encode limit (out ++ [0x13])
  | .dataBlocked limit => Varint.encode limit (out ++ [0x14])
  | .streamDataBlocked id limit => Varint.encode limit (Varint.encode id (out ++ [0x15]))
  | .streamsBlocked .bidi limit => Varint.encode limit (out ++ [0x16])
  | .streamsBlocked .uni limit => Varint.encode limit (out ++ [0x17])

def encodedLen : PoppedFrame → Nat
  | .stream id offset len _ =>
    1 + Varint.encodedLen id + (if offset ≠ 0 then Varint.encodedLen offset else 0)
      + Varint.encodedLen len + len
  | .resetStream id code finalSize =>
    1 + Varint.encodedLen id + Varint.encodedLen code + Varint.encodedLen finalSize
  | .stopSending id code => 1 + Varint.encodedLen id + Varint.encodedLen code
  | .maxData limit => 1 + Varint.encodedLen limit
  | .dataBlocked limit => 1 + Varint.encodedLen limit
  | .maxStreamData id limit => 1 + Varint.encodedLen id + Varint.encodedLen limit
  | .streamDataBlocked id limit => 1 + Varint.encodedLen id + Varint.encodedLen limit
  | .maxStreams _ limit => 1 + Varint.encodedLen limit
  | .streamsBlocked _ limit => 1 + Varint.encodedLen limit

def controlHint : PoppedFrame → Option ControlHint
  | .stream _ _ _ _ => none
  | .resetStream id _ _ => some (.resetStream id)
  | .stopSending id code => some (.stopSending id code)
  | .maxData limit => some (.maxData limit)
  | .maxStreamData id limit => some (.maxStreamData id limit)
  | .dataBlocked limit => some (.dataBlocked limit)
  | .streamDataBlocked id limit => some (.streamDataBlocked id limit)
  | .maxStreams dir limit => some (.maxStreams dir limit)
  | .streamsBlocked dir limit => some (.streamsBlocked dir limit)
end PoppedFrame
/-- A stream half has something for the packer. -/
def SendStream.needsToSend (send : SendStream) : Bool :=
  send.resetPending || send.hasOutbound || send.blockedAt.isSome

@[inherit_doc SendStream.needsToSend]
def RecvStream.needsToSend (recv : RecvStream) : Bool :=
  recv.maxDataPending || recv.stopSendingPending.isSome

def streamNeedsToSend (stream : Stream) : Bool :=
  stream.send.any SendStream.needsToSend || stream.recv.any RecvStream.needsToSend

inductive StreamPop
  /-- A frame was written; `more` tells whether the stream has more to send. -/
  | frame (frame : PoppedFrame) (more : Bool)
  | noRoom
  | idle

/-- A control frame goes out if it fits, and leaves `stream'`. -/
def popControl (frame : PoppedFrame) (stream stream' : Stream) (budget : Nat) (out : List UInt8) :
    StreamPop × Stream × List UInt8 :=
  if budget < frame.encodedLen then (.noRoom, stream, out)
  else (.frame frame (streamNeedsToSend stream'), stream', frame.encode out)

/-- Bytes of a STREAM frame header before its length field. -/
def headerOverhead (id offset : Nat) : Nat :=
  1 + Varint.encodedLen id + (if 0 < offset then Varint.encodedLen offset else 0)

def StreamFrame.popped (id : Nat) (frame : StreamFrame) : PoppedFrame :=
  .stream id frame.offset frame.len frame.fin

def popRetransmission (stream : Stream) (send : SendStream) (id rOff rLen budget : Nat)
    (out : List UInt8) : StreamPop × Stream × List UInt8 :=
  let overhead := headerOverhead id rOff + Varint.encodedLen rLen
  let minPayload := if 0 < rLen then 1 else 0
  if budget < overhead + minPayload then (.noRoom, stream, out)
  else
    match send.popRtxFrame id (budget - overhead) out with
    | (some frame, send, out) =>
      let stream := { stream with send := some send }
      (.frame (frame.popped id) (streamNeedsToSend stream), stream, out)
    | (none, _, out) => (.idle, stream, out)

def popFresh (stream : Stream) (send : SendStream) (id budget : Nat) (out : List UInt8) :
    StreamPop × Stream × List UInt8 :=
  let overhead := headerOverhead id send.writeOff + Varint.encodedLen send.writeBuf.length
  if budget < overhead + 1 then (.noRoom, stream, out)
  else
    let chunkSize := min (budget - overhead) send.writeBuf.length
    if chunkSize = 0 then
      if send.finOffset.isSome ∧ !send.finSent ∧ send.writeBuf.isEmpty ∧
          headerOverhead id send.writeOff + Varint.encodedLen 0 ≤ budget then
        match send.carveFrame id 0 out with
        | (some frame, send, out) =>
          (.frame (.stream id frame.offset 0 frame.fin) false, { stream with send := some send }, out)
        | (none, _, out) => (.idle, stream, out)
      else (.noRoom, stream, out)
    else
      match send.carveFrame id chunkSize out with
      | (some frame, send, out) =>
        (.frame (frame.popped id) send.hasOutbound, { stream with send := some send }, out)
      | (none, _, out) => (.idle, stream, out)

def popStreamFrame (stream : Stream) (id budget : Nat) (out : List UInt8) :
    StreamPop × Stream × List UInt8 :=
  match stream.send.filter (fun send => send.resetPending) with
  | some send =>
    popControl (.resetStream id (send.resetCode.getD 0) send.sentOffset) stream
      { stream with send := some { send with resetPending := false } } budget out
  | none =>
  match stream.recv.bind (fun recv => recv.stopSendingPending.map (recv, ·)) with
  | some (recv, code) =>
    popControl (.stopSending id code) stream
      { stream with recv := some { recv with stopSendingPending := none } } budget out
  | none =>
  match stream.recv.filter (fun recv => recv.maxDataPending) with
  | some recv =>
    popControl (.maxStreamData id recv.maxData) stream
      { stream with recv := some { recv with
        maxDataPending := false
        maxDataAnnounced := recv.maxData } } budget out
  | none =>
  match stream.send.bind (fun send => send.blockedAt.map (send, ·)) with
  | some (send, lim) =>
    popControl (.streamDataBlocked id lim) stream
      { stream with send := some { send with blockedAt := none } } budget out
  | none =>
  match stream.send.bind (fun send => send.peekRtx.map (send, ·)) with
  | some (send, rOff, rLen) => popRetransmission stream send id rOff rLen budget out
  | none =>
  match stream.send.filter (fun send => send.hasOutbound) with
  | some send => popFresh stream send id budget out
  | none => (.idle, stream, out)
end PureCrypto.Quic
