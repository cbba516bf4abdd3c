import PureCrypto.Quic.Streams

/-!
# Operations of the stream table

The application's calls, the peer's frames and the packer's and loss recovery's calls of
`quic/streams.rs`, and the runs they make up.
-/
namespace PureCrypto.Quic
namespace Streams
def openBidi (s : Streams) : Except Error Nat × Streams :=
  if s.peerMaxBidi ≤ s.openedLocalBidi then
    (.error .inappropriateState, { s with streamsBlockedBidiAt := some s.peerMaxBidi })
  else
    let id := s.nextLocalBidi
    (.ok id, { s with
      map := s.map.insert id
        (.newBidi s.peerInitialMaxStreamDataBidiRemote s.selfInitialMaxStreamDataBidiLocal)
      nextLocalBidi := s.nextLocalBidi + 4
      openedLocalBidi := s.openedLocalBidi + 1 })

def openUni (s : Streams) : Except Error Nat × Streams :=
  if s.peerMaxUni ≤ s.openedLocalUni then
    (.error .inappropriateState, { s with streamsBlockedUniAt := some s.peerMaxUni })
  else
    let id := s.nextLocalUni
    (.ok id, { s with
      map := s.map.insert id (.newSend s.peerInitialMaxStreamDataUni)
      nextLocalUni := s.nextLocalUni + 4
      openedLocalUni := s.openedLocalUni + 1 })

def write (s : Streams) (id : Nat) (data : List UInt8) : Except Error Nat × Streams :=
  match s.sendHalf id with
  | none => (.error .inappropriateState, s)
  | some send =>
    if (send.state ≠ .ready ∧ send.state ≠ .send) ∨ send.finOffset.isSome then
      (.error .inappropriateState, s)
    else
      let connRoom := s.connSendMax - s.connSendUsed
      let cap := min connRoom data.length
      if cap = 0 then
        let s := if connRoom = 0 then { s with dataBlockedAt := some s.connSendMax } else s
        if send.availableCredit = 0 then
          (.ok 0, (s.setSend id { send with blockedAt := some send.peerMaxData }).enqueueReady id)
        else (.ok 0, s)
      else
        let (streamTake, send) := send.enqueue (data.take cap)
        if streamTake = 0 then
          (.ok 0, (s.setSend id { send with blockedAt := some send.peerMaxData }).enqueueReady id)
        else
          let s := { s with connSendUsed := s.connSendUsed + streamTake }
          let s := if cap < data.length ∧ connRoom = cap then
            { s with dataBlockedAt := some s.connSendMax } else s
          let send := if streamTake < cap then
            { send with blockedAt := some send.peerMaxData } else send
          (.ok streamTake, (s.setSend id send).enqueueReady id)

def finish (s : Streams) (id : Nat) : Except Error Unit × Streams :=
  match s.sendHalf id with
  | none => (.error .inappropriateState, s)
  | some send =>
    if send.state = .resetSent ∨ send.state = .resetRecvd then (.error .inappropriateState, s)
    else (.ok (), (s.setSend id send.finish).enqueueReady id)

def reset (s : Streams) (id appError : Nat) : Except Error Unit × Streams :=
  match s.sendHalf id with
  | none => (.error .inappropriateState, s)
  | some send => (.ok (), (s.setSend id (send.enterReset appError)).enqueueReady id)

def stopSending (s : Streams) (id appError : Nat) : Except Error Unit × Streams :=
  match s.recvHalf id with
  | none => (.error .inappropriateState, s)
  | some recv =>
    (.ok (), (s.setRecv id { recv with
      stopSendingSent := true
      stopSendingPending := some appError }).enqueueReady id)

/-- Raise the limit once the bytes read come within half a window of what was announced. -/
def replenishStream (recv : RecvStream) : RecvStream :=
  if 0 < recv.window ∧ !recv.isReset then
    let threshold := recv.window * replenishRatioNum / max replenishRatioDen 1
    if recv.maxDataAnnounced < wrappingAdd recv.readOff threshold then
      let newMax := saturatingAdd recv.readOff recv.window
      if recv.maxData < newMax then { recv with maxData := newMax, maxDataPending := true }
      else recv
    else recv
  else recv

/-- Count `n` bytes as consumed, and grant the peer as many if it is time to. -/
def consume (s : Streams) (n : Nat) : Streams :=
  { s with connConsumed := saturatingAdd s.connConsumed n }.maybeReplenishConn

def credit (recv : RecvStream) (n : Nat) : RecvStream :=
  { recv with connFcCredited := saturatingAdd recv.connFcCredited n }

def read (s : Streams) (id len : Nat) : Except Error (List UInt8 × Bool) × Streams :=
  match s.recvHalf id with
  | none => (.error .inappropriateState, s)
  | some recv =>
    let ((bytes, fin), recv) := recv.ackReset.read len
    let recv := credit recv bytes.length
    let recv' := replenishStream recv
    let s := if recv.maxData < recv'.maxData then s.enqueueReady id else s
    let s := (s.setRecv id recv').consume bytes.length
    (.ok (bytes, fin), (s.refreshReadable id).reapIfTerminal id)

/-- Charge `[0, high)` of stream `id` to the connection: `newHigh` bytes more than before. -/
def charge (s : Streams) (id high newHigh : Nat) : Streams :=
  if 0 < newHigh then
    { s.noteAccepted id high with
      connRecvUsed := saturatingAdd s.connRecvUsed newHigh
      streamHighOffset := s.streamHighOffset.insert id high }
  else s.noteAccepted id high

/-- `recv` is charged up to `frameEnd`; an abandoned stream is credited back at once. -/
def acceptFrame (s : Streams) (id frameEnd newHigh : Nat) (recv : RecvStream) : Streams :=
  let s := s.charge id frameEnd newHigh
  if recv.stopSendingSent ∧ 0 < newHigh then
    (s.setRecv id (credit recv newHigh)).consume newHigh
  else s.setRecv id recv

/-- The final size is charged like data, and what was not credited yet is credited back. -/
def acceptReset (s : Streams) (id finalSize newHigh : Nat) (alreadyReset : Bool)
    (recv : RecvStream) : Streams :=
  let discarded := if alreadyReset then 0 else finalSize - recv.connFcCredited
  let s := (s.charge id finalSize newHigh).setRecv id (credit recv discarded)
  if alreadyReset then s else s.consume discarded

/-- The charge is decided first and committed once the stream has accepted the frame. -/
def onStreamLive (s : Streams) (id offset : Nat) (fin : Bool) (data : List UInt8) :
    Except StreamError Unit × Streams :=
  let frameEnd := saturatingAdd offset data.length
  let prevHigh := (s.streamHighOffset.get? id).getD 0
  let newHigh := frameEnd - prevHigh
  let projected := saturatingAdd s.connRecvUsed newHigh
  if 0 < newHigh ∧ s.connRecvMax < projected then (.error .flowControl, s)
  else
    match s.recvHalf id with
    | none => (.error .streamState, s)
    | some recv =>
      match recv.onData offset data fin with
      | (.error e, recv) => (.error e, s.setRecv id recv)
      | (.ok _, recv) =>
        let s := s.acceptFrame id frameEnd newHigh recv
        (.ok (), (s.refreshReadable id).reapIfTerminal id)

def onStream (s : Streams) (id offset : Nat) (fin : Bool) (data : List UInt8) :
    Except StreamError Unit × Streams :=
  match s.ensureRemoteStreamExists id with
  | (.error e, s) => (.error e, s)
  | (.ok false, s) =>
    let frameEnd := saturatingAdd offset data.length
    if (s.retiredFinalSize.get? id).any (fun high => high < frameEnd) then (.error .finalSize, s)
    else (.ok (), s)
  | (.ok true, s) => s.onStreamLive id offset fin data

def onResetLive (s : Streams) (id appError finalSize : Nat) : Except StreamError Unit × Streams :=
  let prevHigh := (s.streamHighOffset.get? id).getD 0
  if finalSize < prevHigh then (.error .finalSize, s)
  else
    let newHigh := finalSize - prevHigh
    let projected := saturatingAdd s.connRecvUsed newHigh
    if s.connRecvMax < projected then (.error .flowControl, s)
    else
      match s.recvHalf id with
      | none => (.error .streamState, s)
      | some recv =>
        let alreadyReset := recv.isReset
        match recv.onReset appError finalSize with
        | (.error e, recv) => (.error e, s.setRecv id recv)
        | (.ok (), recv) =>
          let s := s.acceptReset id finalSize newHigh alreadyReset recv
          (.ok (), (s.refreshReadable id).reapIfTerminal id)

def onReset (s : Streams) (id appError finalSize : Nat) : Except StreamError Unit × Streams :=
  match s.ensureRemoteStreamExists id with
  | (.error e, s) => (.error e, s)
  | (.ok false, s) => (.ok (), s)
  | (.ok true, s) => s.onResetLive id appError finalSize

def rejectSendHalfFrameOnPeerUni (s : Streams) (id : Nat) : Bool :=
  StreamId.isUni id && s.isPeerInitiated id

/-- A frame about our send half: `act` runs on it once the stream is known to exist. -/
def onSendHalfFrame (s : Streams) (id : Nat) (act : Streams → SendStream → Streams) :
    Except StreamError Unit × Streams :=
  if s.rejectSendHalfFrameOnPeerUni id then (.error .streamState, s)
  else
    match s.ensureRemoteStreamExists id with
    | (.error e, s) => (.error e, s)
    | (.ok false, s) => (.ok (), s)
    | (.ok true, s) =>
      match s.sendHalf id with
      | none => (.error .streamState, s)
      | some send => (.ok (), act s send)

def onStopSending (s : Streams) (id appError : Nat) : Except StreamError Unit × Streams :=
  s.onSendHalfFrame id (fun s send => (s.setSend id (send.enterReset appError)).enqueueReady id)

def onMaxStreamData (s : Streams) (id limit : Nat) : Except StreamError Unit × Streams :=
  s.onSendHalfFrame id (fun s send =>
    if send.peerMaxData < limit then
      s.setSend id { send with
        peerMaxData := limit
        blockedAt := send.blockedAt.filter (fun prev => limit ≤ prev) }
    else s)

def onMaxData (s : Streams) (limit : Nat) : Streams :=
  if s.connSendMax < limit then { s with
    connSendMax := limit
    dataBlockedAt := s.dataBlockedAt.filter (fun prev => limit ≤ prev) }
  else s

def onDataBlocked (s : Streams) (limit : Nat) : Streams :=
  if limit < s.connRecvMax then { s with maxDataPending := true } else s

def onStreamDataBlocked (s : Streams) (id limit : Nat) : Streams :=
  match s.recvHalf id with
  | none => s
  | some recv =>
    if limit < recv.maxData then
      (s.setRecv id { recv with maxDataPending := true }).enqueueReady id
    else s

def onMaxStreams (s : Streams) (dir : StreamDir) (limit : Nat) : Streams :=
  match dir with
  | .bidi =>
    if s.peerMaxBidi < limit then { s with
      peerMaxBidi := limit
      streamsBlockedBidiAt := s.streamsBlockedBidiAt.filter (fun prev => limit ≤ prev) }
    else s
  | .uni =>
    if s.peerMaxUni < limit then { s with
      peerMaxUni := limit
      streamsBlockedUniAt := s.streamsBlockedUniAt.filter (fun prev => limit ≤ prev) }
    else s

/-- A connection-level frame that is due goes out if it fits, leaving `s'`. -/
def popDue (due : Bool) (frame : PoppedFrame) (s' : Streams) (budget : Nat) :
    Option (PoppedFrame × Streams) :=
  if due && frame.encodedLen ≤ budget then some (frame, s') else none

/-- The connection-level frames, in the order they are tried. -/
def popConnFrame (s : Streams) (budget : Nat) : Option (PoppedFrame × Streams) :=
  popDue s.maxDataPending (.maxData s.connRecvMax)
    { s with maxDataPending := false, connRecvMaxAnnounced := s.connRecvMax } budget
  <|> popDue s.bidi.maxStreamsPending (.maxStreams .bidi s.bidi.selfMax)
    { s with bidi := { s.bidi with
      maxStreamsPending := false
      selfMaxAnnounced := s.bidi.selfMax } } budget
  <|> popDue s.uni.maxStreamsPending (.maxStreams .uni s.uni.selfMax)
    { s with uni := { s.uni with
      maxStreamsPending := false
      selfMaxAnnounced := s.uni.selfMax } } budget
  <|> popDue s.dataBlockedAt.isSome (.dataBlocked (s.dataBlockedAt.getD 0))
    { s with dataBlockedAt := none } budget
  <|> popDue s.streamsBlockedBidiAt.isSome (.streamsBlocked .bidi (s.streamsBlockedBidiAt.getD 0))
    { s with streamsBlockedBidiAt := none } budget
  <|> popDue s.streamsBlockedUniAt.isSome (.streamsBlocked .uni (s.streamsBlockedUniAt.getD 0))
    { s with streamsBlockedUniAt := none } budget

/-- Take the front stream off the queue; `rest` is what remains. -/
def dequeue (s : Streams) (id : Nat) (rest : List Nat) : Streams :=
  { s with readyToSend := rest, readySet := s.readySet.erase id }

def popReady (budget : Nat) (out : List UInt8) :
    Nat → Streams → Option PoppedFrame × Streams × List UInt8
  | 0, s => (none, s, out)
  | n + 1, s =>
    match s.readyToSend with
    | [] => (none, s, out)
    | id :: rest =>
      let s := s.dequeue id rest
      match s.map.get? id with
      | none => popReady budget out n s
      | some stream =>
        match popStreamFrame stream id budget out with
        | (.frame frame more, stream, out) =>
          let s := s.setStream id stream
          let s := if more then s.enqueueReady id else s
          (some frame, s.notePopped frame, out)
        | (.noRoom, _, _) => popReady budget out n (s.enqueueReady id)
        | (.idle, _, _) => popReady budget out n s

def popFrameInto (s : Streams) (budget : Nat) (out : List UInt8) :
    Option PoppedFrame × Streams × List UInt8 :=
  match s.popConnFrame budget with
  | some (frame, s) => (some frame, s.notePopped frame, frame.encode out)
  | none => popReady budget out s.readyToSend.length s

def onChunkAcked (s : Streams) (id offset len : Nat) (fin : Bool) : Streams :=
  let s := match s.sendHalf id with
    | some send => s.setSend id (send.onRangeAcked offset len fin)
    | none => s
  s.reapIfTerminal id

def onChunkLost (s : Streams) (id offset len : Nat) (fin : Bool) : Streams :=
  match s.sendHalf id with
  | some send =>
    let (moved, send) := send.onRangeLost offset len fin
    if moved then (s.setSend id send).enqueueReady id else s.setSend id send
  | none => s

def onControlLost (s : Streams) : ControlHint → Streams
  | .resetStream id =>
    match s.sendHalf id with
    | some send =>
      let (queued, send) := send.onResetLost
      if queued then (s.setSend id send).enqueueReady id else s.setSend id send
    | none => s
  | .stopSending id code =>
    match s.recvHalf id with
    | some recv =>
      if recv.stopSendingSent ∧ (recv.state = .recv ∨ recv.state = .sizeKnown) then
        (s.setRecv id { recv with stopSendingPending := some code }).enqueueReady id
      else s
    | none => s
  | .maxData limit =>
    if s.connRecvMaxAnnounced = limit then { s with maxDataPending := true } else s
  | .maxStreamData id limit =>
    match s.recvHalf id with
    | some recv =>
      if recv.maxDataAnnounced = limit ∧ recv.state = .recv then
        (s.setRecv id { recv with maxDataPending := true }).enqueueReady id
      else s
    | none => s
  | .dataBlocked limit =>
    if s.connSendMax = limit ∧ limit ≤ s.connSendUsed then
      { s with dataBlockedAt := some limit }
    else s
  | .streamDataBlocked id limit =>
    match s.sendHalf id with
    | some send =>
      if send.peerMaxData = limit ∧ send.availableCredit = 0 ∧
          (send.state = .ready ∨ send.state = .send) then
        (s.setSend id { send with blockedAt := some limit }).enqueueReady id
      else s
    | none => s
  | .maxStreams dir limit =>
    let p := s.peerStreams dir
    if p.selfMaxAnnounced = limit then s.setPeerStreams dir { p with maxStreamsPending := true }
    else s
  | .streamsBlocked .bidi limit =>
    if s.peerMaxBidi = limit then { s with streamsBlockedBidiAt := some limit } else s
  | .streamsBlocked .uni limit =>
    if s.peerMaxUni = limit then { s with streamsBlockedUniAt := some limit } else s

def onControlAcked (s : Streams) (hint : ControlHint) : Streams :=
  match hint with
  | .resetStream id =>
    let s := match s.sendHalf id with
      | some send => s.setSend id send.onResetAcked
      | none => s
    s.reapIfTerminal id
  | _ => s

def requeueUnacked (s : Streams) (id : Nat) : Streams :=
  match s.sendHalf id with
  | some send =>
    if send.hasUnacked then (s.setSend id send.requeueAllSent).enqueueReady id else s
  | none => s

/-- The server rejected 0-RTT: queue everything in flight on every stream again. -/
def requeueAllUnacked (s : Streams) : Streams := s.map.keys.foldl requeueUnacked s

/-- The peer's real limits after 0-RTT; they must not be below the remembered ones. -/
def adoptPeerLimits (s : Streams) (peer : TransportParameters) : Bool × Streams :=
  let newConnMax := peer.initialMaxData.getD 0
  let newBidi := peer.initialMaxStreamsBidi.getD 0
  let newUni := peer.initialMaxStreamsUni.getD 0
  let newSdBidiLocal := peer.initialMaxStreamDataBidiLocal.getD 0
  let newSdBidiRemote := peer.initialMaxStreamDataBidiRemote.getD 0
  let newSdUni := peer.initialMaxStreamDataUni.getD 0
  if newConnMax < s.connSendMax ∨ newBidi < s.peerMaxBidi ∨ newUni < s.peerMaxUni ∨
      newSdBidiLocal < s.peerInitialMaxStreamDataBidiLocal ∨
      newSdBidiRemote < s.peerInitialMaxStreamDataBidiRemote ∨
      newSdUni < s.peerInitialMaxStreamDataUni then (false, s)
  else
    (true, { s with
      map := s.map.mapVal (fun id stream =>
        let raised := if id % 4 = 2 ∨ id % 4 = 3 then newSdUni else newSdBidiRemote
        { stream with send := stream.send.map (fun send =>
          if send.peerMaxData < raised then { send with peerMaxData := raised } else send) })
      connSendMax := newConnMax
      peerMaxBidi := newBidi
      peerMaxUni := newUni
      peerInitialMaxStreamDataBidiLocal := newSdBidiLocal
      peerInitialMaxStreamDataBidiRemote := newSdBidiRemote
      peerInitialMaxStreamDataUni := newSdUni })
end Streams
/-- A call into the stream table.  STREAMS_BLOCKED changes nothing and has no entry. -/
inductive StreamsOp
  | openBidi
  | openUni
  | write (id : Nat) (data : List UInt8)
  | finish (id : Nat)
  | reset (id appError : Nat)
  | stopSending (id appError : Nat)
  | read (id len : Nat)
  | onStream (id offset : Nat) (fin : Bool) (data : List UInt8)
  | onReset (id appError finalSize : Nat)
  | onStopSending (id appError : Nat)
  | onMaxData (limit : Nat)
  | onMaxStreamData (id limit : Nat)
  | onDataBlocked (limit : Nat)
  | onStreamDataBlocked (id limit : Nat)
  | onMaxStreams (dir : StreamDir) (limit : Nat)
  | popFrame (budget : Nat)
  | onChunkAcked (id offset len : Nat) (fin : Bool)
  | onChunkLost (id offset len : Nat) (fin : Bool)
  | onControlLost (hint : ControlHint)
  | onControlAcked (hint : ControlHint)
  | requeueAllUnacked
  | adoptPeerLimits (peer : TransportParameters)
namespace Streams
/-- The state a call leaves, whether it succeeds or not. -/
def step (s : Streams) : StreamsOp → Streams
  | .openBidi => s.openBidi.2
  | .openUni => s.openUni.2
  | .write id data => (s.write id data).2
  | .finish id => (s.finish id).2
  | .reset id appError => (s.reset id appError).2
  | .stopSending id appError => (s.stopSending id appError).2
  | .read id len => (s.read id len).2
  | .onStream id offset fin data => (s.onStream id offset fin data).2
  | .onReset id appError finalSize => (s.onReset id appError finalSize).2
  | .onStopSending id appError => (s.onStopSending id appError).2
  | .onMaxData limit => s.onMaxData limit
  | .onMaxStreamData id limit => (s.onMaxStreamData id limit).2
  | .onDataBlocked limit => s.onDataBlocked limit
  | .onStreamDataBlocked id limit => s.onStreamDataBlocked id limit
  | .onMaxStreams dir limit => s.onMaxStreams dir limit
  | .popFrame budget => (s.popFrameInto budget []).2.1
  | .onChunkAcked id offset len fin => s.onChunkAcked id offset len fin
  | .onChunkLost id offset len fin => s.onChunkLost id offset len fin
  | .onControlLost hint => s.onControlLost hint
  | .onControlAcked hint => s.onControlAcked hint
  | .requeueAllUnacked => s.requeueAllUnacked
  | .adoptPeerLimits peer => (s.adoptPeerLimits peer).2
end Streams
end PureCrypto.Quic
