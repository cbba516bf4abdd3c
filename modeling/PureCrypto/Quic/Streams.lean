import Mathlib.Order.Interval.Finset.Nat
import PureCrypto.Quic.Frame
import PureCrypto.Quic.StreamFrames

/-!
# The stream table of a connection

`Streams` of `quic/streams.rs`: the live streams, the stream and connection credit in both
directions, and the queue of streams with something to send.  The two directions of peer-initiated
streams carry the same counters, kept in one `PeerStreams` each.

The connection's receive totals grow by final sizes the peer chooses, so their additions saturate as
in the source.  The stream counters and the send totals are plain natural numbers: they stay below a
limit that is itself a `u64`.  `History` records what has happened and is read by no operation.
-/
namespace PureCrypto.Quic
/-- The transport parameters the stream layer reads. -/
structure TransportParameters where
  initialMaxData : Option Nat
  initialMaxStreamDataBidiLocal : Option Nat
  initialMaxStreamDataBidiRemote : Option Nat
  initialMaxStreamDataUni : Option Nat
  initialMaxStreamsBidi : Option Nat
  initialMaxStreamsUni : Option Nat

/-- The same credit everywhere, and the same number of streams of either direction. -/
def TransportParameters.uniform (data streams : Nat) : TransportParameters :=
  ⟨some data, some data, some data, some data, some streams, some streams⟩

def replenishRatioNum : Nat := 1
def replenishRatioDen : Nat := 2

theorem replenishThreshold_eq (window : Nat) : window * replenishRatioNum / max replenishRatioDen 1 = window / 2 := by
  rw [replenishRatioNum,Nat.mul_one]
  rfl

/-- Floor of the cap on live streams. -/
def minLiveStreams : Nat := 4096

/-- How many final sizes of retired streams are remembered. -/
def retiredFinalSizes : Nat := 256

/-- Peer-initiated streams of one direction: `self_max_*`, `peer_*_used`, `peer_*_closed` and
`implicit_open_*`. -/
structure PeerStreams where
  selfMax : Nat
  selfMaxAnnounced : Nat
  used : Nat
  closed : Nat
  implicitOpen : Finset Nat
  window : Nat
  maxStreamsPending : Bool

structure History where
  /-- Streams that were reaped, with the state they were reaped in. -/
  retired : List (Nat × Stream)
  /-- Highest offset or final size accepted on each receive stream. -/
  accepted : SortedMap Nat Nat
  popped : List PoppedFrame

structure Streams where
  map : SortedMap Nat Stream
  peerMaxBidi : Nat
  peerMaxUni : Nat
  bidi : PeerStreams
  uni : PeerStreams
  retiredFinalSize : SortedMap Nat Nat
  nextLocalBidi : Nat
  nextLocalUni : Nat
  openedLocalBidi : Nat
  openedLocalUni : Nat
  connSendMax : Nat
  connSendUsed : Nat
  connRecvMax : Nat
  connRecvMaxAnnounced : Nat
  connRecvUsed : Nat
  connRecvWindow : Nat
  connConsumed : Nat
  streamHighOffset : SortedMap Nat Nat
  dataBlockedAt : Option Nat
  maxDataPending : Bool
  streamsBlockedBidiAt : Option Nat
  streamsBlockedUniAt : Option Nat
  readyToSend : List Nat
  readySet : Finset Nat
  readable : Finset Nat
  peerInitialMaxStreamDataBidiLocal : Nat
  peerInitialMaxStreamDataBidiRemote : Nat
  peerInitialMaxStreamDataUni : Nat
  selfInitialMaxStreamDataBidiLocal : Nat
  selfInitialMaxStreamDataBidiRemote : Nat
  selfInitialMaxStreamDataUni : Nat
  role : Role
  history : History

def PeerStreams.new (limit : Nat) : PeerStreams where
  selfMax := limit
  selfMaxAnnounced := limit
  used := 0
  closed := 0
  implicitOpen := ∅
  window := limit
  maxStreamsPending := false

/-- `maybe_replenish_streams` on the counters of one direction. -/
def PeerStreams.maybeReplenish (p : PeerStreams) : PeerStreams :=
  if p.window = 0 then p
  else
    let threshold := p.window * replenishRatioNum / max replenishRatioDen 1
    if p.closed + threshold ≤ p.selfMaxAnnounced then p
    else
      let newMax := min (p.closed + p.window) maxStreamsLimit
      if p.selfMax < newMax then { p with selfMax := newMax, maxStreamsPending := true } else p
namespace Streams
def new (role : Role) (our peer : TransportParameters) : Streams where
  map := .empty
  peerMaxBidi := peer.initialMaxStreamsBidi.getD 0
  peerMaxUni := peer.initialMaxStreamsUni.getD 0
  bidi := .new (our.initialMaxStreamsBidi.getD 0)
  uni := .new (our.initialMaxStreamsUni.getD 0)
  retiredFinalSize := .empty
  nextLocalBidi := match role with
    | .client => 0
    | .server => 1
  nextLocalUni := match role with
    | .client => 2
    | .server => 3
  openedLocalBidi := 0
  openedLocalUni := 0
  connSendMax := peer.initialMaxData.getD 0
  connSendUsed := 0
  connRecvMax := our.initialMaxData.getD 0
  connRecvMaxAnnounced := our.initialMaxData.getD 0
  connRecvUsed := 0
  connRecvWindow := our.initialMaxData.getD 0
  connConsumed := 0
  streamHighOffset := .empty
  dataBlockedAt := none
  maxDataPending := false
  streamsBlockedBidiAt := none
  streamsBlockedUniAt := none
  readyToSend := []
  readySet := ∅
  readable := ∅
  peerInitialMaxStreamDataBidiLocal := peer.initialMaxStreamDataBidiLocal.getD 0
  peerInitialMaxStreamDataBidiRemote := peer.initialMaxStreamDataBidiRemote.getD 0
  peerInitialMaxStreamDataUni := peer.initialMaxStreamDataUni.getD 0
  selfInitialMaxStreamDataBidiLocal := our.initialMaxStreamDataBidiLocal.getD 0
  selfInitialMaxStreamDataBidiRemote := our.initialMaxStreamDataBidiRemote.getD 0
  selfInitialMaxStreamDataUni := our.initialMaxStreamDataUni.getD 0
  role := role
  history := ⟨[], .empty, []⟩

def peerStreams (s : Streams) : StreamDir → PeerStreams
  | .bidi => s.bidi
  | .uni => s.uni

def setPeerStreams (s : Streams) (dir : StreamDir) (p : PeerStreams) : Streams :=
  match dir with
  | .bidi => { s with bidi := p }
  | .uni => { s with uni := p }
section SetPeerStreams
variable (s : Streams) (dir : StreamDir) (p : PeerStreams)
@[simp] theorem peerStreams_setPeerStreams_self : (s.setPeerStreams dir p).peerStreams dir = p := by
  cases dir <;> rfl

theorem peerStreams_setPeerStreams_ne {dir' : StreamDir} (h : dir' ≠ dir) :
    (s.setPeerStreams dir p).peerStreams dir' = s.peerStreams dir' := by
  cases dir <;> cases dir' <;> first | rfl | exact absurd rfl h
@[simp] theorem map_setPeerStreams : (s.setPeerStreams dir p).map = s.map := by cases dir <;> rfl
@[simp] theorem role_setPeerStreams : (s.setPeerStreams dir p).role = s.role := by
  cases dir <;> rfl

@[simp] theorem history_setPeerStreams : (s.setPeerStreams dir p).history = s.history := by
  cases dir <;> rfl
end SetPeerStreams
def sendHalf (s : Streams) (id : Nat) : Option SendStream := (s.map.get? id).bind Stream.send

def recvHalf (s : Streams) (id : Nat) : Option RecvStream := (s.map.get? id).bind Stream.recv
def setStream (s : Streams) (id : Nat) (stream : Stream) : Streams :=
  { s with map := s.map.modify id (fun _ => stream) }
def setSend (s : Streams) (id : Nat) (send : SendStream) : Streams :=
  { s with map := s.map.modify id (fun stream => { stream with send := some send }) }

def setRecv (s : Streams) (id : Nat) (recv : RecvStream) : Streams :=
  { s with map := s.map.modify id (fun stream => { stream with recv := some recv }) }
variable {s : Streams} {id : Nat}
theorem sendHalf_eq_some_iff {send : SendStream} :
    s.sendHalf id = some send ↔ ∃ stream, s.map.get? id = some stream ∧ stream.send = some send :=
  Option.bind_eq_some_iff

theorem recvHalf_eq_some_iff {recv : RecvStream} :
    s.recvHalf id = some recv ↔ ∃ stream, s.map.get? id = some stream ∧ stream.recv = some recv :=
  Option.bind_eq_some_iff

private theorem setStream_eq {stream : Stream} (f : Stream → Stream) (h : s.map.get? id = some stream) :
    s.setStream id (f stream) = { s with map := s.map.modify id f } := by
  have hmap : s.map.modify id (fun _ => f stream) = s.map.modify id f := by
    apply s.map.modify_congr
    intro v hv
    cases h.symm.trans hv
    rfl
  rw [setStream,hmap]

theorem setStream_send {stream : Stream} (send : SendStream) (h : s.map.get? id = some stream) :
    s.setStream id { stream with send := some send } = s.setSend id send :=
  setStream_eq ({ · with send := some send }) h
theorem setStream_recv {stream : Stream} (recv : RecvStream) (h : s.map.get? id = some stream) :
    s.setStream id { stream with recv := some recv } = s.setRecv id recv :=
  setStream_eq ({ · with recv := some recv }) h

theorem setRecv_self {recv : RecvStream} (h : s.recvHalf id = some recv) : s.setRecv id recv = s := by
  obtain ⟨stream,hget,hrecv⟩ := recvHalf_eq_some_iff.mp h
  have hmap : s.map.modify id (fun stream => { stream with recv := some recv }) = s.map := by
    apply s.map.modify_eq_self
    intro v hv
    cases hget.symm.trans hv
    rw [← hrecv]
  rw [setRecv,hmap]

/-- The direction bit of a stream identifier. -/
def dirOf (id : Nat) : StreamDir := if StreamId.isBidi id then .bidi else .uni

def isPeerInitiated (s : Streams) (id : Nat) : Bool :=
  match s.role with
  | .client => StreamId.isServerInitiated id
  | .server => StreamId.isClientInitiated id

def notePopped (s : Streams) (frame : PoppedFrame) : Streams :=
  { s with history := { s.history with popped := frame :: s.history.popped } }

/-- Record that everything up to `high` was accepted on stream `id`. -/
def noteAccepted (s : Streams) (id high : Nat) : Streams :=
  { s with history := { s.history with
    accepted := s.history.accepted.insert id (max ((s.history.accepted.get? id).getD 0) high) } }

def enqueueReady (s : Streams) (id : Nat) : Streams :=
  if id ∈ s.readySet then s
  else { s with readySet := insert id s.readySet, readyToSend := s.readyToSend ++ [id] }
def refreshReadable (s : Streams) (id : Nat) : Streams :=
  if (s.recvHalf id).any RecvStream.isReadable then { s with readable := insert id s.readable }
  else { s with readable := s.readable.erase id }

def maybeReplenishConn (s : Streams) : Streams :=
  let window := s.connRecvWindow
  if window = 0 then s
  else
    let threshold := window * replenishRatioNum / max replenishRatioDen 1
    if s.connRecvMaxAnnounced < wrappingAdd s.connConsumed threshold then
      let newMax := saturatingAdd s.connConsumed window
      if s.connRecvMax < newMax then { s with connRecvMax := newMax, maxDataPending := true }
      else s
    else s

def maybeReplenishStreams (s : Streams) (dir : StreamDir) : Streams :=
  s.setPeerStreams dir (s.peerStreams dir).maybeReplenish

/-- The cap on live streams: never below the advertised windows. -/
def liveStreamCap (s : Streams) : Nat :=
  max (saturatingAdd s.bidi.window s.uni.window) minLiveStreams

/-- Remember a retired stream's final size, forgetting the oldest identifiers. -/
def noteRetiredSize (sizes : SortedMap Nat Nat) (id high : Nat) : SortedMap Nat Nat :=
  let sizes := sizes.insert id high
  ⟨sizes.entries.drop (sizes.length - retiredFinalSizes), sizes.sorted.drop⟩

/-- Nothing is left to send, to read or to be acknowledged on this stream. -/
def isTerminal (stream : Stream) : Bool :=
  !streamNeedsToSend stream && stream.recv.all RecvStream.isFinished
    && stream.send.all SendStream.isFinished

/-- The final size to remember of a stream that is retired. -/
def retiredHigh (s : Streams) (id : Nat) (stream : Stream) : Nat :=
  let high := match stream.recv with
    | some recv => recv.finOffset.getD recv.nextOffset
    | none => 0
  max high ((s.streamHighOffset.get? id).getD 0)

/-- Drop a stream from the table and count it as closed. -/
def retire (s : Streams) (id : Nat) (stream : Stream) : Streams :=
  let p := s.peerStreams (dirOf id)
  { s with
    retiredFinalSize := noteRetiredSize s.retiredFinalSize id (s.retiredHigh id stream)
    streamHighOffset := s.streamHighOffset.erase id
    map := s.map.erase id
    readable := s.readable.erase id
    readySet := s.readySet.erase id
    readyToSend := if id ∈ s.readySet then s.readyToSend.filter (· ≠ id) else s.readyToSend
    history := { s.history with retired := (id, stream) :: s.history.retired } }.setPeerStreams
      (dirOf id) { p with closed := p.closed + 1 }

/-- Retire a peer-initiated stream that has reached its end. -/
def reapIfTerminal (s : Streams) (id : Nat) : Streams :=
  if !s.isPeerInitiated id then s
  else
    match s.map.get? id with
    | none => s
    | some stream =>
      if isTerminal stream then (s.retire id stream).maybeReplenishStreams (dirOf id) else s

/-- A fresh stream of the peer, with the credit both sides start with. -/
def newRemote (s : Streams) (id : Nat) : Stream :=
  match dirOf id with
  | .bidi => .newBidi s.peerInitialMaxStreamDataBidiLocal s.selfInitialMaxStreamDataBidiRemote
  | .uni => .newRecv s.selfInitialMaxStreamDataUni

/-- Open the peer's stream `id`, and implicitly every unused one below it. -/
def openRemote (s : Streams) (id : Nat) : Streams :=
  let ordinal := id / 4
  let p := s.peerStreams (dirOf id)
  { s with map := s.map.insert id (s.newRemote id) }.setPeerStreams (dirOf id)
    { p with
      implicitOpen := (p.implicitOpen ∪ Finset.Ico (min p.used ordinal) ordinal).erase ordinal
      used := max p.used (ordinal + 1) }

/-- `false` means the stream was retired and the frame is to be ignored. -/
def ensureRemoteStreamExists (s : Streams) (id : Nat) : Except StreamError Bool × Streams :=
  if s.map.contains id then (.ok true, s)
  else if !s.isPeerInitiated id then (.error .streamState, s)
  else
    let ordinal := id / 4
    let p := s.peerStreams (dirOf id)
    if ordinal < p.used ∧ ordinal ∉ p.implicitOpen then (.ok false, s)
    else if s.liveStreamCap ≤ s.map.length then (.error .streamLimit, s)
    else if p.selfMax < max p.used (ordinal + 1) then (.error .streamLimit, s)
    else (.ok true, s.openRemote id)
end Streams
end PureCrypto.Quic
