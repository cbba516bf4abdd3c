import PureCrypto.Quic.StreamMoves
import PureCrypto.Quic.StreamsOps

/-!
# Changes to the stream table

Every operation is a sequence of a few kinds of changes, so an invariant is checked once per kind
of change.
-/
namespace PureCrypto.Quic
namespace Streams
def core (s : Streams) : Streams :=
  { s with
    peerMaxBidi := 0
    peerMaxUni := 0
    openedLocalBidi := 0
    openedLocalUni := 0
    connSendMax := 0
    dataBlockedAt := none
    maxDataPending := false
    streamsBlockedBidiAt := none
    streamsBlockedUniAt := none
    peerInitialMaxStreamDataBidiLocal := 0
    peerInitialMaxStreamDataBidiRemote := 0
    peerInitialMaxStreamDataUni := 0
    bidi := { s.bidi with maxStreamsPending := false }
    uni := { s.uni with maxStreamsPending := false } }

def nextLocal (s : Streams) : StreamDir → Nat
  | .bidi => s.nextLocalBidi
  | .uni => s.nextLocalUni

def insertLocal (s : Streams) (dir : StreamDir) (stream : Stream) : Streams :=
  match dir with
  | .bidi => { s with
      map := s.map.insert s.nextLocalBidi stream
      nextLocalBidi := s.nextLocalBidi + 4 }
  | .uni => { s with
      map := s.map.insert s.nextLocalUni stream
      nextLocalUni := s.nextLocalUni + 4 }

def raiseAll (s : Streams) (limit : Nat → Nat) : Streams :=
  { s with map := s.map.mapVal (fun id stream => { stream with send := stream.send.map (fun send =>
      if send.peerMaxData < limit id then { send with peerMaxData := limit id } else send) }) }
def rotate (s : Streams) (id : Nat) (rest : List Nat) : Streams :=
  { s with readyToSend := rest ++ [id], readySet := insert id s.readySet }

/-- A popped STREAM frame with the FIN belongs to a send half that has written its FIN. -/
def KnowsFin (s : Streams) (frame : PoppedFrame) : Prop :=
  ∀ id offset len, frame = .stream id offset len true →
    ∃ send, s.sendHalf id = some send ∧ send.FinKnown
end Streams
/-- A stream as it is opened. -/
inductive Stream.IsFresh : Stream → Prop
  | send (peerMaxData : Nat) : Stream.IsFresh (.newSend peerMaxData)
  | recv (maxData : Nat) : Stream.IsFresh (.newRecv maxData)
  | bidi (peerMaxData selfMaxData : Nat) : Stream.IsFresh (.newBidi peerMaxData selfMaxData)

theorem Stream.IsFresh.send_new {stream : Stream} {send : SendStream} (h : stream.IsFresh)
    (hsend : stream.send = some send) : ∃ n, send = .new n := by
  cases h with
  | send n => exact ⟨n,(Option.some.inj hsend).symm⟩
  | recv n => cases hsend
  | bidi n m => exact ⟨n,(Option.some.inj hsend).symm⟩

theorem Stream.IsFresh.recv_new {stream : Stream} {recv : RecvStream} (h : stream.IsFresh)
    (hrecv : stream.recv = some recv) : ∃ n, recv = .new n := by
  cases h with
  | send n => cases hrecv
  | recv n => exact ⟨n,(Option.some.inj hrecv).symm⟩
  | bidi n m => exact ⟨m,(Option.some.inj hrecv).symm⟩

open Streams in
/-- One change to the stream table. -/
inductive Change (g : Guard) (s : Streams) : Streams → Prop
  | admin {s' : Streams} (h : s'.core = s.core) : Change g s s'
  | announceConn : Change g s { s with connRecvMaxAnnounced := s.connRecvMax }
  | announceStreams (dir : StreamDir) : Change g s (s.setPeerStreams dir
      { s.peerStreams dir with selfMaxAnnounced := (s.peerStreams dir).selfMax })
  | note (frame : PoppedFrame) (h : s.KnowsFin frame) : Change g s (s.notePopped frame)
  | openLocal (dir : StreamDir) {stream : Stream} (h : stream.IsFresh) :
      Change g s (s.insertLocal dir stream)
  | openRemote (id : Nat) (hpeer : s.isPeerInitiated id = true) (hnew : s.map.get? id = none)
      (hopen : (s.peerStreams (dirOf id)).used ≤ id / 4 ∨
        id / 4 ∈ (s.peerStreams (dirOf id)).implicitOpen)
      (hmax : max (s.peerStreams (dirOf id)).used (id / 4 + 1) ≤
        (s.peerStreams (dirOf id)).selfMax) :
      Change g s (s.openRemote id)
  | wake (id : Nat) : Change g s (s.enqueueReady id)
  | rotate {id : Nat} {rest : List Nat} (h : s.readyToSend = id :: rest) :
      Change g s (s.rotate id rest)
  | sleep {id : Nat} {rest : List Nat} (h : s.readyToSend = rest ++ [id])
      (hidle : ∀ stream, s.map.get? id = some stream → streamNeedsToSend stream = false ∨
        ∃ send, stream.send = some send ∧ send.FinStuck) :
      Change g s (s.dequeue id rest)
  | send {id : Nat} {send send' : SendStream} {n : Nat} (hget : s.sendHalf id = some send)
      (hmove : SendMove g send send' n)
      (hready : send'.needsToSend = true → send.needsToSend = true ∨ id ∈ s.readySet) :
      Change g s ({ s with connSendUsed := s.connSendUsed + n }.setSend id send')
  | raiseAll (limit : Nat → Nat) : Change g s (s.raiseAll limit)
  | recvFlag {id : Nat} {recv recv' : RecvStream} (hget : s.recvHalf id = some recv)
      (hmove : RecvFlag recv recv')
      (hready : recv'.needsToSend = true → recv.needsToSend = true ∨ id ∈ s.readySet) :
      Change g s (s.setRecv id recv')
  | frame {id offset : Nat} {data : List UInt8} {fin : Bool} {recv recv' : RecvStream} {n : Nat}
      (hget : s.recvHalf id = some recv) (hguard : g.data recv offset data fin)
      (hdata : recv.onData offset data fin = (.ok n, recv')) {frameEnd newHigh : Nat}
      (hend : frameEnd = saturatingAdd offset data.length)
      (hnew : newHigh = frameEnd - (s.streamHighOffset.get? id).getD 0)
      (hroom : 0 < newHigh → saturatingAdd s.connRecvUsed newHigh ≤ s.connRecvMax) :
      Change g s ((s.acceptFrame id frameEnd newHigh recv').refreshReadable id)
  | peerReset {id code finalSize : Nat} {recv recv' : RecvStream}
      (hget : s.recvHalf id = some recv) (hguard : g.peerReset recv finalSize)
      (hreset : recv.onReset code finalSize = (.ok (), recv')) {newHigh : Nat}
      (hhigh : (s.streamHighOffset.get? id).getD 0 ≤ finalSize)
      (hnew : newHigh = finalSize - (s.streamHighOffset.get? id).getD 0)
      (hroom : saturatingAdd s.connRecvUsed newHigh ≤ s.connRecvMax) :
      Change g s ((s.acceptReset id finalSize newHigh recv.isReset recv').refreshReadable id)
  | read {id len : Nat} {recv recv' recv'' : RecvStream} {bytes : List UInt8} {fin : Bool}
      (hget : s.recvHalf id = some recv) (hread : recv.ackReset.read len = ((bytes, fin), recv'))
      (hgrant : recv'' = replenishStream (credit recv' bytes.length))
      (hready : recv'.maxData < recv''.maxData → id ∈ s.readySet) :
      Change g s (((s.setRecv id recv'').consume bytes.length).refreshReadable id)
  | reap {id : Nat} {stream : Stream} (hpeer : s.isPeerInitiated id = true)
      (hget : s.map.get? id = some stream) (hend : isTerminal stream = true) :
      Change g s ((s.retire id stream).maybeReplenishStreams (dirOf id))

abbrev Changes (g : Guard) : Streams → Streams → Prop := Relation.ReflTransGen (Change g)

namespace Streams
section
variable (s : Streams)
variable (id : Nat)
theorem enqueueReady_rest :
    s.enqueueReady id = { s with
      readySet := insert id s.readySet
      readyToSend := (s.enqueueReady id).readyToSend } := by
  unfold enqueueReady
  split_ifs with h
  · rw [Finset.insert_eq_of_mem h]
  · rfl

theorem mem_readySet_enqueueReady : id ∈ (s.enqueueReady id).readySet := by
  rw [enqueueReady_rest]
  exact Finset.mem_insert_self id s.readySet
theorem map_enqueueReady : (s.enqueueReady id).map = s.map := by
  rw [enqueueReady_rest]

theorem consume_rest (n : Nat) : s.consume n = { s with
    connConsumed := saturatingAdd s.connConsumed n
    connRecvMax := (s.consume n).connRecvMax
    maxDataPending := (s.consume n).maxDataPending } := by
  simp only [consume,maybeReplenishConn]
  split_ifs <;> rfl

theorem reap_rest (stream : Stream) :
    (s.retire id stream).maybeReplenishStreams (dirOf id) = { s with
      retiredFinalSize := noteRetiredSize s.retiredFinalSize id (s.retiredHigh id stream)
      streamHighOffset := s.streamHighOffset.erase id
      map := s.map.erase id
      readable := s.readable.erase id
      readySet := s.readySet.erase id
      readyToSend := if id ∈ s.readySet then s.readyToSend.filter (· ≠ id) else s.readyToSend
      bidi := ((s.retire id stream).maybeReplenishStreams (dirOf id)).bidi
      uni := ((s.retire id stream).maybeReplenishStreams (dirOf id)).uni
      history := { s.history with retired := (id, stream) :: s.history.retired } } := by
  unfold maybeReplenishStreams retire
  cases dirOf id <;> rfl

theorem newRemote_isFresh : (s.newRemote id).IsFresh := by
  unfold newRemote
  cases dirOf id with
  | bidi => exact .bidi _ _
  | uni => exact .recv _

theorem map_openRemote : (s.openRemote id).map = s.map.insert id (s.newRemote id) := by
  unfold openRemote
  cases dirOf id <;> rfl
end
section Map
variable (s : Streams) (id n : Nat)
@[simp] theorem map_refreshReadable : (s.refreshReadable id).map = s.map := by
  unfold refreshReadable
  split_ifs <;> rfl

@[simp] theorem map_consume : (s.consume n).map = s.map := by
  rw [consume_rest]
theorem map_reap (stream : Stream) :
    ((s.retire id stream).maybeReplenishStreams (dirOf id)).map = s.map.erase id := by
  rw [reap_rest]

theorem retired_reap (stream : Stream) : ((s.retire id stream).maybeReplenishStreams (dirOf id)).history.retired =
      (id, stream) :: s.history.retired := by
  rw [reap_rest]

theorem map_insertLocal (dir : StreamDir) (stream : Stream) :
    (s.insertLocal dir stream).map = s.map.insert (s.nextLocal dir) stream := by
  cases dir <;> rfl
theorem map_charge (high newHigh : Nat) : (s.charge id high newHigh).map = s.map := by
  unfold charge
  split_ifs <;> rfl

theorem map_setRecv_congr {s s' : Streams} (h : s'.map = s.map) (id : Nat)
    (recv : RecvStream) : (s'.setRecv id recv).map = (s.setRecv id recv).map := by
  rw [setRecv,setRecv,h]
end Map
/-- Everything but the receive halves and their accounting. -/
def offRecv (s : Streams) : Streams :=
  { s with
    map := .empty
    connRecvMax := 0
    connRecvUsed := 0
    connConsumed := 0
    streamHighOffset := .empty
    maxDataPending := false
    readable := ∅
    history := { s.history with accepted := .empty } }
section OffRecv
variable (s : Streams) (id n : Nat)
theorem offRecv_refreshReadable : (s.refreshReadable id).offRecv = s.offRecv := by
  unfold refreshReadable
  split_ifs <;> rfl

theorem offRecv_consume : (s.consume n).offRecv = s.offRecv := by
  rw [consume_rest]
  rfl

theorem offRecv_charge (high newHigh : Nat) : (s.charge id high newHigh).offRecv = s.offRecv := by
  unfold charge
  split_ifs <;> rfl
end OffRecv
/-- `recv` after an accepted frame or reset: charged up to `high`, with the bytes credited back at once. -/
inductive Accepts (s : Streams) (id high newHigh : Nat) (recv : RecvStream) : Streams → Prop
  | kept (c : Nat) : Accepts s id high newHigh recv
      ((s.charge id high newHigh).setRecv id { recv with connFcCredited := c })
  | credited (c n : Nat) : Accepts s id high newHigh recv
      (((s.charge id high newHigh).setRecv id { recv with connFcCredited := c }).consume n)

theorem accepts_acceptFrame (s : Streams) (id frameEnd newHigh : Nat) (recv : RecvStream) :
    Accepts s id frameEnd newHigh recv (s.acceptFrame id frameEnd newHigh recv) := by
  simp only [acceptFrame]
  split_ifs
  · exact .credited _ _
  · exact .kept recv.connFcCredited

theorem accepts_acceptReset (s : Streams) (id finalSize newHigh : Nat) (alreadyReset : Bool) (recv : RecvStream) :
    Accepts s id finalSize newHigh recv (s.acceptReset id finalSize newHigh alreadyReset recv) := by
  simp only [acceptReset]
  split_ifs
  · exact .kept _
  · exact .credited _ _

theorem Accepts.refreshed {s s' : Streams} {id high newHigh : Nat} {recv : RecvStream}
    (h : Accepts s id high newHigh recv s') : (s'.refreshReadable id).offRecv = s.offRecv ∧
      ∃ c, (s'.refreshReadable id).map = (s.setRecv id { recv with connFcCredited := c }).map := by
  have hmap := map_charge s id high newHigh
  rw [offRecv_refreshReadable,map_refreshReadable]
  cases h with
  | kept c => exact ⟨offRecv_charge s id high newHigh,c,map_setRecv_congr hmap id _⟩
  | credited c n =>
    rw [offRecv_consume,map_consume]
    exact ⟨offRecv_charge s id high newHigh,c,map_setRecv_congr hmap id _⟩
end Streams
end PureCrypto.Quic
