import PureCrypto.Quic.HeldChunks
import PureCrypto.Quic.StreamFrames

/-! # Moves of one stream -/
namespace PureCrypto.Quic
open List
/-- Conditions on the moves that discard or revive the state of a half. -/
structure Guard where
  reset : SendStream → Prop
  acked : SendStream → Bool → Prop
  data : RecvStream → Nat → List UInt8 → Bool → Prop
  peerReset : RecvStream → Nat → Prop
  reset_new : ∀ n, reset (.new n)
  data_new : ∀ n offset bytes fin, data (.new n) offset bytes fin
  peerReset_new : ∀ n finalSize, peerReset (.new n) finalSize

def Guard.any : Guard where
  reset := fun _ => True
  acked := fun _ _ => True
  data := fun _ _ _ _ => True
  peerReset := fun _ _ => True
  reset_new := fun _ => trivial
  data_new := fun _ _ _ _ => trivial
  peerReset_new := fun _ _ => trivial

/-- A move of a send half; the number is what it adds to the connection's send total. -/
inductive SendMove (g : Guard) (send : SendStream) : SendStream → Nat → Prop
  | write (data : List UInt8) (blocked : Option Nat) (hfin : send.finOffset = none) :
      SendMove g send { (send.enqueue data).2 with blockedAt := blocked } (send.enqueue data).1
  | block (limit : Nat) : SendMove g send { send with blockedAt := some limit } 0
  | finish (hopen : send.state ≠ .resetSent ∧ send.state ≠ .resetRecvd) :
      SendMove g send send.finish 0
  | reset (code : Nat) (h : g.reset send) : SendMove g send (send.enterReset code) 0
  | raise (limit : Nat) (blocked : Option Nat) :
      SendMove g send { send with peerMaxData := limit, blockedAt := blocked } 0
  | acked (offset len : Nat) (fin : Bool) (h : g.acked send fin) :
      SendMove g send (send.onRangeAcked offset len fin) 0
  | lost (offset len : Nat) (fin : Bool) : SendMove g send (send.onRangeLost offset len fin).2 0
  | resetAcked : SendMove g send send.onResetAcked 0
  | resetLost : SendMove g send send.onResetLost.2 0
  | requeue : SendMove g send send.requeueAllSent 0
  | popReset : SendMove g send { send with resetPending := false } 0
  | popBlocked : SendMove g send { send with blockedAt := none } 0
  | popRtx (id maxPayload : Nat) (out : List UInt8) :
      SendMove g send (send.popRtxFrame id maxPayload out).2.1 0
  | carve (id cap : Nat) (out : List UInt8) : SendMove g send (send.carveFrame id cap out).2.1 0

/-- A change of a receive half that touches no data. -/
inductive RecvFlag (recv : RecvStream) : RecvStream → Prop
  | stop (code : Nat) :
      RecvFlag recv { recv with stopSendingSent := true, stopSendingPending := some code }
  | stopAgain (code : Nat) : RecvFlag recv { recv with stopSendingPending := some code }
  | announce : RecvFlag recv { recv with maxDataPending := true }
  | popStop : RecvFlag recv { recv with stopSendingPending := none }
  | popMax : RecvFlag recv { recv with maxDataPending := false, maxDataAnnounced := recv.maxData }
namespace SendStream
/-- The FIN of this half has been written to a frame. -/
def FinKnown (send : SendStream) : Prop :=
  send.finSent = true ∨ send.finAcked = true ∨
    ∃ c ∈ send.sentChunks ++ send.rtxQueue, c.fin = true

/-- The final size is not where the write buffer ended. -/
def FinStuck (send : SendStream) : Prop :=
  send.finSent = false ∧ send.writeBuf = [] ∧
    ∃ final, send.finOffset = some final ∧ final ≠ send.writeOff

private theorem pruneRtx_subset (s : SendStream) :
    ∃ rtx, rtx ⊆ s.rtxQueue ∧ s.pruneRtx = { s with rtxQueue := rtx } :=
  ⟨_,filter_subset_self _,pruneRtx_eq s⟩

/-- An acknowledgement drops chunks, and may end the stream once the FIN is acknowledged. -/
theorem onRangeAcked_shape (s : SendStream) (offset len : Nat) (fin : Bool) :
    ∃ st ranges acked sent sorted rtx, sent ⊆ s.sentChunks ∧ rtx ⊆ s.rtxQueue ∧
      (st = s.state ∨ (st = .dataRecvd ∧ (s.finAcked || fin) = true ∧
        s.state ≠ .resetSent ∧ s.state ≠ .resetRecvd)) ∧
      s.onRangeAcked offset len fin = { s with
        state := st
        ackedRanges := ranges
        ackedOffset := acked
        sentChunks := sent
        sentSorted := sorted
        rtxQueue := rtx
        finAcked := s.finAcked || fin } := by
  obtain ⟨ranges,acked,hrec⟩ : ∃ ranges acked, s.recordAck offset (saturatingAdd offset len) fin =
      { s with finAcked := s.finAcked || fin, ackedRanges := ranges, ackedOffset := acked } :=
    ⟨_,_,recordAck_rest s offset (saturatingAdd offset len) fin⟩
  obtain ⟨sent,sorted,hsent,-,hprune⟩ := pruneSent_shape
    { s with finAcked := s.finAcked || fin, ackedRanges := ranges, ackedOffset := acked }
    offset (saturatingAdd offset len) (fin && !s.finAcked)
  obtain ⟨rtx,hrtx,hqueue⟩ := pruneRtx_subset { s with
    finAcked := s.finAcked || fin
    ackedRanges := ranges
    ackedOffset := acked
    sentChunks := sent
    sentSorted := sorted }
  simp only [onRangeAcked,hrec,hprune,hqueue]
  rcases settleAcked_cases { s with
      finAcked := s.finAcked || fin
      ackedRanges := ranges
      ackedOffset := acked
      sentChunks := sent
      sentSorted := sorted
      rtxQueue := rtx } with hkeep | ⟨hend,hfin,-,-,hopen⟩
  · exact ⟨_,ranges,acked,sent,sorted,rtx,hsent,hrtx,.inl rfl,hkeep⟩
  · exact ⟨_,ranges,acked,sent,sorted,rtx,hsent,hrtx,.inr ⟨rfl,hfin,hopen⟩,hend⟩

theorem needsToSend_eq_true_iff (send : SendStream) :
    send.needsToSend = true ↔ send.resetPending = true ∨ send.rtxQueue ≠ [] ∨ send.writeBuf ≠ [] ∨
      (send.finOffset.isSome = true ∧ send.finSent = false) ∨ send.blockedAt.isSome = true := by
  simp [needsToSend,hasOutbound,or_assoc]
variable {s : SendStream}
theorem needsToSend_of_onRangeAcked {offset len : Nat} {fin : Bool}
    (h : (s.onRangeAcked offset len fin).needsToSend = true) : s.needsToSend = true := by
  obtain ⟨st,ranges,acked,sent,sorted,rtx,-,hrtx,-,heq⟩ := onRangeAcked_shape s offset len fin
  rw [heq,needsToSend_eq_true_iff] at h
  rw [needsToSend_eq_true_iff]
  refine h.imp_right (Or.imp_left ?_)
  intro hne hnil
  rw [hnil] at hrtx
  exact hne (subset_nil.mp hrtx)

theorem needsToSend_of_onRangeLost {offset len : Nat} {fin : Bool} (hmoved : (s.onRangeLost offset len fin).1 = false)
    (h : (s.onRangeLost offset len fin).2.needsToSend = true) : s.needsToSend = true := by
  simp only [onRangeLost,Bool.not_eq_false',List.isEmpty_iff] at hmoved
  simp only [onRangeLost,hmoved,append_nil] at h
  exact h

theorem needsToSend_onResetAcked (s : SendStream) : s.onResetAcked.needsToSend = s.needsToSend := by
  unfold onResetAcked
  split_ifs <;> rfl

theorem onResetLost_of_not_queued (h : s.onResetLost.1 = false) : s.onResetLost.2 = s := by
  unfold onResetLost at h ⊢
  split_ifs at h ⊢
  rfl

theorem finKnown_of_popRtxFrame {id maxPayload : Nat} {out : List UInt8} {frame : StreamFrame}
    (h : (s.popRtxFrame id maxPayload out).1 = some frame) (hfin : frame.fin = true) :
    (s.popRtxFrame id maxPayload out).2.1.FinKnown := by
  unfold popRtxFrame at h ⊢
  cases hq : s.rtxQueue with
  | nil => simp [hq] at h
  | cons c rest =>
    simp only [hq] at h ⊢
    by_cases hlen : c.bytes.length ≤ maxPayload
    · simp only [if_pos hlen,Option.some.injEq] at h ⊢
      subst h
      rcases pushSent_cases { s with rtxQueue := rest } c with ⟨hacked,heq⟩ | ⟨sorted,heq⟩
      · have hc : c.fin = true := hfin
        simp only [chunkAcked,hc,Bool.not_true,Bool.false_or,Bool.and_eq_true] at hacked
        rw [heq]
        exact .inr (.inl hacked.2)
      · rw [heq]
        exact .inr (.inr ⟨c,by simp,hfin⟩)
    · simp only [if_neg hlen,Option.some.injEq] at h
      subst h
      cases hfin

theorem popRtxFrame_isSome (id maxPayload : Nat) (out : List UInt8) (h : s.rtxQueue ≠ []) :
    ∃ frame, (s.popRtxFrame id maxPayload out).1 = some frame := by
  unfold popRtxFrame
  cases hq : s.rtxQueue with
  | nil => exact absurd hq h
  | cons c rest =>
    simp only
    split_ifs <;> exact ⟨_,rfl⟩

/-- A carve that does not report more to send leaves nothing to send on an otherwise idle half. -/
structure Carved (s s' : SendStream) (frame : StreamFrame) : Prop where
  resetPending : s'.resetPending = s.resetPending
  blockedAt : s'.blockedAt = s.blockedAt
  rtxQueue : s'.rtxQueue = s.rtxQueue
  fin : frame.fin = true → s'.finSent = true

theorem carveFrame_carved (id cap : Nat) (out : List UInt8) (h : s.hasOutbound = true) :
    ∃ frame, (s.carveFrame id cap out).1 = some frame ∧ Carved s (s.carveFrame id cap out).2.1 frame := by
  rcases carveFrame_cases s id cap out with ⟨hnone,-⟩ | ⟨take,fin,-,-,-,heq⟩
  · rw [h] at hnone
    cases hnone
  · refine ⟨⟨s.writeOff,take,fin⟩,by rw [heq],?_⟩
    rw [heq,pushSent_rest]
    refine ⟨rfl,rfl,rfl,?_⟩
    intro hfin
    cases hfin
    exact Bool.or_true _

/-- With the buffer empty, a carve emits the FIN, or leaves one that can never be emitted. -/
theorem carveFrame_fin_only (id : Nat) (out : List UInt8) (hout : s.hasOutbound = true)
    (hrtx : s.rtxQueue = []) (hbuf : s.writeBuf = []) (hopen : s.finSent = false) :
    (s.carveFrame id 0 out).2.1.hasOutbound = false ∨ (s.carveFrame id 0 out).2.1.FinStuck := by
  rcases carveFrame_cases s id 0 out with ⟨hnone,-⟩ | ⟨take,fin,-,htake,hiff,heq⟩
  · rw [hout] at hnone
    cases hnone
  · have htake : take = 0 := by omega
    subst htake
    rw [heq,pushSent_rest]
    cases hfin : fin with
    | true =>
      simp [hasOutbound,hrtx,hbuf]
    | false =>
      right
      have hsome : s.finOffset.isSome = true := by
        simpa [hasOutbound,hrtx,hbuf,hopen] using hout
      obtain ⟨final,hfinal⟩ := Option.isSome_iff_exists.mp hsome
      refine ⟨by simp [hopen],by simp [hbuf],final,hfinal,?_⟩
      intro heq
      have := hiff.mpr ⟨by rw [hfinal,heq],by simp [hbuf],hopen⟩
      rw [hfin] at this
      cases this
end SendStream
/-- What popping a frame of stream `id` does to the stream. -/
inductive PopMove (g : Guard) (stream : Stream) (id : Nat) : Stream → PoppedFrame → Bool → Prop
  | send {send send' : SendStream} {frame : PoppedFrame} {more : Bool}
      (hsend : stream.send = some send) (hmove : SendMove g send send' 0)
      (hfin : ∀ i offset len, frame = .stream i offset len true → i = id ∧ send'.FinKnown)
      (hmore : more = false → streamNeedsToSend { stream with send := some send' } = false ∨
        send'.FinStuck) :
      PopMove g stream id { stream with send := some send' } frame more
  | recv {recv recv' : RecvStream} {frame : PoppedFrame} {more : Bool}
      (hrecv : stream.recv = some recv) (hmove : RecvFlag recv recv')
      (hframe : ∀ i offset len fin, frame ≠ .stream i offset len fin)
      (hmore : more = false → streamNeedsToSend { stream with recv := some recv' } = false) :
      PopMove g stream id { stream with recv := some recv' } frame more

/-- The outcomes of asking a stream for a frame. -/
def PopOutcome (g : Guard) (stream : Stream) (id : Nat) :
    StreamPop × Stream × List UInt8 → Prop
  | (.frame frame more, stream', _) => PopMove g stream id stream' frame more
  | (.noRoom, _, _) => True
  | (.idle, _, _) => streamNeedsToSend stream = false
section Pop
variable {g : Guard} {stream : Stream} {id budget : Nat} {out : List UInt8} {send : SendStream}
variable {send' : SendStream} {frame : PoppedFrame}
private theorem popControl_send
    (hsend : stream.send = some send) (hmove : SendMove g send send' 0)
    (hframe : ∀ i offset len fin, frame ≠ .stream i offset len fin) : PopOutcome g stream id
      (popControl frame stream { stream with send := some send' } budget out) := by
  unfold popControl
  split_ifs
  · trivial
  · exact .send hsend hmove (fun i offset len h => absurd h (hframe i offset len true)) .inl

private theorem popControl_recv {recv recv' : RecvStream}
    (hrecv : stream.recv = some recv) (hmove : RecvFlag recv recv')
    (hframe : ∀ i offset len fin, frame ≠ .stream i offset len fin) : PopOutcome g stream id
      (popControl frame stream { stream with recv := some recv' } budget out) := by
  unfold popControl
  split_ifs
  · trivial
  · exact .recv hrecv hmove hframe (fun h => h)

private theorem popRetransmission_outcome {rOff rLen : Nat} (hsend : stream.send = some send)
    (hrtx : send.rtxQueue ≠ []) : PopOutcome g stream id (popRetransmission stream send id rOff rLen budget out) := by
  simp only [popRetransmission]
  generalize budget - (headerOverhead id rOff + Varint.encodedLen rLen) = room
  have hmove : SendMove g send (send.popRtxFrame id room out).2.1 0 := .popRtx id room out
  obtain ⟨frame,hframe⟩ := send.popRtxFrame_isSome id room out hrtx
  have hknown := fun hfin => SendStream.finKnown_of_popRtxFrame hframe hfin
  by_cases hbudget : budget < headerOverhead id rOff + Varint.encodedLen rLen +
      (if 0 < rLen then 1 else 0)
  · rw [if_pos hbudget]
    trivial
  · rw [if_neg hbudget]
    generalize send.popRtxFrame id room out = result at hframe hmove hknown
    obtain ⟨popped,send',out'⟩ := result
    cases hframe
    apply PopMove.send hsend hmove _ .inl
    intro i offset len h
    rw [StreamFrame.popped,PoppedFrame.stream.injEq] at h
    exact ⟨h.1.symm,hknown h.2.2.2⟩

/-- The other frames of this stream have gone out. -/
private structure Quiet (stream : Stream) (send : SendStream) : Prop where
  resetPending : send.resetPending = false
  blockedAt : send.blockedAt = none
  rtxQueue : send.rtxQueue = []
  recv : stream.recv.any RecvStream.needsToSend = false

private theorem Quiet.needs {frame : StreamFrame} (hq : Quiet stream send)
    (hc : SendStream.Carved send send' frame) (hout : send'.hasOutbound = false) :
    streamNeedsToSend { stream with send := some send' } = false := by
  simp [streamNeedsToSend,SendStream.needsToSend,hc.resetPending,hq.resetPending,hc.blockedAt,
    hq.blockedAt,hout,hq.recv]

private theorem popFresh_outcome (hsend : stream.send = some send) (hq : Quiet stream send)
    (hout : send.hasOutbound = true) : PopOutcome g stream id (popFresh stream send id budget out) := by
  simp only [popFresh]
  generalize headerOverhead id send.writeOff + Varint.encodedLen send.writeBuf.length = overhead
  by_cases hbudget : budget < overhead + 1
  · rw [if_pos hbudget]
    trivial
  rw [if_neg hbudget]
  by_cases hchunk : min (budget - overhead) send.writeBuf.length = 0
  · rw [if_pos hchunk]
    by_cases hfin : send.finOffset.isSome = true ∧ (!send.finSent) = true ∧
        send.writeBuf.isEmpty = true ∧ headerOverhead id send.writeOff + Varint.encodedLen 0 ≤ budget
    · rw [if_pos hfin]
      obtain ⟨-,hopen,hbuf,-⟩ := hfin
      obtain ⟨frame,hframe,hcarved⟩ := SendStream.carveFrame_carved id 0 out hout
      have hmove : SendMove g send (send.carveFrame id 0 out).2.1 0 := .carve id 0 out
      have hend := SendStream.carveFrame_fin_only id out hout hq.rtxQueue (List.isEmpty_iff.mp hbuf)
        (by simpa using hopen)
      generalize send.carveFrame id 0 out = result at hframe hcarved hmove hend
      obtain ⟨popped,send',out'⟩ := result
      cases hframe
      apply PopMove.send hsend hmove
      · intro i offset len h
        rw [PoppedFrame.stream.injEq] at h
        exact ⟨h.1.symm,.inl (hcarved.fin h.2.2.2)⟩
      · intro _
        exact hend.imp_left (hq.needs hcarved)
    · rw [if_neg hfin]
      trivial
  · rw [if_neg hchunk]
    generalize min (budget - overhead) send.writeBuf.length = cap
    obtain ⟨frame,hframe,hcarved⟩ := SendStream.carveFrame_carved id cap out hout
    have hmove : SendMove g send (send.carveFrame id cap out).2.1 0 := .carve id cap out
    generalize send.carveFrame id cap out = result at hframe hcarved hmove
    obtain ⟨popped,send',out'⟩ := result
    cases hframe
    apply PopMove.send hsend hmove
    · intro i offset len h
      rw [StreamFrame.popped,PoppedFrame.stream.injEq] at h
      exact ⟨h.1.symm,.inl (hcarved.fin h.2.2.2)⟩
    · intro hmore
      exact .inl (hq.needs hcarved hmore)

theorem popStreamFrame_outcome (g : Guard) (stream : Stream) (id budget : Nat) (out : List UInt8) :
    PopOutcome g stream id (popStreamFrame stream id budget out) := by
  unfold popStreamFrame
  cases hreset : stream.send.filter (fun send => send.resetPending) with
  | some send =>
    exact popControl_send (Option.filter_eq_some_iff.mp hreset).1 .popReset (by simp)
  | none =>
  cases hstop : stream.recv.bind (fun recv => recv.stopSendingPending.map (recv, ·)) with
  | some e =>
    obtain ⟨recv,hrecv,hcode⟩ := Option.bind_eq_some_iff.mp hstop
    obtain ⟨code,-,rfl⟩ := Option.map_eq_some_iff.mp hcode
    exact popControl_recv hrecv .popStop (by simp)
  | none =>
  cases hmax : stream.recv.filter (fun recv => recv.maxDataPending) with
  | some recv =>
    exact popControl_recv (Option.filter_eq_some_iff.mp hmax).1 .popMax (by simp)
  | none =>
  cases hblocked : stream.send.bind (fun send => send.blockedAt.map (send, ·)) with
  | some e =>
    obtain ⟨send,hsend,hlim⟩ := Option.bind_eq_some_iff.mp hblocked
    obtain ⟨lim,-,rfl⟩ := Option.map_eq_some_iff.mp hlim
    exact popControl_send hsend .popBlocked (by simp)
  | none =>
  cases hrtx : stream.send.bind (fun send => send.peekRtx.map (send, ·)) with
  | some e =>
    obtain ⟨send,hsend,hpeek⟩ := Option.bind_eq_some_iff.mp hrtx
    obtain ⟨⟨rOff,rLen⟩,hfront,rfl⟩ := Option.map_eq_some_iff.mp hpeek
    apply popRetransmission_outcome hsend
    intro hnil
    simp [SendStream.peekRtx,hnil] at hfront
  | none =>
  have hrecv : stream.recv.any RecvStream.needsToSend = false := by
    cases hr : stream.recv with
    | none => rfl
    | some recv =>
      simp only [hr,Option.bind_some,Option.map_eq_none_iff] at hstop
      simpa [hr,RecvStream.needsToSend,hstop] using hmax
  cases hsend : stream.send with
  | none =>
    simp [PopOutcome,streamNeedsToSend,hsend,hrecv]
  | some send =>
    simp only [hsend,Option.bind_some,Option.map_eq_none_iff] at hblocked hrtx
    have hq : Quiet stream send := by
      refine ⟨?_,hblocked,?_,hrecv⟩
      · simpa [hsend] using hreset
      · simpa [SendStream.peekRtx] using hrtx
    cases hout : send.hasOutbound with
    | true =>
      simp only [Option.filter_some,hout,if_true]
      exact popFresh_outcome hsend hq hout
    | false =>
      simp only [Option.filter_some,hout,Bool.false_eq_true,if_false]
      simp [PopOutcome,streamNeedsToSend,hsend,hrecv,hout,SendStream.needsToSend,hq.resetPending,hq.blockedAt]
end Pop
end PureCrypto.Quic
