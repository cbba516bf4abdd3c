import PureCrypto.Quic.PeerSlots
import PureCrypto.Quic.StreamHalves

/-! # Send credit of the connection -/
namespace PureCrypto.Quic
open List
/-- A reset throws nothing away. -/
def Guard.bufferFlushed : Guard where
  reset := fun send => send.writeBuf = []
  acked := fun _ _ => True
  data := fun _ _ _ _ => True
  peerReset := fun _ _ => True
  reset_new := fun _ => rfl
  data_new := fun _ _ _ _ => trivial
  peerReset_new := fun _ _ => trivial
namespace SendStream
/-- The bytes of this half that count against the peer's connection limit. -/
def counted (send : SendStream) : Nat :=
  if send.resetCode.isSome then send.sentOffset else send.sentOffset + send.writeBuf.length

/-- What a send half satisfies while no reset throws bytes away. -/
structure Flushed (send : SendStream) : Prop where
  sent : send.sentOffset = send.writeOff
  reset : send.resetCode.isSome = true →
    send.writeBuf = [] ∧ send.state ≠ .ready ∧ send.state ≠ .send

theorem Flushed.new (n : Nat) : (SendStream.new n).Flushed :=
  ⟨rfl,nofun⟩

theorem Flushed.counted_eq {send : SendStream} (h : send.Flushed) :
    send.counted = send.sentOffset + send.writeBuf.length := by
  unfold counted
  split_ifs with hreset
  · rw [(h.reset hreset).1]
    rfl
  · rfl

/-- A move keeps `Flushed`, and adds to the count what it adds to the connection's total. -/
theorem Flushed.move {send send' : SendStream} {n : Nat} (h : send.Flushed)
    (hmove : SendMove .bufferFlushed send send' n) : send'.Flushed ∧ send'.counted = send.counted + n := by
  -- most moves touch neither the counters nor the reset
  have hsame : ∀ {t : SendStream}, t.sentOffset = send.sentOffset → t.writeOff = send.writeOff →
      t.writeBuf = send.writeBuf → t.resetCode = send.resetCode →
      (t.state = send.state ∨ (t.state ≠ .ready ∧ t.state ≠ .send)) →
      t.Flushed ∧ t.counted = send.counted + 0 := by
    intro t hsent hoff hbuf hcode hstate
    refine ⟨⟨by rw [hsent,hoff,h.sent],?_⟩,by rw [counted,hsent,hbuf,hcode]; rfl⟩
    intro hreset
    rw [hcode] at hreset
    rw [hbuf]
    refine ⟨(h.reset hreset).1,?_⟩
    rcases hstate with hstate | hstate
    · rw [hstate]
      exact (h.reset hreset).2
    · exact hstate
  cases hmove with
  | write data blocked hfin =>
    rcases send.enqueue_cases data with heq | ⟨n,hn,-,hopen,heq⟩
    · rw [heq]
      exact hsame rfl rfl rfl rfl (.inl rfl)
    · have hlive : send.resetCode.isSome = false := by
        cases hcode : send.resetCode.isSome with
        | false => rfl
        | true =>
          obtain ⟨-,hready,hsend⟩ := h.reset hcode
          exact (hopen.elim hready hsend).elim
      rw [heq]
      constructor
      · refine ⟨h.sent,?_⟩
        intro hreset
        rw [hlive] at hreset
        cases hreset
      · simp only [counted,hlive,Bool.false_eq_true,if_false,length_append,length_take,Nat.min_eq_left hn]
        omega
  | finish hopen =>
    unfold finish
    split_ifs <;> exact hsame rfl rfl rfl rfl (.inl rfl)
  | reset code hguard =>
    have hbuf : send.writeBuf = [] := hguard
    constructor
    · exact ⟨h.sent,fun _ => ⟨rfl,SendState.noConfusion,SendState.noConfusion⟩⟩
    · rw [h.counted_eq,hbuf]
      rfl
  | acked offset len fin hguard =>
    obtain ⟨st,ranges,acked,sent,sorted,rtx,-,-,hstate,heq⟩ :=
      onRangeAcked_shape send offset len fin
    rw [heq]
    refine hsame rfl rfl rfl rfl ?_
    rcases hstate with hstate | ⟨hstate,-⟩
    · exact .inl hstate
    · exact .inr (by simp [hstate])
  | resetAcked =>
    unfold onResetAcked
    split_ifs
    · exact hsame rfl rfl rfl rfl (.inr ⟨SendState.noConfusion,SendState.noConfusion⟩)
    · exact hsame rfl rfl rfl rfl (.inl rfl)
  | resetLost =>
    unfold onResetLost
    split_ifs <;> exact hsame rfl rfl rfl rfl (.inl rfl)
  | popRtx id maxPayload out =>
    unfold popRtxFrame
    cases send.rtxQueue with
    | nil => exact hsame rfl rfl rfl rfl (.inl rfl)
    | cons c rest =>
      simp only
      split_ifs
      all_goals
        rw [pushSent_rest]
        exact hsame rfl rfl rfl rfl (.inl rfl)
  | carve id cap out =>
    rcases send.carveFrame_cases id cap out with ⟨-,heq⟩ | ⟨take,fin,-,htake,-,heq⟩
    · rw [heq]
      exact hsame rfl rfl rfl rfl (.inl rfl)
    · rw [heq,pushSent_rest]
      have hsent := h.sent
      have hflushed : Flushed { send with
          writeBuf := send.writeBuf.drop take
          writeOff := send.writeOff + take
          sentOffset := max send.sentOffset (send.writeOff + take)
          finSent := send.finSent || fin
          state := if fin then .dataSent
            else if send.state = SendState.ready ∧ 0 < take then .send else send.state } := by
        constructor
        · change max send.sentOffset (send.writeOff + take) = send.writeOff + take
          omega
        · intro hreset
          obtain ⟨hbuf,hready,hsend⟩ := h.reset hreset
          refine ⟨by simp [hbuf],?_⟩
          cases fin with
          | true => exact ⟨SendState.noConfusion,SendState.noConfusion⟩
          | false => simp [hready,hsend]
      refine ⟨⟨hflushed.sent,hflushed.reset⟩,?_⟩
      have hcount := hflushed.counted_eq
      rw [h.counted_eq]
      refine hcount.trans ?_
      simp only [length_drop]
      omega
  | _ => exact hsame rfl rfl rfl rfl (.inl rfl)
end SendStream
namespace Streams
def countedBytes (stream : Stream) : Nat := (stream.send.map SendStream.counted).getD 0

/-- The connection's send total, and what it rests on. -/
structure Charged (s : Streams) : Prop where
  accounted : Accounted s
  flushed : EverySend SendStream.Flushed s
  exact_total : s.connSendUsed = total countedBytes s

theorem countedBytes_fresh {stream : Stream} (h : stream.IsFresh) : countedBytes stream = 0 := by
  cases h <;> rfl
section Steps
variable {s s' : Streams}
theorem total_of_offRecv {id : Nat} {recv recv' : RecvStream} (hget : s.recvHalf id = some recv)
    (hoff : s'.offRecv = s.offRecv) (hmap : s'.map = (s.setRecv id recv').map) :
    s'.connSendUsed = s.connSendUsed ∧ total countedBytes s' = total countedBytes s := by
  obtain ⟨stream,hstream,-⟩ := recvHalf_eq_some_iff.mp hget
  refine ⟨(congrArg Streams.connSendUsed hoff :),?_⟩
  have hretired : s'.history.retired = s.history.retired :=
    (congrArg (fun t => t.history.retired) hoff)
  exact Nat.add_right_cancel (total_setRecv (f := countedBytes) hstream hmap hretired)

theorem Charged.change (h : Charged s) (hc : Change .bufferFlushed s s') : Charged s' := by
  refine ⟨h.accounted.change hc,h.flushed.change SendStream.Flushed.new (fun _ _ _ hs hm => (hs.move hm).1) hc,?_⟩
  have htotal := h.exact_total
  -- a change that moves neither the total nor the streams
  have hkeep : ∀ {t : Streams}, t.connSendUsed = s.connSendUsed → t.map = s.map →
      t.history.retired = s.history.retired → t.connSendUsed = total countedBytes t := by
    intro t hused hmap hretired
    rw [hused,htotal,total_congr hmap hretired]
  have hrecv : ∀ {t : Streams}, t.connSendUsed = s.connSendUsed ∧
      total countedBytes t = total countedBytes s → t.connSendUsed = total countedBytes t := by
    rintro t ⟨hused,hsum⟩
    rw [hused,hsum,htotal]
  cases hc with
  | admin hcore =>
    exact hkeep (congrArg Streams.connSendUsed hcore :) (congrArg Streams.map hcore :)
      (congrArg (fun t => t.history.retired) hcore)
  | announceStreams dir =>
    apply hkeep _ (map_setPeerStreams _ _ _)
      (congrArg History.retired (history_setPeerStreams _ _ _))
    cases dir <;> rfl
  | @openLocal dir stream hfresh =>
    have hused : (s.insertLocal dir stream).connSendUsed = s.connSendUsed := by cases dir <;> rfl
    have hretired : (s.insertLocal dir stream).history.retired = s.history.retired := by
      cases dir <;> rfl
    rw [hused,total_insert (h.accounted.localIds.get?_nextLocal dir) (map_insertLocal s dir stream)
      hretired,countedBytes_fresh hfresh,zero_add,htotal]
  | openRemote id hpeer hnew hopen hmax =>
    have hused : (s.openRemote id).connSendUsed = s.connSendUsed := by
      unfold openRemote
      cases dirOf id <;> rfl
    have hretired : (s.openRemote id).history.retired = s.history.retired := by
      rw [openRemote,history_setPeerStreams]
    rw [hused,total_insert hnew (map_openRemote s id) hretired,
      countedBytes_fresh (newRemote_isFresh s id),zero_add,htotal]
  | wake id =>
    rw [enqueueReady_rest]
    exact htotal
  | @send id send send' n hget hmove hready =>
    obtain ⟨stream,hstream,hsend⟩ := sendHalf_eq_some_iff.mp hget
    have hcount := ((h.flushed id send hget).move hmove).2
    have hmod : total countedBytes ({ s with connSendUsed := s.connSendUsed + n }.setSend id send') +
        countedBytes stream = _ := total_setSend hstream rfl rfl
    have hold : countedBytes stream = send.counted := by simp [countedBytes,hsend]
    have hnew : countedBytes { stream with send := some send' } = send'.counted := rfl
    change s.connSendUsed + n = _
    omega
  | raiseAll limit =>
    change s.connSendUsed = _
    rw [total_raiseAll limit,htotal]
    intro send recv n
    rfl
  | recvFlag hget hmove hready => exact hrecv (total_of_offRecv hget rfl rfl)
  | @frame id _ _ _ _ recv' _ hget hguard hdata frameEnd newHigh hend hnew hroom =>
    obtain ⟨hoff,c,hmap⟩ := (accepts_acceptFrame s id frameEnd newHigh recv').refreshed
    exact hrecv (total_of_offRecv hget hoff hmap)
  | @peerReset id _ finalSize recv recv' hget hguard hreset newHigh hhigh hnew hroom =>
    obtain ⟨hoff,c,hmap⟩ := (accepts_acceptReset s id finalSize newHigh recv.isReset recv').refreshed
    exact hrecv (total_of_offRecv hget hoff hmap)
  | read hget hread hgrant hready =>
    exact hrecv (total_of_offRecv hget (by rw [offRecv_refreshReadable,offRecv_consume]; rfl)
      (by rw [map_refreshReadable,map_consume]))
  | @reap id stream hpeer hget hend =>
    have hused : ((s.retire id stream).maybeReplenishStreams (dirOf id)).connSendUsed =
        s.connSendUsed := by rw [reap_rest]
    rw [hused,total_reap hget,htotal]
  | _ => exact htotal
end Steps
/-- In every run whose resets throw no written byte away, the connection's send total is what counts
against the peer's limit on all streams ever opened. -/
theorem connSendUsed_exact (role : Role) (our peer : TransportParameters) (ops : List StreamsOp)
    (hops : Trace.Along step (Allows .bufferFlushed) (Streams.new role our peer) ops) :
    let s := Trace.run step (Streams.new role our peer) ops
    s.connSendUsed = s.map.sum (fun _ stream => countedBytes stream) +
      (s.history.retired.map (fun e => countedBytes e.2)).sum := by
  intro s
  have h : Charged s := by
    apply invariant_run (fun _ _ hs hc => hs.change hc) hops
    exact ⟨Accounted.new role our peer,everySend_new _ role our peer,rfl⟩
  exact h.exact_total

/-- A reset after everything written was sent. -/
theorem connSendUsed_exact_sent :
    let s := Trace.run step (Streams.new .client (.uniform 0 0) (.uniform 9 1))
      [.openUni, .write 2 [7, 8], .popFrame 100, .reset 2 0]
    s.connSendUsed = s.map.sum (fun _ stream => countedBytes stream) +
      (s.history.retired.map (fun e => countedBytes e.2)).sum := by
  have hops : Trace.Along step (Allows .bufferFlushed)
      (Streams.new .client (.uniform 0 0) (.uniform 9 1))
      [.openUni, .write 2 [7, 8], .popFrame 100, .reset 2 0] := by
    refine ⟨trivial,trivial,trivial,?_,trivial⟩
    intro send hsend
    have hbuf : (Streams.sendHalf (Trace.run step
        (Streams.new .client (.uniform 0 0) (.uniform 9 1))
        [.openUni, .write 2 [7, 8], .popFrame 100]) 2).map SendStream.writeBuf = some [] := by
      decide
    rw [Trace.run_cons,Trace.run_cons,Trace.run_cons,Trace.run_nil,hsend] at hbuf
    exact Option.some.inj hbuf
  exact connSendUsed_exact .client (.uniform 0 0) (.uniform 9 1) _ hops

/-- Two bytes written and never sent stay charged after the reset. -/
theorem reset_keeps_charge :
    let s := Trace.run step (Streams.new .client (.uniform 0 0) (.uniform 9 1))
      [.openUni, .write 2 [7, 8], .reset 2 0]
    s.connSendUsed = 2 ∧ s.map.sum (fun _ stream => countedBytes stream) +
      (s.history.retired.map (fun e => countedBytes e.2)).sum = 0 := by
  decide
end Streams
end PureCrypto.Quic
