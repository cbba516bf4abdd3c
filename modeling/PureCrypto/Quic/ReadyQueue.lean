import PureCrypto.Quic.StreamHalves
import PureCrypto.Quic.StreamsSteps

/-! # No lost wake-up -/
namespace PureCrypto.Quic
open List Option
/-- A reset discards no bytes in front of a FIN that was not sent. -/
def Guard.finFlushed : Guard where
  reset := fun send => send.finOffset.isSome = true → send.finSent = false → send.writeBuf = []
  acked := fun _ _ => True
  data := fun _ _ _ _ => True
  peerReset := fun _ _ => True
  reset_new := nofun
  data_new := fun _ _ _ _ => trivial
  peerReset_new := fun _ _ => trivial

/-- The FIN is still to come, right after the buffered bytes. -/
def SendStream.FinAligned (send : SendStream) : Prop :=
  send.finSent = false → ∀ final, send.finOffset = some final →
    final = send.writeOff + send.writeBuf.length

theorem SendStream.FinAligned.not_finStuck {send : SendStream} (h : send.FinAligned) : ¬send.FinStuck := by
  rintro ⟨hopen,hbuf,final,hfinal,hne⟩
  rw [h hopen final hfinal,hbuf] at hne
  exact hne rfl

theorem SendStream.FinAligned.move {send send' : SendStream} {n : Nat} (h : send.FinAligned)
    (hmove : SendMove .finFlushed send send' n) : send'.FinAligned := by
  cases hmove with
  | write data blocked hfin =>
    intro _ final hfinal
    rcases send.enqueue_cases data with heq | ⟨n,-,-,-,heq⟩
    all_goals
      simp only [heq,hfin] at hfinal
      cases hfinal
  | finish hopen =>
    unfold finish
    split_ifs
    · exact h
    · intro _ final hfinal
      exact (Option.some.inj hfinal).symm
  | reset code hguard =>
    intro hopen final hfinal
    have hbuf : send.writeBuf = [] := hguard (isSome_iff_exists.mpr ⟨final,hfinal⟩) hopen
    rw [h hopen final hfinal,hbuf]
    rfl
  | acked offset len fin hguard =>
    obtain ⟨st,ranges,acked,sent,sorted,rtx,-,-,-,heq⟩ :=
      onRangeAcked_shape send offset len fin
    rw [heq]
    exact h
  | resetAcked =>
    unfold onResetAcked
    split_ifs <;> exact h
  | resetLost =>
    unfold onResetLost
    split_ifs <;> exact h
  | popRtx id maxPayload out =>
    unfold popRtxFrame
    cases send.rtxQueue with
    | nil => exact h
    | cons c rest =>
      simp only
      split_ifs
      all_goals
        rw [pushSent_rest]
        exact h
  | carve id cap out =>
    rcases send.carveFrame_cases id cap out with ⟨-,heq⟩ | ⟨take,fin,-,htake,-,heq⟩
    · rw [heq]
      exact h
    · rw [heq,pushSent_rest]
      intro hopen final hfinal
      simp only [Bool.or_eq_false_iff] at hopen hfinal ⊢
      rw [h hopen.1 final hfinal,length_drop]
      omega
  | _ => exact h
namespace RecvStream
variable {r r' : RecvStream}
theorem needsToSend_onData {offset n : Nat} {data : List UInt8} {fin : Bool}
    (h : r.onData offset data fin = (.ok n, r')) : r'.needsToSend = r.needsToSend := by
  rcases r.onData_cases offset data fin with ⟨e,heq⟩ | ⟨-,heq,-⟩ | ⟨-,-,heq⟩ <;> rw [heq] at h
  · cases h
  · cases h
    rfl
  · cases h
    have houtline := ((r.noteFin fin (offset + data.length)).place_outline offset data fin
      (offset + data.length)).1
    have hnote : (r.noteFin fin (offset + data.length)).needsToSend = r.needsToSend := by
      cases fin <;> rfl
    exact (congrArg needsToSend houtline).trans hnote

theorem needsToSend_onReset {code finalSize : Nat} (h : r.onReset code finalSize = (.ok (), r')) :
    r'.needsToSend = r.needsToSend := by
  rcases r.onReset_cases code finalSize with ⟨e,heq⟩ | ⟨-,-,-,-,⟨-,heq⟩ | ⟨-,heq⟩⟩
  · rw [heq] at h
    cases h
  all_goals
    rw [heq] at h
    cases h
    rfl

theorem needsToSend_read {len : Nat} {bytes : List UInt8} {fin : Bool}
    (h : r.ackReset.read len = ((bytes, fin), r')) : r'.needsToSend = r.needsToSend := by
  obtain ⟨st,-,-,hrest⟩ := r.ackReset.read_spec len
  rw [h] at hrest
  change r' = _ at hrest
  have hack : r.ackReset.needsToSend = r.needsToSend := by
    unfold ackReset
    split_ifs <;> rfl
  rw [← hack,hrest]
  rfl

theorem needsToSend_replenishStream (h : (Streams.replenishStream r).needsToSend = true) :
    r.needsToSend = true ∨ r.maxData < (Streams.replenishStream r).maxData := by
  unfold Streams.replenishStream at h ⊢
  by_cases hopen : 0 < r.window ∧ (!r.isReset) = true
  · simp only [if_pos hopen] at h ⊢
    split_ifs at h ⊢ with hlow hraise
    · exact .inr hraise
    · exact .inl h
    · exact .inl h
  · rw [if_neg hopen] at h
    exact .inl h
end RecvStream
namespace Streams
/-- The queue holds every ready stream once. -/
structure Queued (s : Streams) : Prop where
  nodup : s.readyToSend.Nodup
  mem_iff : ∀ id, id ∈ s.readyToSend ↔ id ∈ s.readySet

/-- Every stream of `m` with something to send is ready. -/
def Awake (m : SortedMap Nat Stream) (ready : Finset Nat) : Prop :=
  ∀ id stream, m.get? id = some stream → streamNeedsToSend stream = true → id ∈ ready
section Queue
variable {s : Streams} {id : Nat}
variable (h : Queued s)
include h
theorem Queued.wake (id : Nat) : Queued (s.enqueueReady id) := by
  unfold enqueueReady
  split_ifs with hmem
  · exact h
  · constructor
    · apply List.Nodup.append h.nodup (nodup_singleton id)
      intro j hj hid
      rw [List.mem_singleton] at hid
      subst hid
      exact hmem ((h.mem_iff j).mp hj)
    · intro j
      simp only [List.mem_append,List.mem_singleton,Finset.mem_insert,h.mem_iff]
      exact or_comm

theorem Queued.rotate {rest : List Nat} (hq : s.readyToSend = id :: rest) : Queued (s.rotate id rest) := by
  have hnodup := h.nodup
  have hmem := h.mem_iff
  rw [hq] at hnodup hmem
  constructor
  · exact (perm_append_singleton id rest).nodup_iff.mpr hnodup
  · intro j
    change j ∈ rest ++ [id] ↔ j ∈ insert id s.readySet
    rw [Finset.mem_insert,← hmem j]
    simp only [List.mem_append,List.mem_cons]
    tauto

theorem Queued.sleep {rest : List Nat} (hq : s.readyToSend = rest ++ [id]) : Queued (s.dequeue id rest) := by
  have hnodup := h.nodup
  have hmem := h.mem_iff
  rw [hq] at hnodup hmem
  rw [(perm_append_singleton id rest).nodup_iff,nodup_cons] at hnodup
  constructor
  · exact hnodup.2
  · intro j
    change j ∈ rest ↔ j ∈ s.readySet.erase id
    rw [Finset.mem_erase,← hmem j]
    simp only [List.mem_append,List.mem_singleton]
    constructor
    · intro hj
      refine ⟨?_,.inl hj⟩
      rintro rfl
      exact hnodup.1 hj
    · rintro ⟨hne,hj | hj⟩
      · exact hj
      · exact absurd hj hne

theorem Queued.forget {s' : Streams} (hset : s'.readySet = s.readySet.erase id)
    (hq : s'.readyToSend =
      if id ∈ s.readySet then s.readyToSend.filter (· ≠ id) else s.readyToSend) : Queued s' := by
  constructor
  · rw [hq]
    split_ifs
    · exact h.nodup.filter _
    · exact h.nodup
  · intro j
    rw [hq,hset,Finset.mem_erase,← h.mem_iff j]
    split_ifs with hmem
    · simp [and_comm]
    · rw [← h.mem_iff] at hmem
      constructor
      · intro hj
        refine ⟨?_,hj⟩
        rintro rfl
        exact hmem hj
      · exact And.right
end Queue
section Awake
variable {s : Streams} {id : Nat} {ready : Finset Nat}
variable {m : SortedMap Nat Stream}
theorem Awake.mono {ready' : Finset Nat} (h : Awake m ready) (hsub : ready ⊆ ready') : Awake m ready' :=
  fun j stream hget hneeds => hsub (h j stream hget hneeds)

theorem Awake.insert {stream : Stream} (h : Awake m ready) (id : Nat) (hfresh : stream.IsFresh) :
    Awake (m.insert id stream) ready := by
  intro j stream' hget hneeds
  rw [m.get?_insert] at hget
  split_ifs at hget with hj
  · cases hget
    cases hfresh <;> cases hneeds
  · exact h j stream' hget hneeds

theorem Awake.modify {stream : Stream} {change : Stream → Stream} (h : Awake m ready) (hget : m.get? id = some stream)
    (hready : streamNeedsToSend (change stream) = true → streamNeedsToSend stream = true ∨ id ∈ ready) :
    Awake (m.modify id change) ready := by
  intro j stream' hj hneeds
  rw [m.get?_modify] at hj
  split_ifs at hj with heq
  · subst heq
    rw [hget,map_some,Option.some.injEq] at hj
    subst hj
    exact (hready hneeds).elim (h j stream hget) id
  · exact h j stream' hj hneeds

theorem Awake.setSend {send send' : SendStream} (h : Awake s.map ready) (hget : s.sendHalf id = some send)
    (hready : send'.needsToSend = true → send.needsToSend = true ∨ id ∈ ready) :
    Awake (s.setSend id send').map ready := by
  obtain ⟨stream,hstream,hsend⟩ := sendHalf_eq_some_iff.mp hget
  apply h.modify hstream
  simp only [streamNeedsToSend,hsend,any_some,Bool.or_eq_true]
  tauto

theorem Awake.setRecv {recv recv' : RecvStream} (h : Awake s.map ready) (hget : s.recvHalf id = some recv)
    (hready : recv'.needsToSend = true → recv.needsToSend = true ∨ id ∈ ready) :
    Awake (s.setRecv id recv').map ready := by
  obtain ⟨stream,hstream,hrecv⟩ := recvHalf_eq_some_iff.mp hget
  apply h.modify hstream
  simp only [streamNeedsToSend,hrecv,any_some,Bool.or_eq_true]
  tauto

theorem Awake.raiseAll (h : Awake s.map ready) (limit : Nat → Nat) : Awake (s.raiseAll limit).map ready := by
  intro j stream' hget hneeds
  rw [Streams.raiseAll,s.map.get?_mapVal] at hget
  obtain ⟨stream,hstream,rfl⟩ := map_eq_some_iff.mp hget
  apply h j stream hstream
  cases hsend : stream.send with
  | none =>
    simpa [streamNeedsToSend,hsend] using hneeds
  | some send =>
    simp only [streamNeedsToSend,hsend,map_some,any_some] at hneeds ⊢
    split_ifs at hneeds <;> exact hneeds

theorem Awake.erase (h : Awake m ready) (id : Nat) : Awake (m.erase id) (ready.erase id) := by
  intro j stream hget hneeds
  rw [m.get?_erase] at hget
  split_ifs at hget with hj
  exact Finset.mem_erase.mpr ⟨hj,h j stream hget hneeds⟩
end Awake
/-- The scheduler's invariant. -/
structure Scheduled (s : Streams) : Prop where
  queued : Queued s
  awake : Awake s.map s.readySet
  aligned : EverySend SendStream.FinAligned s

/-- The part of the table the scheduler reads, besides the streams. -/
def queue (s : Streams) : List Nat × Finset Nat := (s.readyToSend, s.readySet)

theorem Queued.congr {s s' : Streams} (h : Queued s) (hq : s'.queue = s.queue) : Queued s' := by
  have hlist : s'.readyToSend = s.readyToSend := congrArg Prod.fst hq
  have hset : s'.readySet = s.readySet := congrArg Prod.snd hq
  exact ⟨hlist ▸ h.nodup,fun id => by rw [hlist,hset]; exact h.mem_iff id⟩
section QueueKept
variable (s : Streams) (id : Nat)
@[simp] theorem queue_setPeerStreams (dir : StreamDir) (p : PeerStreams) :
    (s.setPeerStreams dir p).queue = s.queue := by
  cases dir <;> rfl

@[simp] theorem queue_insertLocal (dir : StreamDir) (stream : Stream) :
    (s.insertLocal dir stream).queue = s.queue := by
  cases dir <;> rfl
@[simp] theorem queue_openRemote : (s.openRemote id).queue = s.queue := by
  rw [openRemote,queue_setPeerStreams]
  rfl

theorem queue_of_offRecv {s s' : Streams} (h : s'.offRecv = s.offRecv) : s'.queue = s.queue :=
  (congrArg queue h :)
end QueueKept
theorem Scheduled.keep {s s' : Streams} (h : Scheduled s) (hq : s'.queue = s.queue)
    (hmap : Awake s'.map s.readySet) (hsend : EverySend SendStream.FinAligned s') : Scheduled s' := by
  have hset : s'.readySet = s.readySet := congrArg Prod.snd hq
  exact ⟨h.queued.congr hq,hset ▸ hmap,hsend⟩

theorem Scheduled.change {s s' : Streams} (h : Scheduled s) (hc : Change .finFlushed s s') : Scheduled s' := by
  have haligned : EverySend SendStream.FinAligned s' :=
    h.aligned.change (fun _ _ _ hfin => nomatch hfin) (fun _ _ _ hs hm => hs.move hm) hc
  have hawake := h.awake
  cases hc with
  | admin hcore =>
    have hmap : s'.map = s.map := (congrArg Streams.map hcore :)
    exact h.keep (congrArg queue hcore :) (hmap ▸ hawake) haligned
  | announceConn => exact h.keep rfl hawake haligned
  | announceStreams dir =>
    exact h.keep (queue_setPeerStreams _ _ _) (by rw [map_setPeerStreams]; exact hawake) haligned
  | note frame hfin => exact h.keep rfl hawake haligned
  | openLocal dir hfresh =>
    apply h.keep (queue_insertLocal _ _ _) _ haligned
    rw [map_insertLocal]
    exact hawake.insert _ hfresh
  | openRemote id hpeer hnew hopen hmax =>
    apply h.keep (queue_openRemote _ _) _ haligned
    rw [map_openRemote]
    exact hawake.insert id (newRemote_isFresh s id)
  | wake id =>
    refine ⟨h.queued.wake id,?_,haligned⟩
    rw [enqueueReady_rest]
    exact hawake.mono (Finset.subset_insert id s.readySet)
  | rotate hq =>
    exact ⟨h.queued.rotate hq,hawake.mono (Finset.subset_insert _ s.readySet),haligned⟩
  | @sleep id rest hq hidle =>
    refine ⟨h.queued.sleep hq,?_,haligned⟩
    intro j stream hget hneeds
    refine Finset.mem_erase.mpr ⟨?_,hawake j stream hget hneeds⟩
    -- the stream put to sleep has nothing to send, for its FIN is not stuck
    rintro rfl
    rcases hidle stream hget with hno | ⟨send,hsend,hstuck⟩
    · rw [hno] at hneeds
      cases hneeds
    · exact (h.aligned j send (sendHalf_eq_some_iff.mpr ⟨stream,hget,hsend⟩)).not_finStuck hstuck
  | send hget hmove hready => exact h.keep rfl (hawake.setSend hget hready) haligned
  | raiseAll limit => exact h.keep rfl (hawake.raiseAll limit) haligned
  | recvFlag hget hmove hready => exact h.keep rfl (hawake.setRecv hget hready) haligned
  | @frame id _ _ _ recv recv' _ hget hguard hdata frameEnd newHigh hend hnew hroom =>
    obtain ⟨hoff,c,hmap⟩ := (accepts_acceptFrame s id frameEnd newHigh recv').refreshed
    apply h.keep (queue_of_offRecv hoff) _ haligned
    rw [hmap]
    apply hawake.setRecv hget
    intro hneeds
    exact .inl (RecvStream.needsToSend_onData hdata ▸ hneeds)
  | @peerReset id _ finalSize recv recv' hget hguard hreset newHigh hhigh hnew hroom =>
    obtain ⟨hoff,c,hmap⟩ := (accepts_acceptReset s id finalSize newHigh recv.isReset recv').refreshed
    apply h.keep (queue_of_offRecv hoff) _ haligned
    rw [hmap]
    apply hawake.setRecv hget
    intro hneeds
    exact .inl (RecvStream.needsToSend_onReset hreset ▸ hneeds)
  | read hget hread hgrant hready =>
    subst hgrant
    apply h.keep (queue_of_offRecv (by rw [offRecv_refreshReadable,offRecv_consume]; rfl)) _ haligned
    rw [map_refreshReadable,map_consume]
    apply hawake.setRecv hget
    intro hneeds
    apply (RecvStream.needsToSend_replenishStream hneeds).imp _ hready
    intro hcredit
    exact RecvStream.needsToSend_read hread ▸ hcredit
  | @reap id stream hpeer hget hend =>
    have hset : ((s.retire id stream).maybeReplenishStreams (dirOf id)).queue =
        (if id ∈ s.readySet then s.readyToSend.filter (· ≠ id) else s.readyToSend,
          s.readySet.erase id) := by
      rw [reap_rest]
      rfl
    refine ⟨h.queued.forget (congrArg Prod.snd hset) (congrArg Prod.fst hset),?_,haligned⟩
    have hready : ((s.retire id stream).maybeReplenishStreams (dirOf id)).readySet =
        s.readySet.erase id := congrArg Prod.snd hset
    rw [map_reap,hready]
    exact hawake.erase id

theorem scheduled_new (role : Role) (our peer : TransportParameters) :
    Scheduled (Streams.new role our peer) where
  queued := ⟨nodup_nil,fun id => by simp [Streams.new]⟩
  awake := fun id stream h => nomatch h
  aligned := everySend_new _ role our peer

/-- In every run whose resets discard no bytes in front of an unsent FIN, the ready queue holds each
ready stream once, and every stream with something to send is ready. -/
theorem no_lost_wakeup (role : Role) (our peer : TransportParameters) (ops : List StreamsOp)
    (hops : Trace.Along step (Allows .finFlushed) (Streams.new role our peer) ops) :
    let s := Trace.run step (Streams.new role our peer) ops
    s.readyToSend.Nodup ∧ s.readyToSend.toFinset = s.readySet ∧
      ∀ id stream, s.map.get? id = some stream → streamNeedsToSend stream = true →
        id ∈ s.readySet := by
  intro s
  have h : Scheduled s :=
    invariant_run (fun _ _ hs hc => hs.change hc) hops (scheduled_new role our peer)
  refine ⟨h.queued.nodup,?_,h.awake⟩
  ext id
  rw [List.mem_toFinset,h.queued.mem_iff]

/-- A stream whose last byte was sent before the reset, with the FIN still to come. -/
theorem no_lost_wakeup_reset :
    let s := Trace.run step (Streams.new .client (.uniform 0 0) (.uniform 9 1))
      [.openUni, .write 2 [7], .popFrame 100, .finish 2, .reset 2 0]
    ∀ id stream, s.map.get? id = some stream → streamNeedsToSend stream = true →
      id ∈ s.readySet := by
  have hops : Trace.Along step (Allows .finFlushed)
      (Streams.new .client (.uniform 0 0) (.uniform 9 1))
      [.openUni, .write 2 [7], .popFrame 100, .finish 2, .reset 2 0] := by
    refine ⟨trivial,trivial,trivial,trivial,?_,trivial⟩
    intro send hsend _ _
    have hbuf : (Streams.sendHalf (Trace.run step
        (Streams.new .client (.uniform 0 0) (.uniform 9 1))
        [.openUni, .write 2 [7], .popFrame 100, .finish 2]) 2).map SendStream.writeBuf = some [] := by
      decide
    rw [Trace.run_cons,Trace.run_cons,Trace.run_cons,Trace.run_cons,Trace.run_nil,hsend] at hbuf
    exact Option.some.inj hbuf
  exact (no_lost_wakeup .client (.uniform 0 0) (.uniform 9 1) _ hops).2.2

/-- A reset discards a byte in front of the FIN: the stream is off the queue with its FIN unsent. -/
theorem wakeup_lost :
    let s := Trace.run step (Streams.new .client (.uniform 0 0) (.uniform 9 1))
      [.openUni, .write 2 [7], .finish 2, .reset 2 0, .popFrame 100, .popFrame 100]
    (s.map.get? 2).any streamNeedsToSend = true ∧ 2 ∉ s.readySet := by
  decide
end Streams
end PureCrypto.Quic
