import PureCrypto.Framework.Trace
import PureCrypto.Quic.StreamsChanges

/-! # Every operation is a sequence of changes -/
namespace PureCrypto.Quic
open Option
open Relation (ReflTransGen)
namespace Streams
variable {g : Guard} {s : Streams} {id : Nat}
section Shared
theorem setSend_enqueueReady (s : Streams) (id n : Nat) (send : SendStream) :
    { s.enqueueReady id with connSendUsed := (s.enqueueReady id).connSendUsed + n }.setSend id send =
      ({ s with connSendUsed := s.connSendUsed + n }.setSend id send).enqueueReady id := by
  unfold enqueueReady setSend
  by_cases h : id ∈ s.readySet
  · simp only [if_pos h]
  · simp only [if_neg h]

theorem setRecv_enqueueReady (s : Streams) (id : Nat) (recv : RecvStream) :
    (s.enqueueReady id).setRecv id recv = (s.setRecv id recv).enqueueReady id := by
  unfold enqueueReady setRecv
  by_cases h : id ∈ s.readySet
  · simp only [if_pos h]
  · simp only [if_neg h]

theorem changes_admin {s' : Streams} (h : s'.core = s.core) : Changes g s s' :=
  .single (.admin h)
variable {send send' : SendStream}
theorem changes_wake_send {n : Nat} (hget : s.sendHalf id = some send)
    (hmove : SendMove g send send' n) :
    Changes g s (({ s with connSendUsed := s.connSendUsed + n }.setSend id send').enqueueReady id) := by
  have hget' : (s.enqueueReady id).sendHalf id = some send := by
    rw [sendHalf,map_enqueueReady]
    exact hget
  rw [← setSend_enqueueReady]
  apply ReflTransGen.tail (.single (.wake id))
  exact .send hget' hmove (fun _ => .inr (mem_readySet_enqueueReady s id))

theorem changes_send (hget : s.sendHalf id = some send) (hmove : SendMove g send send' 0)
    (hneeds : send'.needsToSend = true → send.needsToSend = true) : Changes g s (s.setSend id send') :=
  .single (.send hget hmove (fun h => .inl (hneeds h)))

theorem changes_wake_recv {recv recv' : RecvStream} (hget : s.recvHalf id = some recv)
    (hmove : RecvFlag recv recv') : Changes g s ((s.setRecv id recv').enqueueReady id) := by
  have hget' : (s.enqueueReady id).recvHalf id = some recv := by
    rw [recvHalf,map_enqueueReady]
    exact hget
  rw [← setRecv_enqueueReady]
  apply ReflTransGen.tail (.single (.wake id))
  exact .recvFlag hget' hmove (fun _ => .inr (mem_readySet_enqueueReady s id))

theorem changes_reapIfTerminal (s : Streams) (id : Nat) : Changes g s (s.reapIfTerminal id) := by
  unfold reapIfTerminal
  cases hpeer : s.isPeerInitiated id with
  | false => exact .refl
  | true =>
    simp only [Bool.not_true,Bool.false_eq_true,if_false]
    cases hget : s.map.get? id with
    | none => exact .refl
    | some stream =>
      simp only
      split_ifs with hend
      · exact .single (.reap hpeer hget hend)
      · exact .refl

theorem ensureRemoteStreamExists_cases (s : Streams) (id : Nat) :
    (∃ e, s.ensureRemoteStreamExists id = (.error e, s)) ∨
    s.ensureRemoteStreamExists id = (.ok false, s) ∨ s.ensureRemoteStreamExists id = (.ok true, s) ∨
    (s.ensureRemoteStreamExists id = (.ok true, s.openRemote id) ∧
      s.map.get? id = none ∧ Change g s (s.openRemote id)) := by
  unfold ensureRemoteStreamExists
  cases hlive : s.map.contains id with
  | true => exact .inr (.inr (.inl rfl))
  | false =>
    have hnew := (s.map.contains_eq_false_iff id).mp hlive
    cases hpeer : s.isPeerInitiated id with
    | false => exact .inl ⟨_,rfl⟩
    | true =>
      by_cases hretired : id / 4 < (s.peerStreams (dirOf id)).used ∧
          id / 4 ∉ (s.peerStreams (dirOf id)).implicitOpen
      · exact .inr (.inl (if_pos hretired))
      rw [if_neg hretired]
      by_cases hcap : s.liveStreamCap ≤ s.map.length
      · exact .inl ⟨_,if_pos hcap⟩
      rw [if_neg hcap]
      by_cases hmax : (s.peerStreams (dirOf id)).selfMax <
          max (s.peerStreams (dirOf id)).used (id / 4 + 1)
      · exact .inl ⟨_,if_pos hmax⟩
      rw [if_neg hmax]
      refine .inr (.inr (.inr ⟨rfl,hnew,.openRemote id hpeer hnew ?_ (not_lt.mp hmax)⟩))
      by_cases hused : (s.peerStreams (dirOf id)).used ≤ id / 4
      · exact .inl hused
      · exact .inr (by_contra fun himp => hretired ⟨not_le.mp hused,himp⟩)
end Shared
section Packer
variable {rest : List Nat} {stream stream' : Stream}
  {frame : PoppedFrame} {more : Bool}
theorem enqueueReady_dequeue (s : Streams) (id : Nat) (rest : List Nat) :
    (s.dequeue id rest).enqueueReady id = s.rotate id rest := by
  have hset : insert id (s.readySet.erase id) = insert id s.readySet := by
    ext j
    by_cases hj : j = id <;> simp [hj]
  unfold enqueueReady dequeue rotate
  rw [if_neg (Finset.notMem_erase id s.readySet)]
  simp only [hset]

theorem dequeue_rotate (s : Streams) (id : Nat) (rest : List Nat) :
    (s.rotate id rest).dequeue id rest = s.dequeue id rest := by
  unfold dequeue rotate
  rw [Finset.erase_insert_eq_erase]

/-- The front stream leaves the queue: it is turned to the back and put to sleep there. -/
private theorem changes_sleep (hidle : ∀ stream, s.map.get? id = some stream → streamNeedsToSend stream = false ∨
      ∃ send, stream.send = some send ∧ send.FinStuck) : Changes g (s.rotate id rest) (s.dequeue id rest) := by
  rw [← dequeue_rotate]
  exact .single (.sleep rfl hidle)

private theorem popMove_idle (h : PopMove g stream id stream' frame false) :
    streamNeedsToSend stream' = false ∨ ∃ send, stream'.send = some send ∧ send.FinStuck := by
  cases h with
  | send hsend hmove hfin hmore => exact (hmore rfl).imp_right (fun h => ⟨_,rfl,h⟩)
  | recv hrecv hmove hframe hmore => exact .inl (hmore rfl)

private theorem popMove_knowsFin (h : PopMove g stream id stream' frame more)
    (hget : s.map.get? id = some stream') : s.KnowsFin frame := by
  intro i offset len hframe
  cases h with
  | send hsend hmove hfin hmore =>
    obtain ⟨rfl,hknown⟩ := hfin i offset len hframe
    exact ⟨_,sendHalf_eq_some_iff.mpr ⟨_,hget,rfl⟩,hknown⟩
  | recv hrecv hmove hnot hmore => exact absurd hframe (hnot i offset len true)

private theorem changes_move (hq : s.readyToSend = id :: rest) (hget : s.map.get? id = some stream)
    (h : PopMove g stream id stream' frame more) : Changes g s ((s.setStream id stream').rotate id rest) := by
  apply ReflTransGen.tail (.single (.rotate hq))
  have hmem : id ∈ (s.rotate id rest).readySet := Finset.mem_insert_self id s.readySet
  change Change g (s.rotate id rest) ((s.rotate id rest).setStream id stream')
  have hget' : (s.rotate id rest).map.get? id = some stream := hget
  cases h with
  | send hsend hmove hfin hmore =>
    rw [setStream_send _ hget']
    exact .send (sendHalf_eq_some_iff.mpr ⟨stream,hget',hsend⟩) hmove (fun _ => .inr hmem)
  | recv hrecv hmove hframe hmore =>
    rw [setStream_recv _ hget']
    exact .recvFlag (recvHalf_eq_some_iff.mpr ⟨stream,hget',hrecv⟩) hmove (fun _ => .inr hmem)

private theorem changes_pop (hq : s.readyToSend = id :: rest) (hget : s.map.get? id = some stream)
    (h : PopMove g stream id stream' frame more) :
    Changes g s ((if more then ((s.dequeue id rest).setStream id stream').enqueueReady id
      else (s.dequeue id rest).setStream id stream').notePopped frame) := by
  have hmoved := changes_move hq hget h
  have hget' : (s.setStream id stream').map.get? id = some stream' := by
    rw [setStream,s.map.get?_modify_self,hget,map_some]
  change Changes g s ((if more then ((s.setStream id stream').dequeue id rest).enqueueReady id
      else (s.setStream id stream').dequeue id rest).notePopped frame)
  cases hmore : more with
  | true =>
    rw [enqueueReady_dequeue]
    exact hmoved.tail (.note frame (popMove_knowsFin h hget'))
  | false =>
    rw [hmore] at h
    apply ReflTransGen.tail (hmoved.trans (changes_sleep ?_))
    · exact .note frame (popMove_knowsFin h hget')
    · intro v hv
      cases hget'.symm.trans hv
      exact popMove_idle h

theorem changes_popReady (budget : Nat) (out : List UInt8) (n : Nat) (s : Streams) :
    Changes g s (popReady budget out n s).2.1 := by
  induction n generalizing s with
  | zero => exact .refl
  | succ n ih =>
    simp only [popReady]
    cases hq : s.readyToSend with
    | nil => exact .refl
    | cons id rest =>
      have hrotate : Changes g s (s.rotate id rest) := .single (.rotate hq)
      have hmap : (s.dequeue id rest).map = s.map := rfl
      simp only [hmap]
      cases hget : s.map.get? id with
      | none =>
        apply (hrotate.trans (changes_sleep _)).trans (ih _)
        intro v hv
        cases hget.symm.trans hv
      | some stream =>
        have houtcome := popStreamFrame_outcome g stream id budget out
        simp only
        generalize popStreamFrame stream id budget out = result at houtcome
        obtain ⟨pop,stream',out'⟩ := result
        cases pop with
        | frame frame more => exact changes_pop hq hget houtcome
        | noRoom =>
          simp only [enqueueReady_dequeue]
          exact hrotate.trans (ih _)
        | idle =>
          apply (hrotate.trans (changes_sleep _)).trans (ih _)
          intro v hv
          cases hget.symm.trans hv
          exact .inl houtcome

private theorem popDue_eq_some {due : Bool} {s' : Streams} {budget : Nat}
    {r : PoppedFrame × Streams} (h : popDue due frame s' budget = some r) : r = (frame, s') := by
  unfold popDue at h
  split_ifs at h
  exact (Option.some.inj h).symm

theorem changes_popConnFrame {s' : Streams} {budget : Nat}
    (h : s.popConnFrame budget = some (frame, s')) : Changes g s (s'.notePopped frame) := by
  have hnote : ∀ {t : Streams} {f : PoppedFrame}, f.controlHint.isSome = true →
      Change g t (t.notePopped f) := by
    intro t f hf
    apply Change.note
    intro i offset len hframe
    rw [hframe] at hf
    cases hf
  have hadmin : ∀ {t u : Streams} {f : PoppedFrame}, Changes g s t → u.core = t.core →
      f.controlHint.isSome = true → Changes g s (u.notePopped f) :=
    fun ht hu hf => (ht.trans (changes_admin hu)).tail (hnote hf)
  rcases (orElse_eq_some ..).mp h with h | ⟨-,h⟩
  · cases popDue_eq_some h
    exact hadmin (.single .announceConn) rfl rfl
  rcases (orElse_eq_some ..).mp h with h | ⟨-,h⟩
  · cases popDue_eq_some h
    exact hadmin (.single (.announceStreams .bidi)) rfl rfl
  rcases (orElse_eq_some ..).mp h with h | ⟨-,h⟩
  · cases popDue_eq_some h
    exact hadmin (.single (.announceStreams .uni)) rfl rfl
  rcases (orElse_eq_some ..).mp h with h | ⟨-,h⟩
  · cases popDue_eq_some h
    exact hadmin .refl rfl rfl
  rcases (orElse_eq_some ..).mp h with h | ⟨-,h⟩ <;> cases popDue_eq_some h
  · exact hadmin .refl rfl rfl
  · exact hadmin .refl rfl rfl

theorem changes_popFrameInto (s : Streams) (budget : Nat) (out : List UInt8) :
    Changes g s (s.popFrameInto budget out).2.1 := by
  unfold popFrameInto
  cases h : s.popConnFrame budget with
  | none => exact changes_popReady budget out _ s
  | some r => exact changes_popConnFrame h
end Packer
section Application
variable (s id)
theorem changes_openBidi : Changes g s s.openBidi.2 := by
  unfold openBidi
  split_ifs
  · exact changes_admin rfl
  · have hopen : Change g s _ := .openLocal .bidi
      (.bidi s.peerInitialMaxStreamDataBidiRemote s.selfInitialMaxStreamDataBidiLocal)
    exact (ReflTransGen.single hopen).tail (.admin rfl)

theorem changes_openUni : Changes g s s.openUni.2 := by
  unfold openUni
  split_ifs
  · exact changes_admin rfl
  · have hopen : Change g s _ := .openLocal .uni (.send s.peerInitialMaxStreamDataUni)
    exact (ReflTransGen.single hopen).tail (.admin rfl)

theorem changes_write (data : List UInt8) : Changes g s (s.write id data).2 := by
  unfold write
  split
  · exact .refl
  next send hget =>
    simp only
    by_cases hclosed : (send.state ≠ .ready ∧ send.state ≠ .send) ∨ send.finOffset.isSome = true
    · rw [if_pos hclosed]
    rw [if_neg hclosed]
    have hfin : send.finOffset = none := by
      simpa using fun h => hclosed (.inr h)
    have hblocked : ∀ d, Changes g s { s with dataBlockedAt := d } := fun d => changes_admin rfl
    generalize min (s.connSendMax - s.connSendUsed) data.length = cap
    generalize s.connSendMax - s.connSendUsed = connRoom
    by_cases hcap : cap = 0
    · obtain ⟨d,hd⟩ : ∃ d, (if connRoom = 0 then { s with dataBlockedAt := some s.connSendMax }
          else s) = { s with dataBlockedAt := d } := by
        split_ifs
        · exact ⟨_,rfl⟩
        · exact ⟨s.dataBlockedAt,rfl⟩
      rw [hd]
      split_ifs
      · exact (hblocked d).trans (changes_wake_send (n := 0) hget (.block _))
      · exact hblocked d
    · rw [if_neg hcap]
      have hmove : ∀ blocked, SendMove g send
          { (send.enqueue (data.take cap)).2 with blockedAt := blocked }
          (send.enqueue (data.take cap)).1 := fun blocked => .write (data.take cap) blocked hfin
      generalize send.enqueue (data.take cap) = result at hmove
      obtain ⟨streamTake,send'⟩ := result
      by_cases hzero : streamTake = 0
      · subst hzero
        exact changes_wake_send hget (hmove _)
      · rw [if_neg hzero]
        obtain ⟨d,hd⟩ : ∃ d, (if cap < data.length ∧ connRoom = cap then { s with
              connSendUsed := s.connSendUsed + streamTake, dataBlockedAt := some s.connSendMax }
            else { s with connSendUsed := s.connSendUsed + streamTake }) =
              { s with connSendUsed := s.connSendUsed + streamTake, dataBlockedAt := d } := by
          split_ifs
          · exact ⟨_,rfl⟩
          · exact ⟨s.dataBlockedAt,rfl⟩
        obtain ⟨blocked,hb⟩ : ∃ blocked, (if streamTake < cap then
            { send' with blockedAt := some send'.peerMaxData } else send') =
              { send' with blockedAt := blocked } := by
          split_ifs
          · exact ⟨_,rfl⟩
          · exact ⟨send'.blockedAt,rfl⟩
        rw [hd,hb]
        exact (hblocked d).trans (changes_wake_send hget (hmove blocked))

theorem changes_finish : Changes g s (s.finish id).2 := by
  unfold finish
  split
  · exact .refl
  next send hget =>
    split_ifs with hclosed
    · exact .refl
    · exact changes_wake_send hget (.finish (not_or.mp hclosed))

theorem changes_reset (appError : Nat) (hguard : ∀ send, s.sendHalf id = some send → g.reset send) :
    Changes g s (s.reset id appError).2 := by
  unfold reset
  split
  · exact .refl
  next send hget => exact changes_wake_send hget (.reset appError (hguard send hget))

theorem changes_stopSending (appError : Nat) : Changes g s (s.stopSending id appError).2 := by
  unfold stopSending
  split
  · exact .refl
  next recv hget => exact changes_wake_recv hget (.stop appError)

theorem changes_read (len : Nat) : Changes g s (s.read id len).2 := by
  unfold read
  split
  · exact .refl
  next recv hget =>
    cases hread : recv.ackReset.read len with
    | mk result recv' =>
      obtain ⟨bytes,fin⟩ := result
      refine ReflTransGen.trans ?_ (changes_reapIfTerminal _ id)
      by_cases hgrant : (credit recv' bytes.length).maxData <
          (replenishStream (credit recv' bytes.length)).maxData
      · rw [if_pos hgrant]
        apply ReflTransGen.tail (.single (.wake id))
        have hawake : (s.enqueueReady id).recvHalf id = some recv := by
          rw [recvHalf,map_enqueueReady]
          exact hget
        exact .read hawake hread rfl (fun _ => mem_readySet_enqueueReady s id)
      · rw [if_neg hgrant]
        exact .single (.read hget hread rfl (fun h => absurd h hgrant))
end Application
section Frames
private theorem recvHalf_openRemote {recv : RecvStream}
    (h : (s.openRemote id).recvHalf id = some recv) : ∃ n, recv = .new n := by
  rw [recvHalf,map_openRemote,SortedMap.get?_insert_self] at h
  exact (newRemote_isFresh s id).recv_new h

private theorem sendHalf_openRemote {send : SendStream}
    (h : (s.openRemote id).sendHalf id = some send) : ∃ n, send = .new n := by
  rw [sendHalf,map_openRemote,SortedMap.get?_insert_self] at h
  exact (newRemote_isFresh s id).send_new h
variable {offset appError finalSize : Nat}
theorem changes_onStreamLive {fin : Bool} {data : List UInt8}
    (hguard : ∀ recv, s.recvHalf id = some recv → g.data recv offset data fin) :
    Changes g s (s.onStreamLive id offset fin data).2 := by
  simp only [onStreamLive]
  split_ifs with hroom
  · exact .refl
  split
  · exact .refl
  next recv hget =>
    cases hdata : recv.onData offset data fin with
    | mk result recv' =>
      cases result with
      | error e =>
        have hsame : recv' = recv := by
          rcases recv.onData_cases offset data fin with ⟨e',h⟩ | ⟨-,h,-⟩ | ⟨-,-,h⟩
          all_goals
            rw [h] at hdata
            cases hdata
          rfl
        rw [hsame]
        simp only [setRecv_self hget]
        exact .refl
      | ok n =>
        refine ReflTransGen.trans (.single ?_) (changes_reapIfTerminal _ id)
        apply Change.frame hget (hguard recv hget) hdata rfl rfl
        intro hpos
        by_contra hlt
        exact hroom ⟨hpos,not_le.mp hlt⟩

theorem changes_onResetLive (hguard : ∀ recv, s.recvHalf id = some recv → g.peerReset recv finalSize) :
    Changes g s (s.onResetLive id appError finalSize).2 := by
  simp only [onResetLive]
  split_ifs with hhigh hroom
  · exact .refl
  · exact .refl
  split
  · exact .refl
  next recv hget =>
    cases hreset : recv.onReset appError finalSize with
    | mk result recv' =>
      cases result with
      | error e =>
        have hsame : recv' = recv := by
          rcases recv.onReset_cases appError finalSize with
            ⟨e',h⟩ | ⟨-,-,-,-,⟨-,h⟩ | ⟨-,h⟩⟩
          all_goals
            rw [h] at hreset
            cases hreset
          rfl
        rw [hsame]
        simp only [setRecv_self hget]
        exact .refl
      | ok u =>
        refine ReflTransGen.trans (.single ?_) (changes_reapIfTerminal _ id)
        exact .peerReset hget (hguard recv hget) hreset (not_lt.mp hhigh) rfl (not_lt.mp hroom)

theorem changes_onStream {fin : Bool} {data : List UInt8}
    (hguard : ∀ recv, s.recvHalf id = some recv → g.data recv offset data fin) :
    Changes g s (s.onStream id offset fin data).2 := by
  unfold onStream
  rcases s.ensureRemoteStreamExists_cases (g := g) id with ⟨e,h⟩ | h | h | ⟨h,-,hopen⟩ <;> rw [h]
  · simp only
    split_ifs <;> exact .refl
  · exact changes_onStreamLive hguard
  · apply (ReflTransGen.single hopen).trans (changes_onStreamLive _)
    intro recv hrecv
    obtain ⟨n,rfl⟩ := recvHalf_openRemote hrecv
    exact g.data_new n offset data fin

theorem changes_onReset (hguard : ∀ recv, s.recvHalf id = some recv → g.peerReset recv finalSize) :
    Changes g s (s.onReset id appError finalSize).2 := by
  unfold onReset
  rcases s.ensureRemoteStreamExists_cases (g := g) id with ⟨e,h⟩ | h | h | ⟨h,-,hopen⟩ <;> rw [h]
  · exact changes_onResetLive hguard
  · apply (ReflTransGen.single hopen).trans (changes_onResetLive _)
    intro recv hrecv
    obtain ⟨n,rfl⟩ := recvHalf_openRemote hrecv
    exact g.peerReset_new n finalSize

theorem changes_onSendHalfFrame {act : Streams → SendStream → Streams} (hact : ∀ t send, t.sendHalf id = some send →
      (s.sendHalf id = some send ∨ ∃ n, send = .new n) → Changes g t (act t send)) :
    Changes g s (s.onSendHalfFrame id act).2 := by
  unfold onSendHalfFrame
  split_ifs
  · exact .refl
  rcases s.ensureRemoteStreamExists_cases (g := g) id with ⟨e,h⟩ | h | h | ⟨h,-,hopen⟩ <;> rw [h]
  · simp only
    split
    · exact .refl
    next send hget => exact hact s send hget (.inl hget)
  · simp only
    cases hget : (s.openRemote id).sendHalf id with
    | none => exact .single hopen
    | some send =>
      exact (ReflTransGen.single hopen).trans
        (hact _ send hget (.inr (sendHalf_openRemote hget)))

theorem changes_onStopSending (hguard : ∀ send, s.sendHalf id = some send → g.reset send) :
    Changes g s (s.onStopSending id appError).2 := by
  apply changes_onSendHalfFrame
  intro t send hget horigin
  apply changes_wake_send (n := 0) hget
  apply SendMove.reset
  rcases horigin with h | ⟨n,rfl⟩
  · exact hguard send h
  · exact g.reset_new n
section
variable (limit : Nat)
theorem changes_onMaxStreamData : Changes g s (s.onMaxStreamData id limit).2 := by
  apply changes_onSendHalfFrame
  intro t send hget _
  split_ifs
  · apply changes_send hget (.raise limit _)
    rw [SendStream.needsToSend_eq_true_iff,SendStream.needsToSend_eq_true_iff]
    refine Or.imp_right (Or.imp_right (Or.imp_right (Or.imp_right ?_)))
    intro h
    cases hb : send.blockedAt with
    | none => simp [hb] at h
    | some prev => rfl
  · exact .refl

theorem changes_onMaxData : Changes g s (s.onMaxData limit) := by
  unfold onMaxData
  split_ifs
  · exact changes_admin rfl
  · exact .refl

theorem changes_onDataBlocked : Changes g s (s.onDataBlocked limit) := by
  unfold onDataBlocked
  split_ifs
  · exact changes_admin rfl
  · exact .refl

theorem changes_onStreamDataBlocked : Changes g s (s.onStreamDataBlocked id limit) := by
  unfold onStreamDataBlocked
  split
  · exact .refl
  next recv hget =>
    split_ifs
    · exact changes_wake_recv hget .announce
    · exact .refl
end
theorem changes_onMaxStreams (dir : StreamDir) (limit : Nat) : Changes g s (s.onMaxStreams dir limit) := by
  cases dir with
  | bidi | uni =>
    simp only [onMaxStreams]
    split_ifs
    · exact changes_admin rfl
    · exact .refl
end Frames
section Recovery
theorem changes_onChunkAcked {offset len : Nat} {fin : Bool}
    (hguard : ∀ send, s.sendHalf id = some send → g.acked send fin) :
    Changes g s (s.onChunkAcked id offset len fin) := by
  refine ReflTransGen.trans ?_ (changes_reapIfTerminal _ id)
  cases hget : s.sendHalf id with
  | none => exact .refl
  | some send =>
    exact changes_send hget (.acked offset len fin (hguard send hget))
      SendStream.needsToSend_of_onRangeAcked

theorem changes_onChunkLost (offset len : Nat) (fin : Bool) : Changes g s (s.onChunkLost id offset len fin) := by
  unfold onChunkLost
  cases hget : s.sendHalf id with
  | none => exact .refl
  | some send =>
    have hmove : SendMove g send _ 0 := .lost offset len fin
    simp only
    split_ifs with hmoved
    · exact changes_wake_send hget hmove
    · exact changes_send hget hmove
        (SendStream.needsToSend_of_onRangeLost (Bool.not_eq_true _ ▸ hmoved))

theorem changes_onControlLost (hint : ControlHint) : Changes g s (s.onControlLost hint) := by
  cases hint with
  | resetStream id =>
    simp only [onControlLost]
    cases hget : s.sendHalf id with
    | none => exact .refl
    | some send =>
      have hmove : SendMove g send _ 0 := .resetLost
      simp only
      split_ifs with hqueued
      · exact changes_wake_send hget hmove
      · apply changes_send hget hmove
        rw [SendStream.onResetLost_of_not_queued (Bool.not_eq_true _ ▸ hqueued)]
        exact fun h => h
  | stopSending id code =>
    simp only [onControlLost]
    cases hget : s.recvHalf id with
    | none => exact .refl
    | some recv =>
      simp only
      split_ifs
      · exact changes_wake_recv hget (.stopAgain code)
      · exact .refl
  | maxData limit | dataBlocked limit =>
    simp only [onControlLost]
    split_ifs
    · exact changes_admin rfl
    · exact .refl
  | maxStreamData id limit =>
    simp only [onControlLost]
    cases hget : s.recvHalf id with
    | none => exact .refl
    | some recv =>
      simp only
      split_ifs
      · exact changes_wake_recv hget .announce
      · exact .refl
  | streamDataBlocked id limit =>
    simp only [onControlLost]
    cases hget : s.sendHalf id with
    | none => exact .refl
    | some send =>
      simp only
      split_ifs
      · exact changes_wake_send (n := 0) hget (.block limit)
      · exact .refl
  | maxStreams dir limit =>
    simp only [onControlLost]
    split_ifs
    · cases dir <;> exact changes_admin rfl
    · exact .refl
  | streamsBlocked dir limit =>
    cases dir <;>
    · simp only [onControlLost]
      split_ifs
      · exact changes_admin rfl
      · exact .refl

theorem changes_onControlAcked (hint : ControlHint) : Changes g s (s.onControlAcked hint) := by
  cases hint with
  | resetStream id =>
    refine ReflTransGen.trans ?_ (changes_reapIfTerminal _ id)
    cases hget : s.sendHalf id with
    | none => exact .refl
    | some send =>
      apply changes_send hget .resetAcked
      rw [SendStream.needsToSend_onResetAcked]
      exact fun h => h
  | _ => exact .refl
variable (s)
theorem changes_requeueUnacked (id : Nat) : Changes g s (s.requeueUnacked id) := by
  unfold requeueUnacked
  cases hget : s.sendHalf id with
  | none => exact .refl
  | some send =>
    simp only
    split_ifs
    · exact changes_wake_send (n := 0) hget .requeue
    · exact .refl

theorem changes_requeueAllUnacked : Changes g s s.requeueAllUnacked := by
  unfold requeueAllUnacked
  generalize s.map.keys = keys
  induction keys generalizing s with
  | nil => exact .refl
  | cons id keys ih => exact (changes_requeueUnacked s id).trans (ih _)

theorem changes_adoptPeerLimits (peer : TransportParameters) : Changes g s (s.adoptPeerLimits peer).2 := by
  simp only [adoptPeerLimits]
  split_ifs
  · exact .refl
  · have hraise : Change g s _ := .raiseAll (fun id => if id % 4 = 2 ∨ id % 4 = 3 then
      peer.initialMaxStreamDataUni.getD 0 else peer.initialMaxStreamDataBidiRemote.getD 0)
    exact (ReflTransGen.single hraise).tail (.admin rfl)
end Recovery
/-- The guard of the moves an operation makes. -/
def Allows (g : Guard) (s : Streams) : StreamsOp → Prop
  | .reset id _ => ∀ send, s.sendHalf id = some send → g.reset send
  | .onStopSending id _ => ∀ send, s.sendHalf id = some send → g.reset send
  | .onStream id offset fin data => ∀ recv, s.recvHalf id = some recv → g.data recv offset data fin
  | .onReset id _ finalSize => ∀ recv, s.recvHalf id = some recv → g.peerReset recv finalSize
  | .onChunkAcked id _ _ fin => ∀ send, s.sendHalf id = some send → g.acked send fin
  | _ => True

theorem changes_step {op : StreamsOp} (h : Allows g s op) : Changes g s (s.step op) := by
  cases op with
  | openBidi => exact changes_openBidi s
  | openUni => exact changes_openUni s
  | write id data => exact changes_write s id data
  | finish id => exact changes_finish s id
  | reset id appError => exact changes_reset s id appError h
  | stopSending id appError => exact changes_stopSending s id appError
  | read id len => exact changes_read s id len
  | onStream id offset fin data => exact changes_onStream h
  | onReset id appError finalSize => exact changes_onReset h
  | onStopSending id appError => exact changes_onStopSending h
  | onMaxData limit => exact changes_onMaxData limit
  | onMaxStreamData id limit => exact changes_onMaxStreamData limit
  | onDataBlocked limit => exact changes_onDataBlocked limit
  | onStreamDataBlocked id limit => exact changes_onStreamDataBlocked limit
  | onMaxStreams dir limit => exact changes_onMaxStreams dir limit
  | popFrame budget => exact changes_popFrameInto s budget []
  | onChunkAcked id offset len fin => exact changes_onChunkAcked h
  | onChunkLost id offset len fin => exact changes_onChunkLost offset len fin
  | onControlLost hint => exact changes_onControlLost hint
  | onControlAcked hint => exact changes_onControlAcked hint
  | requeueAllUnacked => exact changes_requeueAllUnacked s
  | adoptPeerLimits peer => exact changes_adoptPeerLimits s peer

theorem invariant_run {g : Guard} {Inv : Streams → Prop}
    (hchange : ∀ s s', Inv s → Change g s s' → Inv s') {s : Streams} {ops : List StreamsOp}
    (hallows : Trace.Along step (Allows g) s ops) (h : Inv s) : Inv (Trace.run step s ops) := by
  apply hallows.invariant _ h
  intro s op hs hop
  have hsteps := changes_step hop
  generalize s.step op = s' at hsteps
  induction hsteps with
  | refl => exact hs
  | tail _ hlast ih => exact hchange _ _ ih hlast

theorem allows_any (s : Streams) (ops : List StreamsOp) : Trace.Along step (Allows .any) s ops := by
  induction ops generalizing s with
  | nil => trivial
  | cons op ops ih =>
    refine ⟨?_,ih _⟩
    cases op <;> simp [Allows,Guard.any]
end Streams
end PureCrypto.Quic
