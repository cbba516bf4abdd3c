import PureCrypto.Quic.Reassembly
import PureCrypto.Quic.StreamsChanges

/-! # Invariants of the halves -/
namespace PureCrypto.Quic
open List Option
/-- The last argument of `data` and `reset` is the credit returned to the connection so far. -/
inductive RecvMove (g : Guard) (recv : RecvStream) : RecvStream → Prop
  | flag {recv' : RecvStream} (h : RecvFlag recv recv') : RecvMove g recv recv'
  | data {offset : Nat} {data : List UInt8} {fin : Bool} {n : Nat} {recv' : RecvStream}
      (hguard : g.data recv offset data fin)
      (h : recv.onData offset data fin = (.ok n, recv')) (c : Nat) :
      RecvMove g recv { recv' with connFcCredited := c }
  | reset {code finalSize : Nat} {recv' : RecvStream} (hguard : g.peerReset recv finalSize)
      (h : recv.onReset code finalSize = (.ok (), recv')) (c : Nat) :
      RecvMove g recv { recv' with connFcCredited := c }
  | read {len : Nat} {bytes : List UInt8} {fin : Bool} {recv' : RecvStream}
      (h : recv.ackReset.read len = ((bytes, fin), recv')) :
      RecvMove g recv (Streams.replenishStream (Streams.credit recv' bytes.length))
namespace Streams
/-- What a change does to the table of streams. -/
inductive MapChange (g : Guard) (s s' : Streams) : Prop
  | same (h : s'.map = s.map)
  | insert (id : Nat) (stream : Stream) (hfresh : stream.IsFresh)
      (hnew : s.map.get? id = none ∨ ∃ dir, id = s.nextLocal dir)
      (h : s'.map = s.map.insert id stream)
  | send (id : Nat) (send send' : SendStream) (n : Nat) (hget : s.sendHalf id = some send)
      (hmove : SendMove g send send' n) (h : s'.map = (s.setSend id send').map)
  | recv (id : Nat) (recv recv' : RecvStream) (hget : s.recvHalf id = some recv)
      (hmove : RecvMove g recv recv') (h : s'.map = (s.setRecv id recv').map)
  | raise (limit : Nat → Nat) (h : s'.map = (s.raiseAll limit).map)
  | erase (id : Nat) (stream : Stream)
      (hretired : s'.history.retired = (id, stream) :: s.history.retired)
      (h : s'.map = s.map.erase id)

theorem mapChange_of_change {g : Guard} {s s' : Streams} (h : Change g s s') : MapChange g s s' := by
  cases h with
  | admin h => exact .same (congrArg Streams.map h :)
  | announceStreams dir => exact .same (map_setPeerStreams _ _ _)
  | openLocal dir h => exact .insert _ _ h (.inr ⟨dir,rfl⟩) (map_insertLocal s dir _)
  | openRemote id hpeer hnew hopen hmax =>
    exact .insert id _ (newRemote_isFresh s id) (.inl hnew) (map_openRemote s id)
  | wake id => exact .same (map_enqueueReady s id)
  | send hget hmove hready => exact .send _ _ _ _ hget hmove rfl
  | raiseAll limit => exact .raise limit rfl
  | recvFlag hget hmove hready => exact .recv _ _ _ hget (.flag hmove) rfl
  | @frame id _ _ _ _ recv' _ hget hguard hdata frameEnd newHigh hend hnew hroom =>
    obtain ⟨-,c,hc⟩ := (accepts_acceptFrame s id frameEnd newHigh recv').refreshed
    exact .recv _ _ _ hget (.data hguard hdata c) hc
  | @peerReset id _ finalSize recv recv' hget hguard hreset newHigh hhigh hnew hroom =>
    obtain ⟨-,c,hc⟩ := (accepts_acceptReset s id finalSize newHigh recv.isReset recv').refreshed
    exact .recv _ _ _ hget (.reset hguard hreset c) hc
  | read hget hread hgrant hready =>
    subst hgrant
    exact .recv _ _ _ hget (.read hread) (by rw [map_refreshReadable,map_consume])
  | reap hpeer hget hend => exact .erase _ _ (retired_reap s _ _) (map_reap s _ _)
  | _ => exact .same rfl
section Halves
variable {s : Streams} {id j : Nat}
theorem recvHalf_setSend (send : SendStream) : (s.setSend id send).recvHalf j = s.recvHalf j := by
  unfold recvHalf
  rw [setSend,s.map.get?_modify]
  split_ifs with hj
  · rw [hj]
    cases s.map.get? id <;> rfl
  · rfl

theorem recvHalf_setRecv {recv recv' : RecvStream} (h : s.recvHalf id = some recv) :
    (s.setRecv id recv').recvHalf j = if j = id then some recv' else s.recvHalf j := by
  obtain ⟨stream,hget,-⟩ := recvHalf_eq_some_iff.mp h
  unfold recvHalf
  rw [setRecv,s.map.get?_modify]
  split_ifs with hj
  · rw [hget]
    rfl
  · rfl

theorem recvHalf_raiseAll (limit : Nat → Nat) : (s.raiseAll limit).recvHalf j = s.recvHalf j := by
  unfold recvHalf raiseAll
  rw [s.map.get?_mapVal]
  cases s.map.get? j <;> rfl
end Halves
/-- The half of a stream that `half` reads stays as it is or makes a move. -/
def Moves {H : Type} (half : Stream → Option H) (Move : H → H → Prop) (stream stream' : Stream) : Prop :=
  half stream' = half stream ∨ ∃ old new, half stream = some old ∧ half stream' = some new ∧ Move old new

/-- What a change does to the half of stream `id`. -/
inductive HalfChange {H : Type} (half : Stream → Option H) (Move : H → H → Prop) (New : H → Prop)
    (s s' : Streams) (id : Nat) : Prop
  | same (h : (s'.map.get? id).bind half = (s.map.get? id).bind half)
  | moved (old new : H) (hold : (s.map.get? id).bind half = some old)
      (hnew : (s'.map.get? id).bind half = some new) (hmove : Move old new)
  | opened (hopened : s.map.get? id = none ∨ ∃ dir, id = s.nextLocal dir)
      (hnew : ∀ new, (s'.map.get? id).bind half = some new → New new)
  | retired (h : s'.map.get? id = none) (hid : id ∈ s'.history.retired.map Prod.fst)
section HalfChange
variable {g : Guard} {s s' : Streams} {id : Nat} {H : Type} {half : Stream → Option H} {Move : H → H → Prop}
  {New : H → Prop}
/-- It is enough to say what opening a stream and the moves of its two halves do to the half. -/
theorem halfChange (hc : MapChange g s s') (id : Nat)
    (hfresh : ∀ stream new, stream.IsFresh → half stream = some new → New new)
    (hsend : ∀ stream send send' n, stream.send = some send → SendMove g send send' n →
      Moves half Move stream { stream with send := some send' })
    (hrecv : ∀ stream recv recv', stream.recv = some recv → RecvMove g recv recv' →
      Moves half Move stream { stream with recv := some recv' }) :
    HalfChange half Move New s s' id := by
  have hsame : s'.map.get? id = s.map.get? id → HalfChange half Move New s s' id := fun h => .same (by rw [h])
  have hmoved : ∀ {stream stream'}, s.map.get? id = some stream → s'.map.get? id = some stream' →
      Moves half Move stream stream' → HalfChange half Move New s s' id := by
    rintro stream stream' hget hget' (heq | ⟨old,new,hold,hnew,hmove⟩)
    · exact .same (by rw [hget,hget',bind_some,bind_some,heq])
    · exact .moved old new (by rwa [hget]) (by rwa [hget']) hmove
  have hmodified : ∀ {j stream} f, s.map.get? j = some stream → s'.map = s.map.modify j f →
      Moves half Move stream (f stream) → HalfChange half Move New s s' id := by
    intro j stream f hget hmap hmoves
    have hmodify := s.map.get?_modify j id f
    rw [← hmap] at hmodify
    split_ifs at hmodify with hj
    · exact hmoved (hj ▸ hget) (hmodify.trans (by rw [hget]; rfl)) hmoves
    · exact hsame hmodify
  cases hc with
  | same hmap => exact hsame (by rw [hmap])
  | insert j stream hopens hopened hmap =>
    by_cases hj : id = j
    · subst hj
      refine .opened hopened fun new hget => ?_
      rw [hmap,s.map.get?_insert_self] at hget
      exact hfresh stream new hopens hget
    · exact hsame (by rw [hmap,s.map.get?_insert_ne stream hj])
  | send j send send' n hget hmove hmap =>
    obtain ⟨stream,hstream,hhalf⟩ := sendHalf_eq_some_iff.mp hget
    exact hmodified ({ · with send := some send' }) hstream hmap (hsend stream send send' n hhalf hmove)
  | recv j recv recv' hget hmove hmap =>
    obtain ⟨stream,hstream,hhalf⟩ := recvHalf_eq_some_iff.mp hget
    exact hmodified ({ · with recv := some recv' }) hstream hmap (hrecv stream recv recv' hhalf hmove)
  | raise limit hmap =>
    cases hget : s.map.get? id with
    | none => exact hsame (by rw [hmap,raiseAll,s.map.get?_mapVal,hget]; rfl)
    | some stream =>
      refine hmoved hget (by rw [hmap,raiseAll,s.map.get?_mapVal,hget]; rfl) ?_
      obtain ⟨_ | send,recv⟩ := stream
      · exact .inl rfl
      · simp only [map_some]
        split_ifs
        · exact hsend ⟨some send,recv⟩ send _ 0 rfl (.raise (limit id) send.blockedAt)
        · exact .inl rfl
  | erase j stream hretired hmap =>
    by_cases hj : id = j
    · subst hj
      exact .retired (by rw [hmap,s.map.get?_erase,if_pos rfl]) (hretired ▸ mem_cons_self)
    · exact hsame (by rw [hmap,s.map.get?_erase_ne hj])

theorem recvHalf_change (hc : MapChange g s s') (id : Nat) :
    HalfChange Stream.recv (RecvMove g) (∃ n, · = .new n) s s' id :=
  halfChange hc id (fun _ _ h => h.recv_new) (fun _ _ _ _ _ _ => .inl rfl)
    fun _ recv recv' h hmove => .inr ⟨recv,recv',h,rfl,hmove⟩

theorem sendHalf_change (hc : MapChange g s s') (id : Nat) :
    HalfChange Stream.send (fun old new => ∃ n, SendMove g old new n) (∃ n, · = .new n) s s' id :=
  halfChange hc id (fun _ _ h => h.send_new) (fun _ send send' n h hmove => .inr ⟨send,send',h,rfl,n,hmove⟩)
    fun _ _ _ _ _ => .inl rfl

theorem HalfChange.every {P : H → Prop} (h : HalfChange half Move New s s' id) (hnew : ∀ x, New x → P x)
    (hmove : ∀ old new, Move old new → P old → P new)
    (hold : ∀ x, (s.map.get? id).bind half = some x → P x) (x : H) (hx : (s'.map.get? id).bind half = some x) :
    P x := by
  cases h with
  | same h => exact hold x (h.symm.trans hx)
  | moved old new hget hget' hm =>
    cases hget'.symm.trans hx
    exact hmove old x hm (hold old hget)
  | opened _ h => exact hnew x (h x hx)
  | retired h _ =>
    rw [h] at hx
    cases hx
end HalfChange
def EverySend (P : SendStream → Prop) (s : Streams) : Prop :=
  ∀ id send, s.sendHalf id = some send → P send

def EveryRecv (P : RecvStream → Prop) (s : Streams) : Prop :=
  ∀ id recv, s.recvHalf id = some recv → P recv

theorem EverySend.change {g : Guard} {P : SendStream → Prop} (hnew : ∀ n, P (.new n))
    (hmove : ∀ send send' n, P send → SendMove g send send' n → P send') {s s' : Streams}
    (h : EverySend P s) (hc : Change g s s') : EverySend P s' := by
  intro id
  refine (sendHalf_change (mapChange_of_change hc) id).every ?_ ?_ (h id)
  · rintro _ ⟨n,rfl⟩
    exact hnew n
  · rintro send send' ⟨n,hm⟩ hsend
    exact hmove send send' n hsend hm

theorem EveryRecv.change {g : Guard} {P : RecvStream → Prop} (hnew : ∀ n, P (.new n))
    (hmove : ∀ recv recv', P recv → RecvMove g recv recv' → P recv') {s s' : Streams}
    (h : EveryRecv P s) (hc : Change g s s') : EveryRecv P s' := by
  intro id
  refine (recvHalf_change (mapChange_of_change hc) id).every ?_ (fun recv recv' hm hrecv => hmove recv recv' hrecv hm)
    (h id)
  rintro _ ⟨n,rfl⟩
  exact hnew n

theorem everySend_new (P : SendStream → Prop) (role : Role) (our peer : TransportParameters) :
    EverySend P (Streams.new role our peer) := by
  intro id send h
  cases h

theorem everyRecv_new (P : RecvStream → Prop) (role : Role) (our peer : TransportParameters) :
    EveryRecv P (Streams.new role our peer) := by
  intro id recv h
  cases h

/-- Add up a measure of the live streams and of the retired ones as they were. -/
def total (f : Stream → Nat) (s : Streams) : Nat :=
  s.map.sum (fun _ stream => f stream) + (s.history.retired.map (fun e => f e.2)).sum
section Total
variable {f : Stream → Nat} {s s' : Streams} {id : Nat} {stream : Stream}
theorem total_congr (hmap : s'.map = s.map) (hretired : s'.history.retired = s.history.retired) :
    total f s' = total f s := by
  rw [total,hmap,hretired,total]

theorem total_insert (hnew : s.map.get? id = none) (hmap : s'.map = s.map.insert id stream)
    (hretired : s'.history.retired = s.history.retired) : total f s' = f stream + total f s := by
  rw [total,hmap,hretired,s.map.sum_insert_new stream _ hnew,total,add_assoc]

private theorem total_modify (h : Stream → Stream) (hget : s.map.get? id = some stream)
    (hmap : s'.map = s.map.modify id h) (hretired : s'.history.retired = s.history.retired) :
    total f s' + f stream = total f s + f (h stream) := by
  have hsum := s.map.sum_modify h (fun _ stream => f stream) hget
  rw [total,total,hmap,hretired]
  omega

theorem total_setSend {send : SendStream} (hget : s.map.get? id = some stream)
    (hmap : s'.map = (s.setSend id send).map) (hretired : s'.history.retired = s.history.retired) :
    total f s' + f stream = total f s + f { stream with send := some send } :=
  total_modify (fun stream => { stream with send := some send }) hget hmap hretired

theorem total_setRecv {recv : RecvStream} (hget : s.map.get? id = some stream)
    (hmap : s'.map = (s.setRecv id recv).map) (hretired : s'.history.retired = s.history.retired) :
    total f s' + f stream = total f s + f { stream with recv := some recv } :=
  total_modify (fun stream => { stream with recv := some recv }) hget hmap hretired

theorem total_raiseAll (limit : Nat → Nat)
    (hf : ∀ send recv n, f ⟨some { send with peerMaxData := n }, recv⟩ = f ⟨some send,recv⟩) :
    total f (s.raiseAll limit) = total f s := by
  unfold total raiseAll
  rw [s.map.sum_mapVal]
  congr 2
  funext id stream
  obtain ⟨send,recv⟩ := stream
  cases send with
  | none => rfl
  | some send =>
    simp only [map_some]
    split_ifs
    · exact hf send recv (limit id)
    · rfl

theorem total_add (f g : Stream → Nat) (s : Streams) :
    total (fun stream => f stream + g stream) s = total f s + total g s := by
  rw [total,s.map.sum_add,sum_map_add]
  exact Nat.add_add_add_comm _ _ _ _

theorem total_reap (hget : s.map.get? id = some stream) :
    total f ((s.retire id stream).maybeReplenishStreams (dirOf id)) = total f s := by
  have hsum := s.map.sum_eq_add_erase (fun _ stream => f stream) hget
  rw [total,total,map_reap,retired_reap,map_cons,hsum,add_assoc]
  exact add_left_comm _ _ _
end Total
end Streams
end PureCrypto.Quic
