import PureCrypto.Quic.RecvCredit

/-! # Terminal states -/
namespace PureCrypto.Quic
open List
/-- Nothing revives a half that is done. -/
def Guard.settled : Guard where
  reset := fun send => send.state ≠ .dataRecvd ∧ send.state ≠ .resetRecvd ∧
    (send.finOffset = some send.writeOff → send.finSent = true)
  acked := fun send fin => fin = true → send.finSent = true
  data := fun recv offset data fin => recv.state = .dataRead → recv.stopSendingSent = false →
    recv.finOffset = some (offset + data.length) → fin = false ∧ data ≠ []
  peerReset := fun recv finalSize => recv.state = .dataRead → recv.finOffset ≠ some finalSize
  reset_new := fun _ => ⟨SendState.noConfusion, SendState.noConfusion, nofun⟩
  data_new := nofun
  peerReset_new := nofun
namespace RecvStream
/-- The application has seen the end of the stream, or its reset. -/
def IsTerminal (r : RecvStream) : Prop := r.state = .dataRead ∨ r.state = .resetRead

/-- What the terminal states of a receive half rest on. -/
structure Ended (r : RecvStream) : Prop where
  released : r.isReset = false → r.readOff + r.delivered.length = r.nextOffset
  read : r.state = .dataRead → r.delivered = [] ∧ r.finOffset = some r.readOff
  reset : r.isReset = true → r.delivered = []

theorem Ended.new (n : Nat) : (RecvStream.new n).Ended :=
  ⟨fun _ => rfl,nofun,nofun⟩
variable {r r' : RecvStream} {offset n : Nat}
theorem Ended.next_eq (h : r.Ended) (hstate : r.state = .dataRead) : r.finOffset = some r.nextOffset := by
  have hopen : r.isReset = false := by simp [isReset,hstate]
  have hreleased := h.released hopen
  obtain ⟨hempty,hfin⟩ := h.read hstate
  rw [hempty,length_nil,add_zero] at hreleased
  rw [hfin,hreleased]

theorem Ended.not_readable (h : r.Ended) (hend : r.IsTerminal) : r.isReadable = false := by
  rcases hend with hstate | hstate
  · simp [isReadable,(h.read hstate).1,hstate]
  · have hreset : r.isReset = true := by simp [isReset,hstate]
    simp [isReadable,h.reset hreset,hstate]

/-- A frame inside what was released changes nothing, unless it ends there with the FIN or empty. -/
theorem place_inside {data : List UInt8} {fin : Bool} (hle : offset + data.length ≤ r.nextOffset)
    (hend : offset + data.length = r.nextOffset → fin = false ∧ data ≠ []) :
    (r.place offset data fin (offset + data.length)).2 = r := by
  have hcov : offset < r.nextOffset ∧ data.length ≤ r.nextOffset - offset := by
    rcases Nat.lt_or_eq_of_le hle with hlt | heq
    · omega
    · have hpos : 0 < data.length := length_pos_of_ne_nil (hend heq).2
      omega
  unfold place
  by_cases hstop : r.stopSendingSent = true
  · rw [if_pos hstop]
  rw [if_neg hstop,if_pos hcov]
  by_cases hfin : fin = true ∧ r.nextOffset = offset + data.length ∧ r.pending.isEmpty = true
  · have hfalse := (hend hfin.2.1.symm).1
    rw [hfin.1] at hfalse
    cases hfalse
  · rw [if_neg hfin]
variable (h : r.Ended)
include h
theorem Ended.data {data : List UInt8} {fin : Bool}
    (hguard : Guard.settled.data r offset data fin) (hdata : r.onData offset data fin = (.ok n, r')) :
    r'.Ended ∧ (r.IsTerminal → r'.state = r.state) := by
  obtain ⟨hout,hsame⟩ := onData_outline hdata
  rcases r.onData_cases offset data fin with ⟨e,heq⟩ | ⟨-,heq,-⟩ | ⟨hopen,hacc,heq⟩ <;> rw [hdata] at heq
  · cases heq
  · cases heq
    exact ⟨h,fun _ => rfl⟩
  · obtain ⟨-,hr'⟩ := Prod.mk.inj heq
    by_cases hstate : r.state = .dataRead
    · -- the frame brings nothing, and the FIN is where it was
      have hfin := h.next_eq hstate
      obtain ⟨hle,hsize⟩ := hacc.final r.nextOffset hfin
      have hnote : r.noteFin fin (offset + data.length) = r := by
        unfold noteFin
        split_ifs with hf
        · rw [hsize hf,← hfin]
        · rfl
      have hr : r' = r := by
        rw [hr',hnote]
        by_cases hstop : r.stopSendingSent = true
        · rw [place,if_pos hstop]
        · apply place_inside hle
          intro hend
          exact hguard hstate (by simpa using hstop) (hend ▸ hfin)
      rw [hr]
      exact ⟨h,fun _ => rfl⟩
    · set q := r.noteFin fin (offset + data.length) with hq
      have hnote : q = { r with finOffset := q.finOffset } := r.noteFin_rest fin _
      have hrel := place_released q offset data fin (offset + data.length)
      have hstates := (place_outline q offset data fin (offset + data.length)).2
      have hnext : q.nextOffset = r.nextOffset := by rw [hnote]
      have hdel : q.delivered = r.delivered := by rw [hnote]
      have hqs : q.state = r.state := by rw [hnote]
      rw [← hr',hdel] at hrel
      rw [← hr',hqs] at hstates
      have hread : r'.readOff = r.readOff := (congrArg RecvStream.readOff hout :)
      have hreleased := h.released hopen
      refine ⟨⟨?_,?_,?_⟩,?_⟩
      · omega
      · intro hdone
        rw [hdone] at hstates
        rcases hstates with hst | hst | hst
        · exact (hstate hst.symm).elim
        · cases hst
        · cases hst
      · intro hreset
        rw [hsame,hopen] at hreset
        cases hreset
      · rintro (hst | hst)
        · exact (hstate hst).elim
        · simp [isReset,hst] at hopen

theorem Ended.peerReset {code finalSize : Nat} (hguard : Guard.settled.peerReset r finalSize)
    (hreset : r.onReset code finalSize = (.ok (), r')) : r'.Ended ∧ (r.IsTerminal → r'.state = r.state) := by
  rcases r.onReset_cases code finalSize with ⟨e,heq⟩ | ⟨-,-,-,hfinal,hcase⟩
  · rw [hreset] at heq
    cases heq
  rcases hcase with ⟨-,heq⟩ | ⟨hopen,heq⟩ <;> rw [hreset] at heq
  · cases heq
    exact ⟨h,fun _ => rfl⟩
  · cases heq
    refine ⟨⟨nofun,nofun,fun _ => rfl⟩,?_⟩
    rintro (hst | hst)
    · have hfin := (h.read hst).2
      have hsize := hfinal _ hfin
      exact (hguard hst (hsize ▸ hfin)).elim
    · simp [isReset,hst] at hopen

theorem Ended.afterRead (hread : AfterRead r n r') : r'.Ended ∧ (r.IsTerminal → r'.state = r.state) := by
  have hreset := hread.isReset_eq
  obtain ⟨hle,hrest,hstate⟩ := hread
  have hdel : r'.delivered = r.delivered.drop n := by rw [hrest]
  have hoff : r'.readOff = r.readOff + n := by rw [hrest]
  have hnext : r'.nextOffset = r.nextOffset := by rw [hrest]
  have hfin : r'.finOffset = r.finOffset := by rw [hrest]
  have hlen : r'.delivered.length = r.delivered.length - n := by rw [hdel,length_drop]
  refine ⟨⟨?_,?_,?_⟩,?_⟩
  · intro hopen
    have hreleased := h.released (hreset ▸ hopen)
    omega
  · intro hdone
    rcases hstate with hst | ⟨-,hst⟩ | ⟨-,-,hempty,hsize⟩
    · obtain ⟨hempty,hsize⟩ := h.read (hst.symm.trans hdone)
      rw [hempty] at hle
      have hzero : n = 0 := Nat.le_zero.mp hle
      rw [hdel,hempty,hfin,hsize,hoff,hzero]
      exact ⟨rfl,rfl⟩
    · rw [hdone] at hst
      cases hst
    · exact ⟨hempty,hfin.trans hsize⟩
  · intro htrue
    rw [hdel,h.reset (hreset ▸ htrue),drop_nil]
  · intro hend
    rcases hstate with hst | ⟨hwas,-⟩ | ⟨hopen,hst,-⟩
    · exact hst
    · rcases hend with hend | hend <;> rw [hwas] at hend <;> cases hend
    · rcases hend with hend | hend
      · rw [hst,hend]
      · simp [isReset,hend] at hopen

theorem Ended.move (hmove : RecvMove .settled r r') : r'.Ended ∧ (r.IsTerminal → r'.state = r.state) := by
  cases hmove with
  | flag hflag => cases hflag <;> exact ⟨⟨h.released,h.read,h.reset⟩,fun _ => rfl⟩
  | data hguard hdata c =>
    obtain ⟨hended,hstate⟩ := h.data hguard hdata
    exact ⟨⟨hended.released,hended.read,hended.reset⟩,hstate⟩
  | reset hguard hreset c =>
    obtain ⟨hended,hstate⟩ := h.peerReset hguard hreset
    exact ⟨⟨hended.released,hended.read,hended.reset⟩,hstate⟩
  | read hread =>
    obtain ⟨hended,hstate⟩ := h.afterRead (RecvStream.afterRead hread)
    rw [(replenishStream_rest _).1]
    exact ⟨⟨hended.released,hended.read,hended.reset⟩,hstate⟩
end RecvStream
namespace SendStream
/-- The peer has everything, or has acknowledged the reset. -/
def IsTerminal (send : SendStream) : Prop := send.state = .dataRecvd ∨ send.state = .resetRecvd

/-- What the terminal states of a send half rest on. -/
structure Settled (send : SendStream) : Prop where
  known : send.FinKnown → send.finSent = true
  ended : send.state = .dataRecvd → send.finSent = true
  reset : send.state = .resetSent ∨ send.state = .resetRecvd →
    send.writeBuf = [] ∧ (send.finOffset = some send.writeOff → send.finSent = true)

/-- The half has not left its terminal state and has no new RESET_STREAM to send. -/
def Rests (send send' : SendStream) : Prop :=
  send.IsTerminal →
    send'.state = send.state ∧ (send'.resetPending = true → send.resetPending = true)

theorem Settled.new (n : Nat) : (SendStream.new n).Settled where
  known := by simp [FinKnown,SendStream.new]
  ended := nofun
  reset := fun h => h.elim nofun nofun
variable {send send' : SendStream}
section
variable (h : send.Settled)
include h
theorem Settled.write (data : List UInt8) (blocked : Option Nat) :
    ({ (send.enqueue data).2 with blockedAt := blocked } : SendStream).Settled ∧
      send.Rests { (send.enqueue data).2 with blockedAt := blocked } := by
  rcases send.enqueue_cases data with heq | ⟨n,-,-,hopen,heq⟩ <;> rw [heq]
  · exact ⟨⟨h.known,h.ended,h.reset⟩,fun _ => ⟨rfl,id⟩⟩
  · refine ⟨⟨h.known,nofun,?_⟩,?_⟩
    · rintro (hst | hst) <;> cases hst
    · rintro (hst | hst) <;> rcases hopen with hop | hop <;> rw [hst] at hop <;> cases hop

theorem Settled.acked (offset len : Nat) {fin : Bool} (hguard : fin = true → send.finSent = true) :
    (send.onRangeAcked offset len fin).Settled ∧ send.Rests (send.onRangeAcked offset len fin) := by
  obtain ⟨st,ranges,acked,sent,sorted,rtx,hsent,hrtx,hstate,heq⟩ :=
    onRangeAcked_shape send offset len fin
  have hack : (send.finAcked || fin) = true → send.finSent = true := by
    intro hor
    rcases Bool.or_eq_true_iff.mp hor with hold | hnew
    · exact h.known (.inr (.inl hold))
    · exact hguard hnew
  rw [heq]
  refine ⟨⟨?_,?_,?_⟩,?_⟩
  · rintro (hfin | hfin | ⟨c,hc,hfin⟩)
    · exact hfin
    · exact hack hfin
    · apply h.known
      refine .inr (.inr ⟨c,?_,hfin⟩)
      exact List.mem_append.mpr ((List.mem_append.mp hc).imp (fun hm => hsent hm) (fun hm => hrtx hm))
  · intro hst
    rcases hstate with hsame | ⟨-,hfin,-⟩
    · exact h.ended (hsame.symm.trans hst)
    · exact hack hfin
  · intro hst
    rcases hstate with hsame | ⟨hend,-⟩
    · exact h.reset (hsame ▸ hst)
    · rw [hend] at hst
      rcases hst with hst | hst <;> cases hst
  · intro hterm
    refine ⟨?_,id⟩
    rcases hstate with hsame | ⟨hend,-,hopen,hopen'⟩
    · exact hsame
    · rcases hterm with hst | hst
      · rw [hst]
        exact hend
      · exact (hopen' hst).elim

/-- A move that keeps the state, the buffer and the final size, and no new chunk with the FIN. -/
theorem Settled.keep (hstate : send'.state = send.state)
    (hbuf : send'.writeBuf = send.writeBuf) (hoff : send'.writeOff = send.writeOff)
    (hfin : send'.finOffset = send.finOffset) (hsent : send'.finSent = send.finSent)
    (hacked : send'.finAcked = send.finAcked)
    (hchunks : ∀ c ∈ send'.sentChunks ++ send'.rtxQueue, c.fin = true → ∃ d ∈ send.sentChunks ++ send.rtxQueue, d.fin = true) :
    send'.Settled := by
  constructor
  · rintro (hf | hf | ⟨c,hc,hf⟩)
    · exact hf
    · rw [hsent]
      exact h.known (.inr (.inl (hacked ▸ hf)))
    · rw [hsent]
      exact h.known (.inr (.inr (hchunks c hc hf)))
  · rw [hstate,hsent]
    exact h.ended
  · rw [hstate,hbuf,hoff,hfin,hsent]
    exact h.reset

theorem Settled.push {c : Chunk} (hc : c.fin = true → send.finSent = true) : (send.pushSent c).Settled := by
  rcases pushSent_cases send c with ⟨-,heq⟩ | ⟨sorted,heq⟩ <;> rw [heq]
  · exact h
  · refine ⟨?_,h.ended,h.reset⟩
    rintro (hf | hf | ⟨d,hd,hf⟩)
    · exact hf
    · exact h.known (.inr (.inl hf))
    · simp only [append_assoc,singleton_append,List.mem_append,List.mem_cons] at hd
      rcases hd with hd | rfl | hd
      · exact h.known (.inr (.inr ⟨d,mem_append_left _ hd,hf⟩))
      · exact hc hf
      · exact h.known (.inr (.inr ⟨d,mem_append_right _ hd,hf⟩))
end
theorem Rests.push (h : send.Rests send') (c : Chunk) : send.Rests (send'.pushSent c) := by
  rw [pushSent_rest]
  exact h

theorem Settled.popRtx (h : send.Settled) (id maxPayload : Nat) (out : List UInt8) :
    (send.popRtxFrame id maxPayload out).2.1.Settled ∧ send.Rests (send.popRtxFrame id maxPayload out).2.1 := by
  have hrests : ∀ rtx, send.Rests { send with rtxQueue := rtx } := fun _ _ => ⟨rfl,fun hp => hp⟩
  unfold popRtxFrame
  cases hq : send.rtxQueue with
  | nil => exact ⟨h,fun _ => ⟨rfl,fun hp => hp⟩⟩
  | cons c rest =>
    have hmem : ∀ d ∈ c :: rest, d ∈ send.sentChunks ++ send.rtxQueue := by
      intro d hd
      rw [hq]
      exact mem_append_right _ hd
    have hqueue : ∀ rtx : List Chunk, (∀ d ∈ rtx, d.fin = true → ∃ e ∈ c :: rest, e.fin = true) →
        ({ send with rtxQueue := rtx }).Settled := by
      intro rtx hsub
      refine h.keep rfl rfl rfl rfl rfl rfl ?_
      intro d hd hf
      rcases List.mem_append.mp hd with hd | hd
      · exact ⟨d,mem_append_left _ hd,hf⟩
      · obtain ⟨e,he,hef⟩ := hsub d hd hf
        exact ⟨e,hmem e he,hef⟩
    simp only
    split_ifs with hlen
    · refine ⟨(hqueue rest ?_).push ?_,(hrests rest).push c⟩
      · intro d hd hf
        exact ⟨d,mem_cons_of_mem c hd,hf⟩
      · intro hf
        exact h.known (.inr (.inr ⟨c,hmem c mem_cons_self,hf⟩))
    · refine ⟨(hqueue _ ?_).push nofun,(hrests _).push _⟩
      intro d hd hf
      rcases List.mem_cons.mp hd with rfl | hd
      · exact ⟨c,mem_cons_self,hf⟩
      · exact ⟨d,mem_cons_of_mem c hd,hf⟩

theorem Settled.carve (h : send.Settled) (id cap : Nat) (out : List UInt8) :
    (send.carveFrame id cap out).2.1.Settled ∧ send.Rests (send.carveFrame id cap out).2.1 := by
  rcases send.carveFrame_cases id cap out with ⟨-,heq⟩ | ⟨take,fin,-,htake,hiff,heq⟩
  · rw [heq]
    exact ⟨h,fun _ => ⟨rfl,fun hp => hp⟩⟩
  rw [heq]
  -- a half that was reset, or is done, has no FIN left to carry
  have hnofin : send.state = .dataRecvd ∨ send.state = .resetSent ∨ send.state = .resetRecvd →
      fin = false := by
    intro hst
    cases hf : fin with
    | false => rfl
    | true =>
      obtain ⟨hsize,hall,hunsent⟩ := hiff.mp hf
      have hsent : send.finSent = true := by
        rcases hst with hst | hst
        · exact h.ended hst
        · obtain ⟨hbuf,hfin⟩ := h.reset hst
          rw [hbuf] at hall
          rw [hall] at hsize
          exact hfin hsize
      rw [hunsent] at hsent
      cases hsent
  refine ⟨Settled.push ⟨?_,?_,?_⟩ ?_,Rests.push ?_ _⟩
  · intro hknown
    cases hf : fin with
    | true => exact Bool.or_true _
    | false =>
      rw [hf] at hknown
      rw [Bool.or_false]
      rcases hknown with hk | hk
      · exact (Bool.or_false _).symm.trans hk
      · exact h.known (.inr hk)
  · intro hst
    cases hf : fin with
    | true => exact Bool.or_true _
    | false =>
      rw [Bool.or_false]
      split_ifs at hst
      exact h.ended hst
  · intro hst
    cases hf : fin with
    | true =>
      simp only [hf,if_true] at hst
      rcases hst with hst | hst <;> cases hst
    | false =>
      simp only [hf,Bool.false_eq_true,if_false] at hst
      have hreset : send.state = .resetSent ∨ send.state = .resetRecvd := by
        split_ifs at hst
        · rcases hst with hst | hst <;> cases hst
        · exact hst
      obtain ⟨hbuf,hfin⟩ := h.reset hreset
      have hzero : take = 0 := by
        rw [hbuf,length_nil] at htake
        omega
      simp only [hbuf,hzero,drop_nil,add_zero,Bool.or_false]
      exact ⟨trivial,hfin⟩
  · intro hf
    rw [show fin = true from hf,Bool.or_true]
  · intro hterm
    have hfalse : fin = false := hnofin (hterm.imp_right .inr)
    refine ⟨?_,fun hp => hp⟩
    simp only [hfalse,Bool.false_eq_true,if_false]
    split_ifs with hready
    · rcases hterm with hst | hst <;> rw [hst] at hready <;> cases hready.1
    · rfl

theorem Settled.move {n : Nat} (h : send.Settled) (hmove : SendMove .settled send send' n) :
    send'.Settled ∧ send.Rests send' := by
  have hrests : send.Rests send := fun _ => ⟨rfl,fun hp => hp⟩
  cases hmove with
  | write data blocked hfin => exact h.write data blocked
  | finish hopen =>
    unfold finish
    split_ifs
    · exact ⟨h,hrests⟩
    · refine ⟨⟨h.known,h.ended,?_⟩,hrests⟩
      rintro (hst | hst)
      · exact (hopen.1 hst).elim
      · exact (hopen.2 hst).elim
  | reset code hguard =>
    obtain ⟨hdone,hreset,hfin⟩ := hguard
    refine ⟨⟨?_,SendState.noConfusion,fun _ => ⟨rfl,hfin⟩⟩,?_⟩
    · rintro (hk | hk | ⟨c,hc,-⟩)
      · exact hk
      · exact h.known (.inr (.inl hk))
      · cases hc
    · rintro (hst | hst)
      · exact (hdone hst).elim
      · exact (hreset hst).elim
  | acked offset len fin hguard => exact h.acked offset len hguard
  | lost offset len fin =>
    refine ⟨h.keep rfl rfl rfl rfl rfl rfl ?_,hrests⟩
    intro c hc hf
    refine ⟨c,?_,hf⟩
    simp only [onRangeLost,List.mem_append,mem_filter] at hc ⊢
    tauto
  | resetAcked =>
    unfold onResetAcked
    split_ifs with hst
    · refine ⟨⟨h.known,SendState.noConfusion,fun _ => h.reset (.inl hst)⟩,?_⟩
      rintro (hend | hend) <;> rw [hst] at hend <;> cases hend
    · exact ⟨h,hrests⟩
  | resetLost =>
    unfold onResetLost
    split_ifs with hst
    · refine ⟨⟨h.known,h.ended,h.reset⟩,?_⟩
      rintro (hend | hend) <;> rw [hst.1] at hend <;> cases hend
    · exact ⟨h,hrests⟩
  | requeue =>
    refine ⟨h.keep rfl rfl rfl rfl rfl rfl ?_,hrests⟩
    intro c hc hf
    refine ⟨c,?_,hf⟩
    simp only [requeueAllSent,nil_append,List.mem_append,mem_filter] at hc ⊢
    tauto
  | popReset => exact ⟨⟨h.known,h.ended,h.reset⟩,fun _ => ⟨rfl,Bool.noConfusion⟩⟩
  | popRtx id maxPayload out => exact h.popRtx id maxPayload out
  | carve id cap out => exact h.carve id cap out
  | _ => exact ⟨⟨h.known,h.ended,h.reset⟩,hrests⟩
end SendStream
namespace Streams
/-- Only streams with something to read are reported readable. -/
def ReadableOnly (s : Streams) : Prop :=
  ∀ id ∈ s.readable, (s.recvHalf id).any RecvStream.isReadable = true

/-- What the terminal states rest on, for all streams. -/
structure Settled (s : Streams) : Prop where
  accounted : Accounted s
  ended : EveryRecv RecvStream.Ended s
  settled : EverySend SendStream.Settled s
  readable : ReadableOnly s
section Steps
variable {g : Guard} {s s' : Streams} {id : Nat}
theorem Accounted.get?_retired (h : Accounted s) (hid : id ∈ s.retiredIds) : s.map.get? id = none := by
  obtain ⟨e,he,rfl⟩ := List.mem_map.mp hid
  rw [← s.map.notMem_keys_iff]
  intro hmem
  obtain ⟨l,hl⟩ := (h.books (dirOf e.1)).ledger
  have hlive : e.1 / 4 ∈ l.live := by
    rw [hl.live,mem_liveOrdinals]
    exact ⟨e.1,hmem,h.retired_peer e he,rfl,rfl⟩
  have hretired : e.1 / 4 ∈ l.retired := by
    rw [hl.retired,mem_retiredOrdinals]
    exact ⟨e,he,rfl,rfl⟩
  exact Finset.disjoint_left.mp l.live_retired hlive hretired

theorem Accounted.get?_opened (h : Accounted s)
    (hnew : s.map.get? id = none ∨ ∃ dir, id = s.nextLocal dir) : s.map.get? id = none := by
  rcases hnew with hnew | ⟨dir,rfl⟩
  · exact hnew
  · exact h.localIds.get?_nextLocal dir

theorem ReadableOnly.congr (h : ReadableOnly s) (hreadable : s'.readable = s.readable)
    (hhalf : ∀ j recv, s.recvHalf j = some recv →
      ∃ recv', s'.recvHalf j = some recv' ∧ recv'.isReadable = recv.isReadable) : ReadableOnly s' := by
  intro j hj
  rw [hreadable] at hj
  obtain ⟨recv,hget,hrecv⟩ := (Option.any_eq_true _ _).mp (h j hj)
  obtain ⟨recv',hget',hsame⟩ := hhalf j recv hget
  rw [hget',Option.any_some,hsame]
  exact hrecv

theorem ReadableOnly.keep (h : ReadableOnly s) (hreadable : s'.readable = s.readable)
    (hhalf : ∀ j, s'.recvHalf j = s.recvHalf j) : ReadableOnly s' :=
  h.congr hreadable (fun j recv hget => ⟨recv,(hhalf j).trans hget,rfl⟩)

theorem ReadableOnly.refresh (h : ReadableOnly s) (hreadable : s'.readable = s.readable)
    (hhalf : ∀ j, j ≠ id → s'.recvHalf j = s.recvHalf j) : ReadableOnly (s'.refreshReadable id) := by
  have hsame : ∀ j, (s'.refreshReadable id).recvHalf j = s'.recvHalf j := by
    intro j
    rw [recvHalf,map_refreshReadable,recvHalf]
  intro j hj
  rw [hsame]
  unfold refreshReadable at hj
  by_cases hread : (s'.recvHalf id).any RecvStream.isReadable = true
  · rw [if_pos hread] at hj
    rcases Finset.mem_insert.mp hj with rfl | hj
    · exact hread
    · by_cases hne : j = id
      · rw [hne]
        exact hread
      · rw [hhalf j hne]
        exact h j (hreadable ▸ hj)
  · rw [if_neg hread] at hj
    obtain ⟨hne,hj⟩ := Finset.mem_erase.mp hj
    rw [hhalf j hne]
    exact h j (hreadable ▸ hj)
section
variable (s : Streams)
theorem readable_charge (id high newHigh : Nat) : (s.charge id high newHigh).readable = s.readable := by
  unfold charge
  split_ifs <;> rfl

theorem readable_consume (n : Nat) : (s.consume n).readable = s.readable := by
  rw [consume_rest]
end
theorem Accepts.readable {high newHigh : Nat} {recv : RecvStream} (h : Accepts s id high newHigh recv s') :
    s'.readable = s.readable := by
  cases h with
  | kept c => exact readable_charge s id high newHigh
  | credited c n =>
    rw [readable_consume]
    exact readable_charge s id high newHigh

private theorem recvHalf_of_map {recv recv' : RecvStream} (hget : s.recvHalf id = some recv)
    (hmap : s'.map = (s.setRecv id recv').map) {j : Nat} (hne : j ≠ id) : s'.recvHalf j = s.recvHalf j := by
  rw [recvHalf,hmap]
  change (s.setRecv id recv').recvHalf j = s.recvHalf j
  rw [recvHalf_setRecv hget,if_neg hne]

private theorem ReadableOnly.accepts (h : ReadableOnly s) {high newHigh : Nat} {recv recv' : RecvStream}
    (hget : s.recvHalf id = some recv) (ha : Accepts s id high newHigh recv' s') :
    ReadableOnly (s'.refreshReadable id) := by
  obtain ⟨-,c,hmap⟩ := ha.refreshed
  rw [map_refreshReadable] at hmap
  exact h.refresh ha.readable (fun j hne => recvHalf_of_map hget hmap hne)

private theorem ReadableOnly.insert (h : ReadableOnly s) {stream : Stream}
    (hnew : s.map.get? id = none) (hmap : s'.map = s.map.insert id stream)
    (hreadable : s'.readable = s.readable) : ReadableOnly s' := by
  apply h.congr hreadable
  intro j recv hget
  have hne : j ≠ id := by
    rintro rfl
    rw [recvHalf,hnew] at hget
    cases hget
  refine ⟨recv,?_,rfl⟩
  rw [recvHalf,hmap,s.map.get?_insert_ne stream hne]
  exact hget

theorem ReadableOnly.change (h : ReadableOnly s) (hacc : Accounted s) (hc : Change g s s') : ReadableOnly s' := by
  have hmaps : ∀ {t : Streams}, t.map = s.map → t.readable = s.readable → ReadableOnly t := by
    intro t hmap hreadable
    apply h.keep hreadable
    intro j
    rw [recvHalf,hmap,recvHalf]
  cases hc with
  | admin hcore => exact hmaps (congrArg Streams.map hcore :) (congrArg Streams.readable hcore :)
  | announceStreams dir =>
    apply hmaps (map_setPeerStreams _ _ _)
    cases dir <;> rfl
  | openLocal dir hfresh =>
    apply h.insert (hacc.localIds.get?_nextLocal dir) (map_insertLocal s dir _)
    cases dir <;> rfl
  | openRemote id hpeer hnew hopen hmax =>
    apply h.insert hnew (map_openRemote s id)
    unfold openRemote
    cases dirOf id <;> rfl
  | wake id =>
    rw [enqueueReady_rest]
    exact h
  | send hget hmove hready => exact h.keep rfl (fun j => recvHalf_setSend _)
  | raiseAll limit => exact h.keep rfl (fun j => recvHalf_raiseAll limit)
  | @recvFlag id recv recv' hget hmove hready =>
    refine h.congr rfl ?_
    intro j r hj
    rw [recvHalf_setRecv hget]
    split_ifs with heq
    · subst heq
      cases hget.symm.trans hj
      refine ⟨recv',rfl,?_⟩
      cases hmove <;> rfl
    · exact ⟨r,hj,rfl⟩
  | @frame id _ _ _ recv recv' _ hget hguard hdata frameEnd newHigh hend hnew hroom =>
    exact h.accepts hget (accepts_acceptFrame s id frameEnd newHigh recv')
  | @peerReset id _ finalSize recv recv' hget hguard hreset newHigh hhigh hnew hroom =>
    exact h.accepts hget (accepts_acceptReset s id finalSize newHigh recv.isReset recv')
  | read hget hread hgrant hready =>
    exact h.refresh (readable_consume _ _)
      (fun j hne => recvHalf_of_map hget (map_consume _ _) hne)
  | @reap id stream hpeer hget hend =>
    have hreadable : ((s.retire id stream).maybeReplenishStreams (dirOf id)).readable =
        s.readable.erase id := by rw [reap_rest]
    intro j hj
    rw [hreadable] at hj
    obtain ⟨hne,hj⟩ := Finset.mem_erase.mp hj
    rw [recvHalf,map_reap,s.map.get?_erase_ne hne]
    exact h j hj
  | _ => exact h

theorem Settled.change (h : Settled s) (hc : Change .settled s s') : Settled s' where
  accounted := h.accounted.change hc
  ended := h.ended.change RecvStream.Ended.new (fun _ _ hr hm => (hr.move hm).1) hc
  settled := h.settled.change SendStream.Settled.new (fun _ _ _ hs hm => (hs.move hm).1) hc
  readable := h.readable.change h.accounted hc

theorem settled_new (role : Role) (our peer : TransportParameters) :
    Settled (Streams.new role our peer) where
  accounted := Accounted.new role our peer
  ended := everyRecv_new _ role our peer
  settled := everySend_new _ role our peer
  readable := fun id hid => absurd hid (Finset.notMem_empty id)

/-- Stream `id` is gone for good. -/
def Retired (s : Streams) (id : Nat) : Prop := s.map.get? id = none ∧ id ∈ s.retiredIds

/-- The receive half of stream `id` is in state `st`, or was retired. -/
def RecvRests (id : Nat) (st : RecvState) (s : Streams) : Prop :=
  (∃ recv, s.recvHalf id = some recv ∧ recv.state = st) ∨ s.Retired id

/-- The send half of stream `id` is in state `st`, or was retired. -/
def SendRests (id : Nat) (st : SendState) (pending : Bool) (s : Streams) : Prop :=
  (∃ send, s.sendHalf id = some send ∧ send.state = st ∧
    (send.resetPending = true → pending = true)) ∨ s.Retired id

theorem Retired.change (h : s.Retired id) (hacc : Accounted s) (hc : Change g s s') : s'.Retired id := by
  have hid : id ∈ s'.retiredIds := ((retired_suffix_of_change hc).map Prod.fst).subset h.2
  exact ⟨(hacc.change hc).get?_retired hid,hid⟩

private theorem HalfChange.rests {H : Type} {half : Stream → Option H} {Move : H → H → Prop} {New P : H → Prop}
    (hhalf : HalfChange half Move New s s' id) (hacc : Accounted s) (hc : Change g s s')
    (hmove : ∀ old new, (s.map.get? id).bind half = some old → P old → Move old new → P new)
    (h : (∃ x, (s.map.get? id).bind half = some x ∧ P x) ∨ s.Retired id) :
    (∃ x, (s'.map.get? id).bind half = some x ∧ P x) ∨ s'.Retired id := by
  rcases h with ⟨x,hget,hx⟩ | hretired
  · cases hhalf with
    | same hsame => exact .inl ⟨x,hsame.trans hget,hx⟩
    | moved old new hold hnew hm =>
      cases hget.symm.trans hold
      exact .inl ⟨new,hnew,hmove x new hget hx hm⟩
    | opened hopened _ =>
      rw [hacc.get?_opened hopened] at hget
      cases hget
    | retired hnone hid => exact .inr ⟨hnone,hid⟩
  · exact .inr (hretired.change hacc hc)

theorem RecvRests.change {st : RecvState} (hterm : st = .dataRead ∨ st = .resetRead)
    (h : RecvRests id st s) (hs : Settled s) (hc : Change .settled s s') : RecvRests id st s' := by
  refine (recvHalf_change (mapChange_of_change hc) id).rests hs.accounted hc ?_ h
  intro recv recv' hget hstate hmove
  have hend : recv.IsTerminal := by
    rw [RecvStream.IsTerminal,hstate]
    exact hterm
  exact (((hs.ended id recv hget).move hmove).2 hend).trans hstate

theorem SendRests.change {st : SendState} {pending : Bool}
    (hterm : st = .dataRecvd ∨ st = .resetRecvd) (h : SendRests id st pending s) (hs : Settled s)
    (hc : Change .settled s s') : SendRests id st pending s' := by
  refine (sendHalf_change (mapChange_of_change hc) id).rests hs.accounted hc ?_ h
  rintro send send' hget ⟨hstate,hpending⟩ ⟨n,hmove⟩
  have hend : send.IsTerminal := by
    rw [SendStream.IsTerminal,hstate]
    exact hterm
  obtain ⟨hsame,hqueued⟩ := ((hs.settled id send hget).move hmove).2 hend
  exact ⟨hsame.trans hstate,fun hp => hpending (hqueued hp)⟩

theorem RecvRests.not_readable {st : RecvState} (hterm : st = .dataRead ∨ st = .resetRead)
    (h : RecvRests id st s) (hs : Settled s) : id ∉ s.readable := by
  intro hmem
  have hany := hs.readable id hmem
  rcases h with ⟨recv,hget,hstate⟩ | ⟨hnone,-⟩
  · have hend : recv.IsTerminal := by
      rw [RecvStream.IsTerminal,hstate]
      exact hterm
    have hquiet := (hs.ended id recv hget).not_readable hend
    rw [hget,Option.any_some,hquiet] at hany
    cases hany
  · rw [recvHalf,hnone] at hany
    cases hany
end Steps
/-- In every run whose operations revive no half that is done, whatever follows a state in which a
half is terminal leaves it so, or retires its stream: a receive half is never readable again, and a
send half has no new RESET_STREAM to send. -/
theorem terminal_absorbing (role : Role) (our peer : TransportParameters)
    (ops later : List StreamsOp)
    (hops : Trace.Along step (Allows .settled) (Streams.new role our peer) ops)
    (hlater : Trace.Along step (Allows .settled)
      (Trace.run step (Streams.new role our peer) ops) later) :
    let s := Trace.run step (Streams.new role our peer) ops
    let s' := Trace.run step s later
    (∀ id recv, s.recvHalf id = some recv → recv.IsTerminal →
      RecvRests id recv.state s' ∧ id ∉ s'.readable) ∧
    ∀ id send, s.sendHalf id = some send → send.IsTerminal →
      SendRests id send.state send.resetPending s' := by
  intro s s'
  have hs : Settled s :=
    invariant_run (fun _ _ ht hc => ht.change hc) hops (settled_new role our peer)
  have hs' : Settled s' := invariant_run (fun _ _ ht hc => ht.change hc) hlater hs
  constructor
  · intro id recv hget hterm
    have hchange : ∀ t t', (Settled t ∧ RecvRests id recv.state t) → Change .settled t t' →
        Settled t' ∧ RecvRests id recv.state t' := by
      intro t t' ht hc
      exact ⟨ht.1.change hc,ht.2.change hterm ht.1 hc⟩
    have hrests : Settled s' ∧ RecvRests id recv.state s' :=
      invariant_run hchange hlater ⟨hs,.inl ⟨recv,hget,rfl⟩⟩
    exact ⟨hrests.2,hrests.2.not_readable hterm hs'⟩
  · intro id send hget hterm
    have hchange : ∀ t t', (Settled t ∧ SendRests id send.state send.resetPending t) →
        Change .settled t t' → Settled t' ∧ SendRests id send.state send.resetPending t' := by
      intro t t' ht hc
      exact ⟨ht.1.change hc,ht.2.change hterm ht.1 hc⟩
    have hrests : Settled s' ∧ SendRests id send.state send.resetPending s' :=
      invariant_run hchange hlater ⟨hs,.inl ⟨send,hget,rfl,fun hp => hp⟩⟩
    exact hrests.2

/-- A stream that was read to its end receives a retransmission. -/
theorem terminal_absorbing_retransmission :
    let s := Trace.run step (Streams.new .server (.uniform 9 1) (.uniform 0 0))
      [.onStream 0 0 true [7], .read 0 1]
    let s' := Trace.run step s [.onStream 0 0 false [7], .read 0 1]
    (s.recvHalf 0).map RecvStream.state = some .dataRead ∧
      ∀ recv, s.recvHalf 0 = some recv → RecvRests 0 recv.state s' ∧ 0 ∉ s'.readable := by
  have hops : Trace.Along step (Allows .settled)
      (Streams.new .server (.uniform 9 1) (.uniform 0 0)) [.onStream 0 0 true [7], .read 0 1] :=
    ⟨nofun,trivial,trivial⟩
  have hlater : Trace.Along step (Allows .settled)
      (Trace.run step (Streams.new .server (.uniform 9 1) (.uniform 0 0))
        [.onStream 0 0 true [7], .read 0 1]) [.onStream 0 0 false [7], .read 0 1] :=
    ⟨fun _ _ _ _ _ => ⟨rfl,cons_ne_nil 7 []⟩,trivial,trivial⟩
  have hstate : ((Trace.run step (Streams.new .server (.uniform 9 1) (.uniform 0 0))
      [.onStream 0 0 true [7], .read 0 1]).recvHalf 0).map RecvStream.state = some .dataRead := by
    decide
  refine ⟨hstate,?_⟩
  intro recv hget
  rw [hget] at hstate
  exact (terminal_absorbing .server (.uniform 9 1) (.uniform 0 0) _ _ hops hlater).1 0 recv hget
    (.inl (Option.some.inj hstate))

/-- The FIN of a stream that was read to its end arrives once more, and a send half whose data was
acknowledged is reset: both leave their terminal state. -/
theorem terminal_state_left :
    (let s := Trace.run step (Streams.new .server (.uniform 9 1) (.uniform 9 1))
      [.onStream 0 0 true [], .read 0 1]
    let s' := s.step (.onStream 0 0 true [])
    (s.recvHalf 0).map RecvStream.state = some .dataRead ∧ 0 ∉ s.readable ∧
      (s'.recvHalf 0).map RecvStream.state = some .dataRecvd ∧ 0 ∈ s'.readable) ∧
    (let s := Trace.run step (Streams.new .client (.uniform 9 1) (.uniform 9 1))
      [.openUni, .write 2 [7], .finish 2, .popFrame 100, .onChunkAcked 2 0 1 true]
    let s' := s.step (.reset 2 0)
    (s.sendHalf 2).map SendStream.state = some .dataRecvd ∧
      (s'.sendHalf 2).map (fun send => (send.state, send.resetPending)) =
        some (.resetSent, true)) := by
  decide
end Streams
end PureCrypto.Quic
