import PureCrypto.Quic.CryptoReassembly
import PureCrypto.Quic.CryptoRetransmission
import PureCrypto.Quic.Delivery
import PureCrypto.Quic.Packing
import PureCrypto.Quic.Retransmission

/-! # From sender to receiver, over a network that loses, repeats and reorders -/
namespace PureCrypto.Quic
open List Trace
namespace CryptoSender
/-- Whatever chunks arrive, what is released is the longest prefix of what was enqueued that the accepted ones cover. -/
theorem crypto_end_to_end (ops : List CryptoSendOp) (frags : List (Nat × List UInt8)) (hops : Along step Used start ops)
    (hfrags : ∀ f ∈ frags, f ∈ (run step start ops).carved) :
    let sent := (run step start ops).enqueued
    let r := run CryptoSession.feed .start frags
    r.released = sent.take r.buf.nextOffset ∧ r.buf.nextOffset ≤ sent.length ∧
      ∀ n, n ≤ r.buf.nextOffset ↔ ∀ x < n, r.Covered x := by
  intro sent r
  obtain ⟨C,h⟩ := hops.invariant tracked_step ⟨[],tracked_start⟩
  have hslices : ∀ f ∈ frags, f.1 + f.2.length ≤ sent.length ∧ CryptoSession.slice sent (f.1, f.2.length) = f := by
    intro f hf
    have hrun := (h.runs f (hfrags f hf)).append (run step start ops).buf.outbound
    rw [← h.stream] at hrun
    exact ⟨hrun.le,Prod.ext rfl hrun.eq_take⟩
  have hr : CryptoSession.Reassembled sent r := (Along.of_forall _ hslices).invariant
    (fun s f hs hf => hf.2 ▸ CryptoSession.reassembled_feed s _ hs hf.1) (CryptoSession.reassembled_start sent)
  exact ⟨hr.released_eq,hr.ahead.next_le,hr.longest⟩

/-- The later chunk first, the earlier one twice. -/
theorem crypto_end_to_end_swapped :
    let r := run CryptoSession.feed .start [(2, [9]), (0, [7, 8]), (0, [7, 8])]
    r.released = [7, 8, 9].take r.buf.nextOffset :=
  (crypto_end_to_end [.enqueueOutbound [7, 8, 9], .carve 2, .carve 2] _
    ⟨trivial,Nat.le_succ 1,Nat.le_succ 1,trivial⟩ (by decide)).1
end CryptoSender
namespace SendSession
/-- The receiver reads, or the decoder reads a frame from what was sent. -/
def Arrives (s : SendSession) : RecvOp → Prop
  | .data offset bytes fin => ∃ e ∈ s.emitted, e.id ≤ Varint.max ∧
      Frame.decode e.wire = .ok (.stream e.id offset fin bytes, e.wire.length)
  | .read _ => True

theorem decode_emission {s : SendSession} (h : Sound s) (hmax : s.enqueued.length ≤ Varint.max) {e : Emission}
    (he : e ∈ s.emitted) (hid : e.id ≤ Varint.max) : ∃ bytes, bytes <+: s.enqueued.drop e.frame.offset ∧
      bytes.length = e.frame.len ∧
      Frame.decode e.wire = .ok (.stream e.id e.frame.offset e.frame.fin bytes, e.wire.length) := by
  have hc := h.frames e he
  have hbelow := hc.below
  have hlength := h.length
  have hlen : ((s.enqueued.drop e.frame.offset).take e.frame.len).length = e.frame.len := by
    rw [length_take,length_drop]
    omega
  obtain ⟨bytes,hw⟩ := PoppedFrame.written_stream e.id e.frame.offset e.frame.len e.frame.fin hlen []
  refine ⟨_, take_prefix _ _,hlen,?_⟩
  rw [hc.wire,hw.appended,nil_append]
  exact hw.decode_iff.mpr ⟨hid,by omega⟩

/-- Whatever arrives and whenever the receiver reads: frames are decoded as sent, what is or can be read is a prefix of
what was enqueued, and with room for the fragments all of an accepted prefix. -/
theorem stream_end_to_end (sendMax recvMax : Nat) (ops : List SendOp) (arrivals : List RecvOp)
    (hpeer : sendMax < u64Bound) (hops : Along step Valid (start sendMax) ops)
    (hmax : (run step (start sendMax) ops).enqueued.length ≤ Varint.max)
    (harrivals : ∀ op ∈ arrivals, (run step (start sendMax) ops).Arrives op) :
    let s := run step (start sendMax) ops
    let r := run RecvSession.step (.start recvMax) arrivals
    (∀ e ∈ s.emitted, e.id ≤ Varint.max → ∃ bytes, bytes <+: s.enqueued.drop e.frame.offset ∧ bytes.length = e.frame.len ∧
      Frame.decode e.wire = .ok (.stream e.id e.frame.offset e.frame.fin bytes, e.wire.length)) ∧
    r.readBytes ++ r.recv.delivered = s.enqueued.take r.recv.nextOffset ∧ r.recv.nextOffset ≤ s.enqueued.length ∧
    (Along RecvSession.step RecvSession.Roomy (.start recvMax) arrivals →
      ∀ n, (∀ x < n, r.Accepted x) → n ≤ r.recv.nextOffset) := by
  intro s r
  have h : Sound s := hops.invariant sound_step (sound_start hpeer)
  have hslices : ∀ op ∈ arrivals, op.SliceOf s.enqueued := by
    intro op hop
    have harrives := harrivals op hop
    cases op with
    | read len => trivial
    | data offset bytes fin =>
      obtain ⟨e,he,hid,hdecode⟩ := harrives
      obtain ⟨bytes',hslice,-,hsent⟩ := decode_emission h hmax he hid
      cases hdecode.symm.trans hsent
      exact hslice
  have hr := RecvSession.sound_run recvMax hslices
  refine ⟨fun e he hid => decode_emission h hmax he hid,hr.carries.prefix_eq,hr.carries.next_le,fun hroom n hcovered => ?_⟩
  exact (((Along.of_forall _ hslices).and hroom).invariant RecvSession.complete_step
    ⟨RecvSession.sound_start _ _,by simp [RecvSession.Accepted,RecvSession.start]⟩).released hcovered

/-- Lost and sent again in two pieces, of which the second arrives first. -/
theorem stream_end_to_end_split :
    let r := run RecvSession.step (.start 9) [.data 2 [9] true, .read 1, .data 0 [7, 8] false]
    r.readBytes ++ r.recv.delivered = [7, 8, 9].take r.recv.nextOffset :=
  (stream_end_to_end 9 9 [.enqueue [7, 8, 9], .finish, .carve 0 9, .lost ⟨0, 3, true⟩, .popRtx 0 2, .popRtx 0 9]
    [.data 2 [9] true, .read 1, .data 0 [7, 8] false] (by decide) (by decide +kernel) (by decide +kernel)
    (forall_mem_cons.mpr ⟨⟨_,mem_cons_self,by decide +kernel⟩,forall_mem_cons.mpr ⟨trivial,
      forall_mem_singleton.mpr ⟨_,mem_cons_of_mem _ mem_cons_self,by decide +kernel⟩⟩⟩)).2.1
end SendSession
end PureCrypto.Quic
