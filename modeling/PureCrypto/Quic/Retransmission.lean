import PureCrypto.Framework.Trace
import PureCrypto.Quic.HeldChunks

/-! # Retransmission on one send stream -/
namespace PureCrypto.Quic
open Intervals Trace List
/-- A frame as it was written for stream `id`. -/
structure Emission where
  id : Nat
  frame : StreamFrame
  wire : List UInt8

inductive SendOp
  | enqueue (data : List UInt8)
  | finish
  | carve (id cap : Nat)
  | popRtx (id maxPayload : Nat)
  | acked (frame : StreamFrame)
  | lost (frame : StreamFrame)
  | requeueAll

structure SendSession where
  send : SendStream
  enqueued : List UInt8
  emitted : List Emission
  acked : List StreamFrame
namespace SendSession
def start (peerMaxData : Nat) : SendSession := ⟨.new peerMaxData, [], [], []⟩

def emit (s : SendSession) (id : Nat) : Option StreamFrame × SendStream × List UInt8 → SendSession
  | (some frame, send, wire) => { s with send := send, emitted := ⟨id, frame, wire⟩ :: s.emitted }
  | (none, send, _) => { s with send := send }

def step (s : SendSession) : SendOp → SendSession
  | .enqueue data =>
    let (n, send) := s.send.enqueue data
    { s with send := send, enqueued := s.enqueued ++ data.take n }
  | .finish => { s with send := s.send.finish }
  | .carve id cap => s.emit id (s.send.carveFrame id cap [])
  | .popRtx id maxPayload => s.emit id (s.send.popRtxFrame id maxPayload [])
  | .acked f => { s with send := s.send.onRangeAcked f.offset f.len f.fin, acked := f :: s.acked }
  | .lost f => { s with send := (s.send.onRangeLost f.offset f.len f.fin).2 }
  | .requeueAll => { s with send := s.send.requeueAllSent }

/-- Only frames that were emitted are acknowledged or lost. -/
def Valid (s : SendSession) : SendOp → Prop
  | .acked f => ∃ e ∈ s.emitted, e.frame = f
  | .lost f => ∃ e ∈ s.emitted, e.frame = f
  | _ => True

instance (s : SendSession) (op : SendOp) : Decidable (s.Valid op) :=
  match op with
  | .acked f => inferInstanceAs (Decidable (∃ e ∈ s.emitted, e.frame = f))
  | .lost f => inferInstanceAs (Decidable (∃ e ∈ s.emitted, e.frame = f))
  | .enqueue _ | .finish | .carve _ _ | .popRtx _ _ | .requeueAll => isTrue trivial

/-- A written frame carries the bytes of `S` at its offset. -/
structure Carried (S : List UInt8) (w : Nat) (h : List Chunk) (finSent : Bool) (e : Emission) :
    Prop where
  below : e.frame.offset + e.frame.len ≤ w
  wire : e.wire = encodeStreamHeader [] e.id e.frame.offset e.frame.len e.frame.fin ++
    (S.drop e.frame.offset).take e.frame.len
  fin : e.frame.fin = true → finSent = true ∧ e.frame.offset + e.frame.len = w ∧
    ∀ c ∈ h, c.fin = true → e.frame.offset ≤ c.off

/-- The invariant of a session whose send half accounts for its bytes with the chunks `h`. -/
structure SoundWith (s : SendSession) (h : List Chunk) : Prop where
  holds : Holds s.enqueued s.send.writeOff h s.send.ackedRanges s.send.finSent s.send.finAcked
  buffer : s.send.writeBuf = s.enqueued.drop s.send.writeOff
  length : s.send.writeOff + s.send.writeBuf.length = s.enqueued.length
  sent : s.send.sentOffset = s.send.writeOff
  credit : s.enqueued.length ≤ s.send.peerMaxData
  peer : s.send.peerMaxData < u64Bound
  closing : s.send.finSent = true →
    s.send.writeBuf = [] ∧ s.send.state ≠ .ready ∧ s.send.state ≠ .send
  done : s.send.state = .dataRecvd → s.send.finAcked = true ∧ s.send.writeBuf = [] ∧ h = []
  frames : ∀ e ∈ s.emitted, Carried s.enqueued s.send.writeOff h s.send.finSent e
  acks : ∀ x, Covers s.send.ackedRanges x ↔ ∃ f ∈ s.acked, f.offset ≤ x ∧ x < f.offset + f.len
  finAcks : s.send.finAcked = true ↔ ∃ f ∈ s.acked, f.fin = true

def Sound (s : SendSession) : Prop := SoundWith s s.send.held

theorem sound_start {peerMaxData : Nat} (h : peerMaxData < u64Bound) :
    Sound (start peerMaxData) where
  holds :=
    { apart := List.Pairwise.nil
      slices := fun _ hc => absurd hc not_mem_nil
      below := fun _ hc => absurd hc not_mem_nil
      cover := fun x => ⟨fun hx => absurd hx (Nat.not_lt_zero x),fun hx => by
        rcases hx with ⟨c,hc,-⟩ | hx
        · exact absurd hc not_mem_nil
        · exact absurd hx (not_covers_empty x)⟩
      separated := Separated.empty
      finCount := rfl
      finEnd := fun _ hc => absurd hc not_mem_nil
      finAcked_sent := fun h => absurd h Bool.false_ne_true }
  buffer := rfl
  length := rfl
  sent := rfl
  credit := Nat.zero_le _
  peer := h
  closing := fun h => absurd h Bool.false_ne_true
  done := nofun
  frames := fun _ he => absurd he not_mem_nil
  acks := fun x => ⟨fun hx => absurd hx (not_covers_empty x),fun ⟨_,hf,_⟩ =>
    absurd hf not_mem_nil⟩
  finAcks := ⟨fun h => absurd h Bool.false_ne_true,fun ⟨_,hf,_⟩ => absurd hf not_mem_nil⟩
variable {s : SendSession}
theorem SoundWith.stop_lt {held : List Chunk} (h : SoundWith s held) : ∀ c ∈ held, c.stop < u64Bound := by
  intro c hc
  have h1 := h.holds.below c hc
  have h2 := h.length
  have h3 := h.credit
  have h4 := h.peer
  omega

theorem Carried.of_held {S : List UInt8} {w : Nat} {h h' : List Chunk} {finSent : Bool}
    {e : Emission} (H : Carried S w h finSent e)
    (hh : ∀ c ∈ h', c.fin = true → ∃ d ∈ h, d.fin = true ∧ d.off ≤ c.off) : Carried S w h' finSent e := by
  refine ⟨H.below,H.wire,?_⟩
  intro hfin
  obtain ⟨hs,hw,hoff⟩ := H.fin hfin
  refine ⟨hs,hw,?_⟩
  intro c hc hcfin
  obtain ⟨d,hd,hdfin,hle⟩ := hh c hc hcfin
  exact le_trans (hoff d hd hdfin) hle

theorem sound_enqueue (h : Sound s) (data : List UInt8) : Sound (s.step (.enqueue data)) := by
  simp only [step]
  rcases s.send.enqueue_cases data with heq | ⟨n,hn,hroom,hopen,heq⟩
  · rw [heq,take_zero,append_nil]
    exact h
  · rw [heq]
    have hlen := h.length
    have hsent := h.sent
    have htake : (data.take n).length = n := by simp [hn]
    have hunsent : s.send.finSent = false := by
      cases hfs : s.send.finSent with
      | false => rfl
      | true =>
        obtain ⟨-,h1,h2⟩ := h.closing hfs
        exact absurd hopen (not_or.mpr ⟨h1,h2⟩)
    refine ⟨h.holds.grow _,?_,?_,hsent,?_,h.peer,?_,?_,?_,h.acks,h.finAcks⟩
    · have hw : s.send.writeOff ≤ s.enqueued.length := by omega
      simp only [h.buffer,drop_append_of_le_length hw]
    · simp only [length_append,htake]
      omega
    · simp only [length_append,htake]
      omega
    · intro hfs
      rw [hunsent] at hfs
      cases hfs
    · intro hst
      cases hst
    · intro e he
      have hc := h.frames e he
      refine ⟨hc.below,?_,hc.fin⟩
      have hb := hc.below
      rw [hc.wire,drop_append_of_le_length (by omega),take_append_of_le_length (by rw [length_drop]; omega)]

theorem sound_finish (h : Sound s) : Sound (s.step .finish) := by
  simp only [step,SendStream.finish]
  split_ifs
  · exact h
  · exact ⟨h.holds,h.buffer,h.length,h.sent,h.credit,h.peer,h.closing,h.done,h.frames,h.acks,h.finAcks⟩

theorem SoundWith.push {c : Chunk} (h : SoundWith s (c :: s.send.held)) :
    Sound { s with send := s.send.pushSent c } := by
  have hrest := s.send.pushSent_rest c
  have H := SendStream.pushSent_holds h.holds (h.stop_lt c mem_cons_self)
  have hmem : ∀ d ∈ (s.send.pushSent c).held, d ∈ c :: s.send.held := by
    intro d hd
    rcases SendStream.mem_held_pushSent hd with rfl | hd
    · exact mem_cons_self
    · exact mem_cons_of_mem _ hd
  have hframes : ∀ e ∈ s.emitted, Carried s.enqueued s.send.writeOff (s.send.pushSent c).held
      s.send.finSent e := fun e he =>
    (h.frames e he).of_held (fun d hd hfin => ⟨d,hmem d hd,hfin,le_refl _⟩)
  rw [hrest] at H hframes ⊢
  refine ⟨H,h.buffer,h.length,h.sent,h.credit,h.peer,h.closing,?_,hframes,h.acks,h.finAcks⟩
  intro hst
  exact nomatch (h.done hst).2.2
section
variable (h : Sound s)
include h
theorem sound_carve (id cap : Nat) : Sound (s.step (.carve id cap)) := by
  simp only [step]
  rcases s.send.carveFrame_cases id cap [] with ⟨-,heq⟩ | ⟨take,fin,hout,htake,hfin,heq⟩
  · rw [heq]
    exact h
  rw [heq]
  have hlen := h.length
  have hsent := h.sent
  have hle : take ≤ s.send.writeBuf.length := by omega
  have hbytes : (s.send.writeBuf.take take).length = take := by simp [hle]
  have hslice : s.send.writeBuf.take take <+: s.enqueued.drop s.send.writeOff := by
    rw [← h.buffer]
    exact take_prefix _ _
  have hafter : s.send.finSent = true → s.send.writeBuf.take take = [] := by
    intro hfs
    rw [(h.closing hfs).1,take_nil]
  have H := h.holds.fresh hslice (fun hf => (hfin.mp hf).2.2) hafter
  rw [hbytes] at H
  refine SoundWith.push (s := { s with
    send := _, emitted := ⟨id,⟨s.send.writeOff,take,fin⟩,_⟩ :: s.emitted }) ?_
  refine ⟨H,?_,?_,?_,h.credit,h.peer,?_,?_,?_,h.acks,h.finAcks⟩
  · simp only [h.buffer,drop_drop]
  · simp only [length_drop]
    omega
  · simp only
    omega
  · intro hfs
    cases hf : fin with
    | true =>
      obtain ⟨-,hall,-⟩ := hfin.mp hf
      refine ⟨?_,by simp,by simp⟩
      simp only [hall,drop_length]
    | false =>
      rw [hf,Bool.or_false] at hfs
      obtain ⟨hnil,hready,hsend⟩ := h.closing hfs
      refine ⟨by simp only [hnil,drop_nil],?_⟩
      simp only [Bool.false_eq_true,if_false,hready,false_and]
      exact ⟨hready,hsend⟩
  · -- a finished stream has nothing left to carve
    intro hst
    have hrecvd : s.send.state = .dataRecvd := by
      split_ifs at hst
      exact hst
    obtain ⟨hacked,hnil,hheld⟩ := h.done hrecvd
    have hrtx : s.send.rtxQueue = [] := (append_eq_nil_iff.mp hheld).2
    have hfs := h.holds.finAcked_sent hacked
    simp [SendStream.hasOutbound,hrtx,hnil,hfs] at hout
  · intro e he
    rcases List.mem_cons.mp he with rfl | he
    · refine ⟨le_refl _,by simp only [h.buffer],?_⟩
      intro hf
      refine ⟨by simp only [Bool.or_eq_true]; exact .inr hf,rfl,?_⟩
      intro c hc hcfin
      rcases List.mem_cons.mp hc with rfl | hc
      · exact le_refl _
      · have hun := (h.holds.fin_unacked hc hcfin).1
        rw [(hfin.mp hf).2.2] at hun
        cases hun
    · have hc := h.frames e he
      refine ⟨le_trans hc.below (Nat.le_add_right _ _),hc.wire,?_⟩
      intro hf
      obtain ⟨hfs,hend,hoff⟩ := hc.fin hf
      have hzero : take = 0 := by rw [htake,(h.closing hfs).1,length_nil,Nat.min_zero]
      refine ⟨by simp only [hfs,Bool.true_or],by simp only [hzero]; exact hend,?_⟩
      intro c hc' hcfin
      rcases List.mem_cons.mp hc' with rfl | hc'
      · have hun := (hfin.mp hcfin).2.2
        rw [hfs] at hun
        cases hun
      · exact hoff c hc' hcfin

theorem sound_popRtx (id maxPayload : Nat) : Sound (s.step (.popRtx id maxPayload)) := by
  simp only [step,SendStream.popRtxFrame]
  cases hq : s.send.rtxQueue with
  | nil => exact h
  | cons c rest =>
    have hp : s.send.held.Perm (c :: (s.send.sentChunks ++ rest)) := by
      rw [SendStream.held,hq]
      exact perm_middle
    have hc : c ∈ s.send.held := hp.mem_iff.mpr mem_cons_self
    have hbytes := prefix_iff_eq_take.mp (h.holds.slices c hc)
    have hopen : s.send.state ≠ .dataRecvd := by
      intro hst
      rw [(h.done hst).2.2] at hc
      exact absurd hc not_mem_nil
    have hbelow := h.holds.below c hc
    by_cases hfit : c.bytes.length ≤ maxPayload
    · simp only [if_pos hfit,emit]
      refine SoundWith.push (s := { s with
        send := { s.send with rtxQueue := rest }
        emitted := ⟨id,⟨c.off,c.bytes.length,c.fin⟩,_⟩ :: s.emitted }) ?_
      refine ⟨h.holds.perm hp,h.buffer,h.length,h.sent,h.credit,h.peer,h.closing,
        fun hst => absurd hst hopen,?_,h.acks,h.finAcks⟩
      intro e he
      rcases List.mem_cons.mp he with rfl | he
      · refine ⟨hbelow,by simp only [← hbytes],?_⟩
        intro hf
        refine ⟨(h.holds.fin_unacked hc hf).1,h.holds.finEnd c hc hf,?_⟩
        intro d hd hdfin
        rcases List.mem_cons.mp hd with rfl | hd
        · exact le_refl _
        · have hnone := h.holds.fin_unique hp hf d hd
          rw [hnone] at hdfin
          cases hdfin
      · exact (h.frames e he).of_held (fun d hd hfin => ⟨d,hp.mem_iff.mpr hd,hfin,le_refl _⟩)
    · simp only [if_neg hfit,emit]
      have H := h.holds.split hp maxPayload (by omega)
      have htail : (⟨c.off + maxPayload,c.bytes.drop maxPayload,c.fin⟩ ::
          (s.send.sentChunks ++ rest)).Perm (s.send.sentChunks ++
            ⟨c.off + maxPayload,c.bytes.drop maxPayload,c.fin⟩ :: rest) := perm_middle.symm
      refine SoundWith.push (s := { s with
        send := { s.send with
          rtxQueue := ⟨c.off + maxPayload,c.bytes.drop maxPayload,c.fin⟩ :: rest }
        emitted := ⟨id,⟨c.off,maxPayload,false⟩,_⟩ :: s.emitted }) ?_
      refine ⟨H.perm (htail.cons _),h.buffer,h.length,h.sent,h.credit,h.peer,h.closing,
        fun hst => absurd hst hopen,?_,h.acks,h.finAcks⟩
      intro e he
      rcases List.mem_cons.mp he with rfl | he
      · refine ⟨?_,?_,fun hf => absurd hf Bool.false_ne_true⟩
        · simp only [Chunk.stop] at hbelow ⊢
          omega
        · conv_lhs => rw [hbytes,take_take,min_eq_left (by omega)]
      · refine (h.frames e he).of_held ?_
        intro d hd hfin
        rcases List.mem_cons.mp hd with rfl | hd
        · cases hfin
        · rcases List.mem_cons.mp (htail.mem_iff.mpr hd) with rfl | hd
          · exact ⟨c,hc,hfin,Nat.le_add_right _ _⟩
          · exact ⟨d,hp.mem_iff.mpr (mem_cons_of_mem _ hd),hfin,le_refl _⟩

/-- An acknowledged frame with the FIN covers the chunk that still holds it. -/
private theorem fin_chunk_acked {e : Emission} (he : e ∈ s.emitted)
    (hf : e.frame.fin = true) {c : Chunk} (hc : c ∈ s.send.held) (hcfin : c.fin = true) {x : Nat}
    (hx : c.Contains x) : e.frame.offset ≤ x ∧ x < e.frame.offset + e.frame.len := by
  obtain ⟨-,hend,hoff⟩ := (h.frames e he).fin hf
  have h1 := hoff c hc hcfin
  have h2 := h.holds.finEnd c hc hcfin
  have h3 := hx.1
  have h4 := hx.2
  omega

theorem sound_acked {f : StreamFrame} (hvalid : ∃ e ∈ s.emitted, e.frame = f) : Sound (s.step (.acked f)) := by
  obtain ⟨e,he,rfl⟩ := hvalid
  have hbelow := (h.frames e he).below
  have hlen := h.length
  have hcr := h.credit
  have hpeer := h.peer
  obtain ⟨removed,heff⟩ := SendStream.onRangeAcked_effect h.holds.separated h.stop_lt e.frame.offset
    e.frame.len e.frame.fin (by omega)
  simp only [step]
  generalize s.send.onRangeAcked e.frame.offset e.frame.len e.frame.fin = s' at heff
  have hranges : s'.ackedRanges = insertRange s.send.ackedRanges e.frame.offset
      (e.frame.offset + e.frame.len) := by rw [heff.rest]
  have hfa : s'.finAcked = (s.send.finAcked || e.frame.fin) := by rw [heff.rest]
  have Hack := h.holds.ack (a := e.frame.offset) hbelow
  rw [← hranges] at Hack
  have hmem : ∀ c ∈ s'.held, c ∈ s.send.held := fun c hc =>
    heff.pruned.perm.mem_iff.mpr (mem_append_right _ hc)
  have H : Holds s.enqueued s.send.writeOff s'.held s'.ackedRanges s.send.finSent s'.finAcked := by
    refine Hack.drop removed heff.pruned.perm heff.pruned.covered ?_
    by_cases hnew : e.frame.fin = true ∧ s.send.finAcked = false
    · refine .inr ⟨by rw [hfa,hnew.1,Bool.or_true],((h.frames e he).fin hnew.1).1,?_⟩
      intro c hc
      cases hcfin : c.fin with
      | false => rfl
      | true =>
        have hun := heff.fresh hnew.1 hnew.2 c hc
        have hacked : s'.chunkAcked c.off c.bytes.length c.fin = true := by
          refine (SendStream.chunkAcked_iff Hack.separated (h.stop_lt c (hmem c hc))).mpr
            ⟨?_,fun _ => by rw [hfa,hnew.1,Bool.or_true]⟩
          intro x hx
          rw [hranges,(insertRange_spec h.holds.separated _ _).2]
          exact .inr (fin_chunk_acked h he hnew.1 (hmem c hc) hcfin hx)
        rw [hacked] at hun
        cases hun
    · have hsame : s'.finAcked = s.send.finAcked := by
        rw [hfa]
        cases hf : e.frame.fin with
        | false => exact Bool.or_false _
        | true =>
          cases hold : s.send.finAcked with
          | true => rfl
          | false => exact absurd ⟨hf,hold⟩ hnew
      refine .inl ⟨hsame,?_⟩
      intro c hc
      cases hcfin : c.fin with
      | false => rfl
      | true =>
        have hin : c ∈ s.send.held := heff.pruned.perm.mem_iff.mpr (mem_append_left _ hc)
        have hacked := heff.pruned.fins c hc hcfin
        rw [hsame,(h.holds.fin_unacked hin hcfin).2] at hacked
        cases hacked
  have hframes : ∀ e ∈ s.emitted, Carried s.enqueued s.send.writeOff s'.held s.send.finSent e :=
    fun e he => (h.frames e he).of_held (fun d hd hfin => ⟨d,hmem d hd,hfin,le_refl _⟩)
  have hbuf : s'.writeBuf = s.send.writeBuf := by rw [heff.rest]
  have hfs : s'.finSent = s.send.finSent := by rw [heff.rest]
  have hw : s'.writeOff = s.send.writeOff := by rw [heff.rest]
  have hso : s'.sentOffset = s.send.sentOffset := by rw [heff.rest]
  have hmax : s'.peerMaxData = s.send.peerMaxData := by rw [heff.rest]
  rw [← hw,← hfs] at H hframes
  refine ⟨H,hbuf ▸ hw ▸ h.buffer,hbuf ▸ hw ▸ h.length,hso ▸ hw ▸ h.sent,hmax ▸ h.credit,hmax ▸ h.peer,
    ?_,?_,hframes,?_,?_⟩
  · rw [hfs,hbuf]
    intro hsent
    obtain ⟨hnil,hready,hsend⟩ := h.closing hsent
    rcases heff.state with hst | ⟨hst,-⟩ <;> rw [hst]
    · exact ⟨hnil,hready,hsend⟩
    · exact ⟨hnil,by decide,by decide⟩
  · intro hst
    rcases heff.state with hsame | ⟨-,hfin,hnil,hheld,-⟩
    · obtain ⟨hfin,hnil,hheld⟩ := h.done (hsame ▸ hst)
      have hperm := heff.pruned.perm
      rw [hheld] at hperm
      have hempty := (append_eq_nil_iff.mp (nil_perm.mp hperm)).2
      exact ⟨by rw [hfa,hfin,Bool.true_or],by rw [hbuf]; exact hnil,hempty⟩
    · exact ⟨hfin,hnil,hheld⟩
  · intro x
    simp only [List.mem_cons,exists_eq_or_imp]
    rw [hranges,(insertRange_spec h.holds.separated _ _).2 x,h.acks x,or_comm]
  · simp only [List.mem_cons,exists_eq_or_imp]
    rw [hfa,Bool.or_eq_true,h.finAcks,or_comm]

/-- Chunks that only move between the queues, or go once acknowledged, keep the invariant. -/
private theorem Sound.requeue (removed : List Chunk) {sent rtx : List Chunk}
    {sorted : Bool} (hp : s.send.held.Perm (removed ++ (sent ++ rtx)))
    (hacked : ∀ c ∈ removed, s.send.chunkAcked c.off c.bytes.length c.fin = true) :
    Sound { s with send := { s.send with sentChunks := sent, sentSorted := sorted, rtxQueue := rtx } } := by
  have hmem : ∀ c ∈ removed, c ∈ s.send.held := fun c hc =>
    hp.mem_iff.mpr (mem_append_left _ hc)
  have hmeaning := fun c hc => (SendStream.chunkAcked_iff h.holds.separated
    (h.stop_lt c (hmem c hc))).mp (hacked c hc)
  refine ⟨?_,h.buffer,h.length,h.sent,h.credit,h.peer,h.closing,?_,?_,h.acks,h.finAcks⟩
  · refine h.holds.drop removed hp (fun c hc => (hmeaning c hc).1) (.inl ⟨rfl,?_⟩)
    intro c hc
    cases hcfin : c.fin with
    | false => rfl
    | true =>
      have hfa := (hmeaning c hc).2 hcfin
      rw [(h.holds.fin_unacked (hmem c hc) hcfin).2] at hfa
      cases hfa
  · intro hst
    obtain ⟨hfin,hnil,hheld⟩ := h.done hst
    rw [hheld] at hp
    exact ⟨hfin,hnil,(append_eq_nil_iff.mp (nil_perm.mp hp)).2⟩
  · intro e he
    refine (h.frames e he).of_held (fun d hd hfin => ⟨d,?_,hfin,le_refl _⟩)
    exact hp.mem_iff.mpr (mem_append_right _ hd)

theorem sound_lost (f : StreamFrame) : Sound (s.step (.lost f)) := by
  refine h.requeue [] ?_ (fun c hc => absurd hc not_mem_nil)
  have hp := SendStream.filter_not_perm (fun c => (c.off < saturatingAdd f.offset f.len &&
    f.offset < c.off + c.bytes.length || c.bytes.isEmpty && c.fin && f.fin && c.off == f.offset) &&
      !s.send.chunkAcked c.off c.bytes.length c.fin) s.send.sentChunks
  refine (hp.append_right s.send.rtxQueue).trans ?_
  rw [nil_append,append_assoc]
  refine perm_append_comm.trans ?_
  rw [append_assoc]

theorem sound_requeueAll : Sound (s.step .requeueAll) := by
  refine h.requeue (s.send.sentChunks.filter
    (fun c => s.send.chunkAcked c.off c.bytes.length c.fin)) ?_ (fun c hc => (mem_filter.mp hc).2)
  have hp := SendStream.filter_not_perm
    (fun c => s.send.chunkAcked c.off c.bytes.length c.fin) s.send.sentChunks
  refine (hp.append_right s.send.rtxQueue).trans ?_
  rw [append_assoc]
  exact List.Perm.append_left _ perm_append_comm
end
theorem sound_step (s : SendSession) (op : SendOp) (h : Sound s) (hop : s.Valid op) : Sound (s.step op) := by
  cases op with
  | enqueue data => exact sound_enqueue h data
  | finish => exact sound_finish h
  | carve id cap => exact sound_carve h id cap
  | popRtx id maxPayload => exact sound_popRtx h id maxPayload
  | acked f => exact sound_acked h hop
  | lost f => exact sound_lost h f
  | requeueAll => exact sound_requeueAll h

/-- Nothing the application wrote is lost before the peer has it. -/
structure NoLoss (s : SendSession) : Prop where
  frames : ∀ e ∈ s.emitted, e.frame.offset + e.frame.len ≤ s.enqueued.length ∧
    e.wire = encodeStreamHeader [] e.id e.frame.offset e.frame.len e.frame.fin ++
      (s.enqueued.drop e.frame.offset).take e.frame.len
  disjoint : (s.send.sentChunks ++ s.send.rtxQueue).Pairwise Chunk.Apart
  cover : ∀ x, x < s.send.writeOff ↔
    (∃ c ∈ s.send.sentChunks ++ s.send.rtxQueue, c.Contains x) ∨ Covers s.send.ackedRanges x
  acks : ∀ x, Covers s.send.ackedRanges x ↔ ∃ f ∈ s.acked, f.offset ≤ x ∧ x < f.offset + f.len
  fin : (s.send.finSent = false ∧ s.send.finAcked = false ∧
      (s.send.sentChunks ++ s.send.rtxQueue).countP Chunk.fin = 0) ∨
    (s.send.finSent = true ∧ s.send.finAcked = false ∧
      (s.send.sentChunks ++ s.send.rtxQueue).countP Chunk.fin = 1) ∨
    (s.send.finSent = true ∧ s.send.finAcked = true ∧
      (s.send.sentChunks ++ s.send.rtxQueue).countP Chunk.fin = 0)
  done : s.send.state = .dataRecvd →
    (∀ x, x < s.enqueued.length → ∃ f ∈ s.acked, f.offset ≤ x ∧ x < f.offset + f.len) ∧
      ∃ f ∈ s.acked, f.fin = true

theorem noLoss_run (peerMaxData : Nat) (hmax : peerMaxData < u64Bound) (ops : List SendOp)
    (hops : Along step Valid (start peerMaxData) ops) : NoLoss (run step (start peerMaxData) ops) := by
  have h := hops.invariant sound_step (sound_start hmax)
  generalize run step (start peerMaxData) ops = s at h
  refine ⟨?_,h.holds.apart,h.holds.cover,h.acks,?_,?_⟩
  · intro e he
    have hc := h.frames e he
    have hlen := h.length
    have hb := hc.below
    exact ⟨by omega,hc.wire⟩
  · have hcount := h.holds.finCount
    have hsent := h.holds.finAcked_sent
    cases hfs : s.send.finSent with
    | false =>
      have hfa : s.send.finAcked = false := by
        cases hfa : s.send.finAcked with
        | false => rfl
        | true =>
          rw [hsent hfa] at hfs
          cases hfs
      rw [hfs] at hcount
      exact .inl ⟨rfl,hfa,hcount⟩
    | true =>
      cases hfa : s.send.finAcked with
      | false =>
        rw [hfs,hfa] at hcount
        exact .inr (.inl ⟨rfl,rfl,hcount⟩)
      | true =>
        rw [hfs,hfa] at hcount
        exact .inr (.inr ⟨rfl,rfl,hcount⟩)
  · intro hst
    obtain ⟨hfin,hnil,hheld⟩ := h.done hst
    refine ⟨?_,h.finAcks.mp hfin⟩
    intro x hx
    have hlen := h.length
    rw [hnil,length_nil] at hlen
    rcases (h.holds.cover x).mp (by omega) with ⟨c,hc,-⟩ | hcov
    · rw [hheld] at hc
      exact absurd hc not_mem_nil
    · exact (h.acks x).mp hcov

/-- Two frames, the first lost, split and sent again; everything acknowledged in the end. -/
theorem noLoss_run_split : NoLoss (run step (start 100) [.enqueue [1, 2, 3, 4], .carve 0 3, .finish, .carve 0 8,
      .lost ⟨0, 3, false⟩, .popRtx 0 2, .acked ⟨3, 1, true⟩, .requeueAll, .popRtx 0 8, .acked ⟨0, 3, false⟩]) :=
  noLoss_run 100 (by decide) _ (by decide +kernel)
end SendSession
end PureCrypto.Quic
