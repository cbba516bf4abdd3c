import PureCrypto.Framework.Trace
import PureCrypto.Quic.CryptoBuf

/-! # CRYPTO retransmission -/
namespace PureCrypto.Quic
open Fragments List Nat Option
namespace CryptoBuf
def RunOf (C : List UInt8) (e : Nat × List UInt8) : Prop := e.2 ≠ [] ∧ e.2 <+: C.drop e.1

/-- The outbound side after the bytes of `C` were carved. -/
structure Carved (C : List UInt8) (b : CryptoBuf) : Prop where
  offset_eq : b.outboundOffset = C.length
  history : ∀ e ∈ b.sentHistory.entries, RunOf C e
  queued : ∀ e ∈ b.rtx, RunOf C e
  last : ∀ e, b.lastSent = some e → RunOf C e

/-- The history has the first `length` bytes of what was carved at `offset`. -/
def Known (b : CryptoBuf) (offset length : Nat) : Prop :=
  ∃ v, b.sentHistory.get? offset = some v ∧ length ≤ v.length
section Runs
variable {C D : List UInt8} {e : Nat × List UInt8}
theorem RunOf.le (h : RunOf C e) : e.1 + e.2.length ≤ C.length := by
  have hpos := length_pos_of_ne_nil h.1
  have hlen := h.2.length_le
  rw [length_drop] at hlen
  omega

theorem RunOf.append (h : RunOf C e) (D : List UInt8) : RunOf (C ++ D) e := by
  have hle := h.le
  refine ⟨h.1,h.2.trans ?_⟩
  rw [drop_append_of_le_length (by omega)]
  exact prefix_append _ _

theorem take_ne_nil {l : List UInt8} {n : Nat} (hn : 1 ≤ n) (hl : l ≠ []) : l.take n ≠ [] := by
  intro hnil
  rcases take_eq_nil_iff.mp hnil with hzero | hempty
  · omega
  · exact hl hempty

theorem RunOf.take (h : RunOf C e) {n : Nat} (hn : 1 ≤ n) : RunOf C (e.1, e.2.take n) :=
  ⟨take_ne_nil hn h.1,(List.take_prefix _ _).trans h.2⟩

theorem RunOf.drop (h : RunOf C e) {n : Nat} (hn : n < e.2.length) : RunOf C (e.1 + n, e.2.drop n) := by
  refine ⟨?_,slice_drop n h.2⟩
  intro hnil
  have hlen := drop_eq_nil_iff.mp hnil
  omega

theorem RunOf.end (hD : D ≠ []) : RunOf (C ++ D) (C.length, D) := by
  refine ⟨hD,[],?_⟩
  rw [append_nil,drop_left]
theorem RunOf.eq_take (h : RunOf C e) : (C.drop e.1).take e.2.length = e.2 :=
  (prefix_iff_eq_take.mp h.2).symm

theorem Carved.append {b : CryptoBuf} (h : b.Carved C) (D : List UInt8) :
    ({ b with outboundOffset := C.length + D.length }).Carved (C ++ D) where
  offset_eq := length_append.symm
  history := fun e he => (h.history e he).append D
  queued := fun e he => (h.queued e he).append D
  last := fun e he => (h.last e he).append D
end Runs
section Carving
variable {C : List UInt8} {b : CryptoBuf} {cap : Nat}
/-- A retransmission is cut from the head of the queue; the history keeps what it knew. -/
theorem carveRtx_carved (h : b.Carved C) (hcap : 1 ≤ cap) {offset : Nat} {chunk : List UInt8}
    {rest : List (Nat × List UInt8)} (hrtx : b.rtx = (offset, chunk) :: rest) :
    (b.carveRtx cap offset chunk rest).1.Carved C ∧ RunOf C (offset, (b.carveRtx cap offset chunk rest).2) := by
  have hhead : RunOf C (offset, chunk) := h.queued _ (hrtx ▸ mem_cons_self)
  have hcut : RunOf C (offset, chunk.take cap) := hhead.take hcap
  have hrest : ∀ e ∈ rest, RunOf C e := fun e he => h.queued e (hrtx ▸ mem_cons_of_mem _ he)
  refine ⟨⟨h.offset_eq,?_,?_,?_⟩,hcut⟩
  · intro e he
    simp only [carveRtx] at he
    split_ifs at he
    · rcases (b.sentHistory.mem_insert _ _ e).mp he with rfl | ⟨he,-⟩
      · exact hcut
      · exact h.history e he
    · exact h.history e he
  · intro e he
    simp only [carveRtx] at he
    split_ifs at he with hlong
    · rcases List.mem_cons.mp he with rfl | he
      · exact hhead.drop hlong
      · exact hrest e he
    · exact hrest e he
  · intro e he
    cases he
    exact hcut

theorem carveRtx_known (b : CryptoBuf) (cap offset : Nat) (chunk : List UInt8) (rest : List (Nat × List UInt8)) :
    (b.carveRtx cap offset chunk rest).1.Known offset (b.carveRtx cap offset chunk rest).2.length ∧
      ∀ a n, b.Known a n → (b.carveRtx cap offset chunk rest).1.Known a n := by
  simp only [carveRtx,Known]
  split_ifs with hlonger
  · refine ⟨⟨_,b.sentHistory.get?_insert_self _ _,le_refl _⟩,?_⟩
    rintro a n ⟨v,hv,hn⟩
    by_cases ha : a = offset
    · subst ha
      simp only [hv,map_some,getD_some] at hlonger
      exact ⟨_,b.sentHistory.get?_insert_self _ _,hn.trans hlonger⟩
    · exact ⟨v,by rw [b.sentHistory.get?_insert_ne _ ha,hv],hn⟩
  · refine ⟨?_,fun a n h => h⟩
    -- a longer entry was there already
    cases hget : b.sentHistory.get? offset with
    | none => simp [hget] at hlonger
    | some v =>
      simp only [hget,map_some,getD_some] at hlonger
      exact ⟨v,rfl,by omega⟩

/-- Fresh bytes extend what was carved, and the history with them. -/
theorem carve_fresh (h : b.Carved C) (hcap : 1 ≤ cap) (hrtx : b.rtx = []) (hout : b.outbound ≠ []) :
    (b.carve cap).1 = some (C.length, b.outbound.take cap) ∧ (b.carve cap).2.outbound = b.outbound.drop cap ∧
      (b.carve cap).2.Carved (C ++ b.outbound.take cap) ∧
      (b.carve cap).2.Known C.length (b.outbound.take cap).length ∧
      ∀ a n, b.Known a n → (b.carve cap).2.Known a n := by
  have hne := take_ne_nil hcap hout
  have hnew : RunOf (C ++ b.outbound.take cap) (C.length, b.outbound.take cap) := RunOf.end hne
  have hmore := h.append (b.outbound.take cap)
  have htake : b.outbound.take (min cap b.outbound.length) = b.outbound.take cap := by
    rw [take_eq_take_iff]
    omega
  have hdrop : b.outbound.drop (min cap b.outbound.length) = b.outbound.drop cap := by
    rw [drop_eq_drop_iff]
    omega
  have hempty : b.outbound.isEmpty = false := by simpa using hout
  simp only [carve,hrtx,hempty,htake,hdrop,h.offset_eq,Bool.false_eq_true,if_false]
  refine ⟨trivial,trivial,⟨hmore.offset_eq,?_,?_,?_⟩,?_,?_⟩
  · intro e he
    rcases (b.sentHistory.mem_insert _ _ e).mp he with rfl | ⟨he,-⟩
    · exact hnew
    · exact hmore.history e he
  · intro e he
    cases he
  · intro e he
    cases he
    exact hnew
  · exact ⟨_,b.sentHistory.get?_insert_self _ _,le_refl _⟩
  · rintro a n ⟨v,hv,hn⟩
    -- everything in the history starts below the fresh bytes
    have hrun := h.history _ ((b.sentHistory.get?_eq_some_iff a v).mp hv)
    have hle := hrun.le
    have hpos := length_pos_of_ne_nil hrun.1
    have hne : a ≠ C.length := by omega
    exact ⟨v,by rw [b.sentHistory.get?_insert_ne _ hne,hv],hn⟩
end Carving
section Requeueing
variable {C : List UInt8} {b : CryptoBuf}
variable {offset length : Nat}
/-- Whatever entries the loop meets, it collects the bytes of `C` from the first one on. -/
theorem gather_run {history : SortedMap Nat (List UInt8)} (h : ∀ e ∈ history.entries, RunOf C e)
    {stop : Nat} (fuel cursor : Nat) (bytes out : List UInt8) (hbytes : bytes <+: C.drop offset)
    (hcursor : cursor = offset + bytes.length) (hstop : cursor ≤ stop)
    (hout : gather history stop fuel cursor bytes = some out) :
    out <+: C.drop offset ∧ offset + out.length = stop := by
  induction fuel generalizing cursor bytes with
  | zero =>
    rw [gather] at hout
    split_ifs at hout with hlt
    cases hout
    exact ⟨hbytes,by omega⟩
  | succ fuel ih =>
    rw [gather] at hout
    split_ifs at hout with hlt
    · cases hentry : history.lastLE cursor with
      | none => simp [hentry] at hout
      | some e =>
        obtain ⟨entryOff,entryBytes⟩ := e
        obtain ⟨hmem,hle,-⟩ := (history.lastLE_eq_some_iff cursor _).mp hentry
        simp only [hentry] at hout hle
        split_ifs at hout with hgap
        have hpart : entryBytes.drop (cursor - entryOff) <+: C.drop cursor := by
          have hdrop := slice_drop (cursor - entryOff) (h _ hmem).2
          rwa [Nat.add_sub_cancel' hle] at hdrop
        have hlen : ((entryBytes.drop (cursor - entryOff)).take
            (min (stop - cursor) (entryBytes.length - (cursor - entryOff)))).length =
            min (stop - cursor) (entryBytes.length - (cursor - entryOff)) := by
          rw [length_take,length_drop]
          omega
        refine ih _ _ ?_ ?_ ?_ hout
        · refine slice_append hbytes ?_
          rw [← hcursor]
          exact (List.take_prefix _ _).trans hpart
        · rw [length_append]
          omega
        · omega
    · cases hout
      exact ⟨hbytes,by omega⟩

/-- The loop takes at least a byte a round. -/
theorem gather_fuel (history : SortedMap Nat (List UInt8)) (stop : Nat) (fuel more cursor : Nat)
    (bytes : List UInt8) (hfuel : stop - cursor ≤ fuel) :
    gather history stop (fuel + more) cursor bytes = gather history stop fuel cursor bytes := by
  induction fuel generalizing cursor bytes with
  | zero =>
    have hdone : ¬ cursor < stop := by omega
    cases more with
    | zero => rfl
    | succ more => simp [gather,hdone]
  | succ fuel ih =>
    rw [Nat.add_right_comm,gather,gather]
    cases hentry : history.lastLE cursor with
    | none => rfl
    | some e =>
      have hle := ((history.lastLE_eq_some_iff cursor e).mp hentry).2.1
      simp only
      split_ifs with hlt hgap
      · rfl
      · exact ih _ _ (by omega)
      · rfl

/-- A range the history has under its own offset is found in one round. -/
theorem gather_of_known (h : b.Known offset length) (hpos : 0 < length) :
    ∃ out, gather b.sentHistory (offset + length) length offset [] = some out := by
  obtain ⟨v,hget,hle⟩ := h
  have hlast : b.sentHistory.lastLE offset = some (offset, v) := by
    rw [SortedMap.lastLE_eq_some_iff]
    exact ⟨(b.sentHistory.get?_eq_some_iff offset v).mp hget,le_refl _,fun e _ hk => hk⟩
  obtain ⟨fuel,rfl⟩ := exists_eq_succ_of_ne_zero hpos.ne'
  have hall : min (offset + (fuel + 1) - offset) (v.length - (offset - offset)) = fuel + 1 := by omega
  have hmore : offset < offset + (fuel + 1) := by omega
  have hreach : ¬ offset + v.length ≤ offset := by omega
  rw [gather,if_pos hmore,hlast]
  simp only [if_neg hreach,hall]
  cases fuel with
  | zero | succ fuel => exact ⟨_,by rw [gather,if_neg (lt_irrefl _)]⟩

theorem requeueRange_carved (h : b.Carved C) (offset length : Nat) : (b.requeueRange offset length).2.Carved C := by
  unfold requeueRange
  split_ifs with hzero hqueued
  · exact h
  · exact h
  · cases hgather : gather b.sentHistory (offset + length) length offset [] with
    | none => exact h
    | some out =>
      obtain ⟨hrun,hend⟩ := gather_run h.history length offset [] out nil_prefix rfl
        (by omega) hgather
      refine ⟨h.offset_eq,h.history,?_,h.last⟩
      refine forall_mem_append.mpr ⟨h.queued,forall_mem_singleton.mpr ⟨?_,hrun⟩⟩
      intro hnil
      simp only at hnil
      rw [hnil,length_nil] at hend
      omega

theorem requeueRange_rest (b : CryptoBuf) (offset length : Nat) :
    (b.requeueRange offset length).2.sentHistory = b.sentHistory ∧
      (b.requeueRange offset length).2.outbound = b.outbound := by
  unfold requeueRange
  split_ifs
  · exact ⟨rfl,rfl⟩
  · exact ⟨rfl,rfl⟩
  · split <;> exact ⟨rfl,rfl⟩

/-- An entry of the queue has all of the range. -/
def Queued (b : CryptoBuf) (offset length : Nat) : Prop :=
  ∃ e ∈ b.rtx, e.1 ≤ offset ∧ offset + length ≤ e.1 + e.2.length

/-- A known range ends up in the queue: it was there, or it is put there now. -/
theorem requeueRange_of_known (h : b.Carved C) (hpos : 0 < length) (hknown : b.Known offset length) :
    (b.requeueRange offset length).2.Queued offset length ∧ ((b.requeueRange offset length).1 = true ∨
        ((b.requeueRange offset length).1 = false ∧ b.Queued offset length)) := by
  obtain ⟨out,hgather⟩ := gather_of_known hknown hpos
  obtain ⟨-,hend⟩ := gather_run h.history length offset [] out nil_prefix rfl (by omega) hgather
  unfold requeueRange
  rw [if_neg hpos.ne',hgather]
  by_cases hqueued : b.rtx.any (fun e => e.1 ≤ offset && offset + length ≤ e.1 + e.2.length) = true
  · rw [if_pos hqueued]
    obtain ⟨e,he,hin⟩ := List.any_eq_true.mp hqueued
    have hq : b.Queued offset length := ⟨e,he,by simpa using hin⟩
    exact ⟨hq,.inr ⟨rfl,hq⟩⟩
  · rw [if_neg hqueued]
    exact ⟨⟨(offset, out),by simp,le_refl _,by simp only; omega⟩,.inl rfl⟩
end Requeueing
theorem mem_onRangeAcked (b : CryptoBuf) (offset length : Nat) (e : Nat × List UInt8) :
    e ∈ (b.onRangeAcked offset length).sentHistory.entries ↔ e ∈ b.sentHistory.entries ∧
        ¬ (offset ≤ e.1 ∧ e.1 < offset + length ∧ e.1 + e.2.length ≤ offset + length) := by
  unfold onRangeAcked
  split_ifs with hzero
  · have hnone : ¬ (offset ≤ e.1 ∧ e.1 < offset + length ∧ e.1 + e.2.length ≤ offset + length) := by
      omega
    simp [hnone]
  · simp only [SortedMap.mem_foldl_erase,mem_filter,SortedMap.mem_range,decide_eq_true_eq]
    refine and_congr_right fun he => ?_
    constructor
    · intro hkept ⟨hlo,hhi,hend⟩
      exact hkept e ⟨⟨he,hlo,hhi⟩,hend⟩ rfl
    · intro hout e' ⟨⟨he',hlo,hhi⟩,hend⟩ hkey
      have hval : e = e' := Prod.ext hkey (b.sentHistory.value_unique he (hkey ▸ he'))
      exact hout (hval ▸ ⟨hlo,hhi,hend⟩)

theorem onRangeAcked_known {b : CryptoBuf} {a n : Nat} (h : b.Known a n) (offset length : Nat) :
    (b.onRangeAcked offset length).Known a n ∨ (offset ≤ a ∧ a + n ≤ offset + length) := by
  obtain ⟨v,hget,hle⟩ := h
  by_cases hin : offset ≤ a ∧ a < offset + length ∧ a + v.length ≤ offset + length
  · exact .inr ⟨hin.1,by omega⟩
  · refine .inl ⟨v,?_,hle⟩
    rw [SortedMap.get?_eq_some_iff,mem_onRangeAcked]
    exact ⟨(b.sentHistory.get?_eq_some_iff a v).mp hget,hin⟩

theorem onRangeAcked_carved {C : List UInt8} {b : CryptoBuf} (h : b.Carved C)
    (offset length : Nat) : (b.onRangeAcked offset length).Carved C := by
  have hmem := b.mem_onRangeAcked offset length
  unfold onRangeAcked at hmem ⊢
  split_ifs at hmem ⊢
  · exact h
  · exact ⟨h.offset_eq,fun e he => h.history e ((hmem e).mp he).1,h.queued,h.last⟩
end CryptoBuf
/-- A buffer that sends, with what was enqueued, carved and acknowledged. -/
structure CryptoSender where
  buf : CryptoBuf
  enqueued : List UInt8
  carved : List (Nat × List UInt8)
  acked : List (Nat × Nat)

inductive CryptoSendOp where
  | enqueueOutbound (data : List UInt8)
  | carve (cap : Nat)
  | requeueRange (offset length : Nat)
  | onRangeAcked (offset length : Nat)
  | scheduleLastChunkRetransmit
  deriving DecidableEq
namespace CryptoSender
def start : CryptoSender := ⟨.new, [], [], []⟩

def step (s : CryptoSender) : CryptoSendOp → CryptoSender
  | .enqueueOutbound data =>
    { s with buf := s.buf.enqueueOutbound data, enqueued := s.enqueued ++ data }
  | .carve cap =>
    { s with buf := (s.buf.carve cap).2, carved := (s.buf.carve cap).1.toList ++ s.carved }
  | .requeueRange offset length => { s with buf := (s.buf.requeueRange offset length).2 }
  | .onRangeAcked offset length =>
    { s with buf := s.buf.onRangeAcked offset length, acked := (offset, length) :: s.acked }
  | .scheduleLastChunkRetransmit => { s with buf := s.buf.scheduleLastChunkRetransmit.2 }

def HasCarved (s : CryptoSender) (offset length : Nat) : Prop :=
  ∃ e ∈ s.carved, e.1 = offset ∧ e.2.length = length

/-- Some single acknowledged range has all of it. -/
def Acked (s : CryptoSender) (offset length : Nat) : Prop :=
  ∃ r ∈ s.acked, r.1 ≤ offset ∧ offset + length ≤ r.1 + r.2

/-- A carve asks for a byte or more, and losses and acknowledgements are of what was carved. -/
def Used (s : CryptoSender) : CryptoSendOp → Prop
  | .carve cap => 1 ≤ cap
  | .requeueRange offset length => s.HasCarved offset length
  | .onRangeAcked offset length => s.HasCarved offset length
  | _ => True

/-- What is enqueued is what was carved, then what waits; what was carved stays known. -/
structure Tracked (s : CryptoSender) (C : List UInt8) : Prop where
  stream : s.enqueued = C ++ s.buf.outbound
  buf : s.buf.Carved C
  runs : ∀ e ∈ s.carved, CryptoBuf.RunOf C e
  known : ∀ e ∈ s.carved, s.Acked e.1 e.2.length ∨ s.buf.Known e.1 e.2.length

theorem tracked_start : start.Tracked [] where
  stream := rfl
  buf := ⟨rfl,nofun,nofun,nofun⟩
  runs := nofun
  known := nofun

theorem tracked_carve {s : CryptoSender} {C : List UInt8} (h : s.Tracked C) {cap : Nat}
    (hcap : 1 ≤ cap) : ∃ C', (s.step (.carve cap)).Tracked C' := by
  cases hrtx : s.buf.rtx with
  | cons entry rest =>
    obtain ⟨offset,chunk⟩ := entry
    obtain ⟨hcarved,hrun⟩ := CryptoBuf.carveRtx_carved h.buf hcap hrtx
    obtain ⟨hnew,hold⟩ := s.buf.carveRtx_known cap offset chunk rest
    have hcarve : s.buf.carve cap = (some (offset, (s.buf.carveRtx cap offset chunk rest).2),
        (s.buf.carveRtx cap offset chunk rest).1) := by
      rw [CryptoBuf.carve,hrtx]
    refine ⟨C,?_⟩
    simp only [step,hcarve,toList_some,singleton_append]
    refine ⟨h.stream,hcarved,forall_mem_cons.mpr ⟨hrun,h.runs⟩,forall_mem_cons.mpr ⟨.inr hnew,?_⟩⟩
    intro e he
    exact (h.known e he).imp id (hold _ _)
  | nil =>
    by_cases hout : s.buf.outbound = []
    · have hcarve : s.buf.carve cap = (none, s.buf) := by
        simp [CryptoBuf.carve,hrtx,hout]
      refine ⟨C,?_⟩
      simp only [step,hcarve,toList_none,nil_append]
      exact h
    · obtain ⟨hchunk,hrest,hcarved,hnew,hold⟩ :=
        CryptoBuf.carve_fresh h.buf hcap hrtx hout
      refine ⟨C ++ s.buf.outbound.take cap,?_⟩
      simp only [step,hchunk,toList_some,singleton_append]
      refine ⟨?_,hcarved,forall_mem_cons.mpr ⟨?_,?_⟩,forall_mem_cons.mpr ⟨.inr hnew,?_⟩⟩
      · rw [hrest,append_assoc,take_append_drop,h.stream]
      · exact CryptoBuf.RunOf.end (CryptoBuf.take_ne_nil hcap hout)
      · exact fun e he => (h.runs e he).append _
      · exact fun e he => (h.known e he).imp id (hold _ _)

theorem tracked_step (s : CryptoSender) (op : CryptoSendOp) (h : ∃ C, s.Tracked C)
    (hop : s.Used op) : ∃ C, (s.step op).Tracked C := by
  obtain ⟨C,h⟩ := h
  cases op with
  | enqueueOutbound data =>
    refine ⟨C,⟨?_,⟨h.buf.offset_eq,h.buf.history,h.buf.queued,h.buf.last⟩,h.runs,h.known⟩⟩
    show s.enqueued ++ data = C ++ (s.buf.outbound ++ data)
    rw [h.stream,append_assoc]
  | carve cap => exact tracked_carve h hop
  | requeueRange offset length =>
    obtain ⟨hhistory,houtbound⟩ := s.buf.requeueRange_rest offset length
    refine ⟨C,⟨?_,CryptoBuf.requeueRange_carved h.buf offset length,h.runs,?_⟩⟩
    · show s.enqueued = C ++ (s.buf.requeueRange offset length).2.outbound
      rw [houtbound,h.stream]
    · intro e he
      refine (h.known e he).imp id fun hknown => ?_
      simp only [CryptoBuf.Known,step,hhistory]
      exact hknown
  | onRangeAcked offset length =>
    refine ⟨C,⟨?_,CryptoBuf.onRangeAcked_carved h.buf offset length,h.runs,?_⟩⟩
    · show s.enqueued = C ++ (s.buf.onRangeAcked offset length).outbound
      rw [h.stream,CryptoBuf.onRangeAcked]
      split_ifs <;> rfl
    · intro e he
      rcases h.known e he with ⟨r,hr,hin⟩ | hknown
      · exact .inl ⟨r,mem_cons_of_mem _ hr,hin⟩
      · rcases CryptoBuf.onRangeAcked_known hknown offset length with hkept | hin
        · exact .inr hkept
        · exact .inl ⟨_,mem_cons_self,hin⟩
  | scheduleLastChunkRetransmit =>
    refine ⟨C,?_⟩
    simp only [step,CryptoBuf.scheduleLastChunkRetransmit]
    cases hlast : s.buf.lastSent with
    | none => exact h
    | some chunk =>
      refine ⟨h.stream,⟨h.buf.offset_eq,h.buf.history,?_,?_⟩,h.runs,h.known⟩
      · exact forall_mem_cons.mpr ⟨h.buf.last chunk hlast,h.buf.queued⟩
      · intro e he
        exact h.buf.last e (hlast.trans he)

/-- Every chunk handed out, first or again, is the enqueued stream at its offset; and requeueing a
carved range that no single acknowledged range has all of leaves all of it in the queue. -/
theorem crypto_retransmission (ops : List CryptoSendOp) (hops : Trace.Along step Used start ops) :
    let s := Trace.run step start ops
    (∀ e ∈ s.carved, e.1 + e.2.length ≤ s.enqueued.length ∧
      (s.enqueued.drop e.1).take e.2.length = e.2) ∧
    ∀ offset length, s.HasCarved offset length → ¬ s.Acked offset length →
      (s.buf.requeueRange offset length).2.Queued offset length ∧
        ((s.buf.requeueRange offset length).1 = true ∨
          ((s.buf.requeueRange offset length).1 = false ∧ s.buf.Queued offset length)) := by
  intro s
  obtain ⟨C,h⟩ : ∃ C, s.Tracked C := hops.invariant tracked_step ⟨[],tracked_start⟩
  constructor
  · intro e he
    have hrun := (h.runs e he).append s.buf.outbound
    rw [← h.stream] at hrun
    exact ⟨hrun.le,hrun.eq_take⟩
  · rintro offset length ⟨e,he,rfl,rfl⟩ hacked
    have hpos := length_pos_of_ne_nil (h.runs e he).1
    exact CryptoBuf.requeueRange_of_known h.buf hpos ((h.known e he).resolve_left hacked)

/-- A chunk is carved, lost, carved again in two pieces, acknowledged in part and requeued. -/
theorem crypto_retransmission_split :
    let ops : List CryptoSendOp := [.enqueueOutbound [7, 8, 9], .carve 3, .requeueRange 0 3,
      .carve 2, .onRangeAcked 0 2, .carve 2]
    let s := Trace.run step start ops
    s.HasCarved 0 3 ∧ ¬ s.Acked 0 3 ∧ (s.buf.requeueRange 0 3).2.Queued 0 3 := by
  intro ops s
  have hused : Trace.Along step Used start ops := by
    refine ⟨trivial,le_of_ble_eq_true rfl,?_,le_of_ble_eq_true rfl,?_,le_of_ble_eq_true rfl,trivial⟩
    · exact ⟨(0, [7, 8, 9]),by decide,rfl,rfl⟩
    · exact ⟨(0, [7, 8]),by decide,rfl,rfl⟩
  have hcarved : s.HasCarved 0 3 := ⟨(0, [7, 8, 9]),by decide,rfl,rfl⟩
  have hopen : ¬ s.Acked 0 3 := by
    rintro ⟨r,hr,hin⟩
    have hone : r = (0, 2) := List.mem_singleton.mp hr
    subst hone
    omega
  exact ⟨hcarved,hopen,((crypto_retransmission ops hused).2 0 3 hcarved hopen).1⟩
end CryptoSender
end PureCrypto.Quic
