import PureCrypto.Framework.PartitionPoint
import PureCrypto.Framework.Trace
import PureCrypto.Quic.HeldChunks

/-!
# Pruning acknowledged chunks

Both ways of pruning leave what a full scan would leave.  No chunk in flight was acknowledged before, so that only
chunks in the interval that grew can have become so.
-/
namespace PureCrypto.Quic.SendStream
open Intervals List
/-- Put a lost chunk back in front of the write buffer. -/
def requeue (s : SendStream) (offset : Nat) (bytes : List UInt8) (wasFin : Bool) : SendStream :=
  { s with
    writeBuf := bytes ++ s.writeBuf
    writeOff := offset
    finSent := if wasFin then false else s.finSent }

/-- The operations of a send half, and the fields that the stream table writes. -/
inductive Op
  | enqueue (data : List UInt8)
  | finish
  | carve (id cap : Nat) (out : List UInt8)
  | popRtx (id maxPayload : Nat) (out : List UInt8)
  | rangeAcked (offset len : Nat) (fin : Bool)
  | rangeLost (offset len : Nat) (fin : Bool)
  | resetAcked
  | resetLost
  | requeueAllSent
  | requeue (offset : Nat) (bytes : List UInt8) (wasFin : Bool)
  | enterReset (code : Nat)
  | write (peerMaxData : Nat) (blockedAt : Option Nat) (resetPending : Bool)

def step (s : SendStream) : Op → SendStream
  | .enqueue data => (s.enqueue data).2
  | .finish => s.finish
  | .carve id cap out => (s.carveFrame id cap out).2.1
  | .popRtx id maxPayload out => (s.popRtxFrame id maxPayload out).2.1
  | .rangeAcked offset len fin => s.onRangeAcked offset len fin
  | .rangeLost offset len fin => (s.onRangeLost offset len fin).2
  | .resetAcked => s.onResetAcked
  | .resetLost => s.onResetLost.2
  | .requeueAllSent => s.requeueAllSent
  | .requeue offset bytes wasFin => s.requeue offset bytes wasFin
  | .enterReset code => s.enterReset code
  | .write peerMaxData blockedAt resetPending =>
    { s with peerMaxData := peerMaxData, blockedAt := blockedAt, resetPending := resetPending }

/-- The chunk and its FIN, if it has one, are acknowledged. -/
def Acked (s : SendStream) (c : Chunk) : Bool := s.chunkAcked c.off c.bytes.length c.fin

/-- Nothing in flight is acknowledged, and the flag tells the order. -/
structure Tidy (s : SendStream) : Prop where
  separated : Separated s.ackedRanges
  unacked : ∀ c ∈ s.sentChunks, s.Acked c = false
  sorted : s.sentSorted = true → s.sentChunks.Pairwise fun a b => a.off ≤ b.off
section Run
variable {covered : Chunk → Bool} {l : List Chunk}
private theorem drop_trimRun (lo : Nat) {hi : Nat} (h : ∀ c ∈ l.drop hi, covered c = false) :
    ∀ c ∈ l.drop (trimRun covered l lo hi), covered c = false := by
  induction hi with
  | zero => exact h
  | succ hi ih =>
    rw [trimRun]
    split_ifs with hlast
    · refine ih fun c hc => ?_
      cases hget : l[hi]? with
      | none => simp [hget] at hlast
      | some d =>
        obtain ⟨hlt,rfl⟩ := List.getElem?_eq_some_iff.mp hget
        rw [drop_eq_getElem_cons hlt] at hc
        rcases List.mem_cons.mp hc with rfl | hc
        · simpa [hget] using hlast.2
        · exact h c hc
    · exact h

private theorem take_append_drop_eq_filter {lo hi : Nat} (hle : lo ≤ hi) (hlow : ∀ c ∈ l.take lo, covered c = false)
    (hhigh : ∀ c ∈ l.drop hi, covered c = false) (hall : ((l.drop lo).take (hi - lo)).all covered = true) :
    l.take lo ++ l.drop hi = l.filter fun c => !covered c := by
  have hsplit : l = l.take lo ++ ((l.drop lo).take (hi - lo) ++ l.drop hi) := by
    rw [show l.drop hi = (l.drop lo).drop (hi - lo) by rw [drop_drop,Nat.add_sub_cancel' hle],
      take_append_drop,take_append_drop]
  have hnone : ((l.drop lo).take (hi - lo)).filter (fun c => !covered c) = [] := by
    rw [filter_eq_nil_iff]
    intro c hc
    simp [List.all_eq_true.mp hall c hc]
  conv_rhs => rw [hsplit]
  rw [filter_append,filter_append,hnone,nil_append,
    filter_eq_self.mpr fun c hc => by simp [hlow c hc],filter_eq_self.mpr fun c hc => by simp [hhigh c hc]]
end Run
variable {s : SendStream} {offset stop ms me : Nat} {fin : Bool}
/-- What the fast path drops. -/
def inside (s : SendStream) (ms me : Nat) (c : Chunk) : Bool :=
  ms ≤ c.off && saturatingAdd c.off c.bytes.length ≤ me && (!c.fin || s.finAcked)

private theorem sentChunks_pruneSortedSent (hle : ms ≤ me) (hsorted : s.sentChunks.Pairwise fun a b => a.off ≤ b.off)
    (hin : ∀ c ∈ s.sentChunks, s.inside ms me c = true → c.off < me) :
    (s.pruneSortedSent ms me).sentChunks = s.sentChunks.filter fun c => !s.inside ms me c := by
  have hpart : ∀ k, s.sentChunks.drop (partitionPoint (fun c => c.off < k) s.sentChunks) =
      s.sentChunks.filter fun c => !decide (c.off < k) := fun k =>
    (drop_partitionPoint _ _).trans (dropWhile_eq_filter (hsorted.imp fun hab hb => by
      simp only [decide_eq_true_eq] at hb ⊢
      omega))
  change (if ((s.sentChunks.drop _).take _).all (s.inside ms me) then _ else _ : SendStream).sentChunks = _
  split_ifs with hall
  · refine take_append_drop_eq_filter (le_trimRun _ _ (takeWhile_length_le ?_ _)) ?_ (drop_trimRun _ ?_) hall
    · intro c hc
      simp only [decide_eq_true_eq] at hc ⊢
      omega
    · intro c hc
      have htake := prefix_iff_eq_take.mp (List.takeWhile_prefix (l := s.sentChunks) fun c => decide (c.off < ms))
      have hlt := mem_takeWhile_imp (htake ▸ hc)
      simp only [decide_eq_true_eq] at hlt
      simp [inside,Nat.not_le.mpr hlt]
    · intro c hc
      rw [hpart,mem_filter,Bool.not_eq_true',decide_eq_false_iff_not] at hc
      by_contra hcov
      exact hc.2 (hin c hc.1 (Bool.not_eq_false _ ▸ hcov))
  · rfl

/-- Pruning is the scan of all chunks, with the range recorded. -/
private theorem sentChunks_pruneSent (h : s.Tidy) (offset stop : Nat) (fin : Bool) :
    let t := s.recordAck offset stop fin
    (t.pruneSent offset stop (fin && !s.finAcked)).sentChunks = s.sentChunks.filter fun c => !t.Acked c := by
  intro t
  have hrest : t = _ := recordAck_rest s offset stop fin
  have hsent : t.sentChunks = s.sentChunks := by rw [hrest]
  have hflag : t.sentSorted = s.sentSorted := by rw [hrest]
  have hsettle : ∀ r : SendStream,
      (if r.sentChunks.isEmpty then { r with sentSorted := true } else r).sentChunks = r.sentChunks := fun r => by
    split_ifs <;> rfl
  simp only [pruneSent,hsettle]
  split_ifs with hfast
  · obtain ⟨hlt,hold,hsorted⟩ := hfast
    have hfin : t.finAcked = s.finAcked := by
      cases fin <;> cases hs : s.finAcked <;> simp_all
    obtain ⟨⟨ms,me⟩,hlast,hle,hnew⟩ := insertRange_merged h.separated hlt
    have hlast' : t.ackedRanges.lastLE offset = some (ms, me) := by rw [hrest]; exact hlast
    -- a chunk in flight was not covered before, or waits for the FIN
    have hagree : ∀ c ∈ s.sentChunks, t.inside ms me c = t.Acked c ∧ (t.inside ms me c = true → c.off < me) := by
      intro c hc
      have hold := h.unacked c hc
      have hranges : t.ackedRanges = insertRange s.ackedRanges offset stop := by rw [hrest]
      simp only [Acked,chunkAcked,inside,hranges,hfin] at hold ⊢
      cases hf : (!c.fin || s.finAcked) with
      | false => simp
      | true =>
        rw [hf,Bool.and_true] at hold
        obtain ⟨hlt',hiff⟩ := hnew _ _ hold
        refine ⟨?_,fun hin => ?_⟩
        · rw [Bool.and_true,Bool.and_true,Bool.eq_iff_iff,hiff,Bool.and_eq_true,decide_eq_true_eq,decide_eq_true_eq]
        · rw [Bool.and_true,Bool.and_eq_true,decide_eq_true_eq,decide_eq_true_eq] at hin
          omega
    rw [hlast']
    rw [sentChunks_pruneSortedSent (Nat.le_of_lt hle) (hsent ▸ h.sorted (hflag ▸ hsorted)) fun c hc =>
      (hagree c (hsent ▸ hc)).2,hsent]
    exact filter_congr fun c hc => by rw [(hagree c hc).1]
  · rw [hsent]
    rfl

private theorem onRangeAcked_tidy (h : s.Tidy) (offset len : Nat) (fin : Bool) :
    let t := s.onRangeAcked offset len fin
    t.sentChunks = s.sentChunks.filter (fun c => !t.Acked c) ∧ t.rtxQueue = s.rtxQueue.filter (fun c => !t.Acked c) ∧
      t.ackedRanges = insertRange s.ackedRanges offset (saturatingAdd offset len) ∧ t.finAcked = (s.finAcked || fin) ∧ t.Tidy := by
  intro t
  have hsent := sentChunks_pruneSent h offset (saturatingAdd offset len) fin
  have hrest := recordAck_rest s offset (saturatingAdd offset len) fin
  obtain ⟨kept,sorted,-,hflag,hshape⟩ := pruneSent_shape (s.recordAck offset (saturatingAdd offset len) fin) offset
    (saturatingAdd offset len) (fin && !s.finAcked)
  obtain ⟨state,ht⟩ : ∃ state, t = { s.recordAck offset (saturatingAdd offset len) fin with
      sentChunks := kept
      sentSorted := sorted
      rtxQueue := s.rtxQueue.filter fun c => !(s.recordAck offset (saturatingAdd offset len) fin).Acked c
      state := state } := by
    have hrtx : (s.recordAck offset (saturatingAdd offset len) fin).rtxQueue = s.rtxQueue := by rw [hrest]
    simp only [t,onRangeAcked,hshape,pruneRtx_eq,hrtx]
    rcases settleAcked_cases _ with heq | ⟨heq,-⟩ <;> exact ⟨_,heq⟩
  generalize s.recordAck offset (saturatingAdd offset len) fin = r at hsent hrest hflag hshape ht
  have hsent : kept = s.sentChunks.filter fun c => !r.Acked c := by
    dsimp only at hsent
    rwa [hshape] at hsent
  have hacked : ∀ c, t.Acked c = r.Acked c := fun c => by rw [ht]; rfl
  simp only [hacked]
  refine ⟨by rw [ht]; exact hsent,by rw [ht],by rw [ht,hrest],by rw [ht,hrest],?_,fun c hc => ?_,fun hs => ?_⟩
  · rw [ht,hrest]
    exact (insertRange_spec h.separated _ _).1
  · have hc : c ∈ kept := by rwa [ht] at hc
    rw [hsent,mem_filter,Bool.not_eq_true'] at hc
    rw [hacked]
    exact hc.2
  · have hs : sorted = true := by rwa [ht] at hs
    rw [ht]
    rcases hflag hs with hnil | hold
    · exact hnil ▸ .nil
    · have hwas : s.sentSorted = true := by rwa [hrest] at hold
      exact hsent ▸ (h.sorted hwas).filter _

private theorem Tidy.acked_iff (h : s.Tidy) (c : Chunk) : s.Acked c = true ↔
    (∀ x, c.off ≤ x → x < saturatingAdd c.off c.bytes.length → Covers s.ackedRanges x) ∧ (c.fin = true → s.finAcked = true) := by
  rw [Acked,chunkAcked,Bool.and_eq_true,rangeCovered_iff h.separated]
  cases c.fin <;> simp

private theorem Tidy.pushSent (h : s.Tidy) (c : Chunk) : (s.pushSent c).Tidy := by
  unfold SendStream.pushSent
  split_ifs with hacked
  · exact h
  · have hunacked : ∀ d ∈ s.sentChunks ++ [c], s.Acked d = false := fun d hd =>
      (List.mem_append.mp hd).elim (h.unacked d) fun hd => by
        rw [List.mem_singleton.mp hd]
        exact Bool.not_eq_true _ ▸ hacked
    cases hlast : s.sentChunks.getLast? with
    | none =>
      have hnil := getLast?_eq_none_iff.mp hlast
      exact ⟨h.separated,hunacked,fun _ => by simp [hnil]⟩
    | some back =>
      dsimp only
      split_ifs with hlt
      · exact ⟨h.separated,hunacked,nofun⟩
      · refine ⟨h.separated,hunacked,fun hs => ?_⟩
        have hpair := h.sorted hs
        refine pairwise_append.mpr ⟨hpair,pairwise_singleton _ _,fun a ha b hb => ?_⟩
        obtain ⟨front,heq⟩ := getLast?_eq_some_iff.mp hlast
        rw [List.mem_singleton.mp hb]
        rw [heq] at ha hpair
        rcases List.mem_append.mp ha with ha | ha
        · have := (pairwise_append.mp hpair).2.2 a ha back (by simp)
          omega
        · rw [List.mem_singleton.mp ha]
          omega

private theorem Tidy.congr {t : SendStream} (h : s.Tidy) (hranges : t.ackedRanges = s.ackedRanges)
    (hfin : t.finAcked = s.finAcked) (hsent : t.sentChunks = s.sentChunks) (hflag : t.sentSorted = s.sentSorted) :
    t.Tidy := by
  refine ⟨hranges ▸ h.separated,fun c hc => ?_,fun hs => hsent ▸ h.sorted (hflag ▸ hs)⟩
  rw [Acked,chunkAcked,hranges,hfin]
  exact h.unacked c (hsent ▸ hc)

theorem Tidy.step (h : s.Tidy) (op : Op) : (s.step op).Tidy := by
  cases op with
  | enqueue data =>
    change (s.enqueue data).2.Tidy
    rcases s.enqueue_cases data with heq | ⟨n,-,-,-,heq⟩
    · rwa [heq]
    · rw [heq]
      exact h.congr rfl rfl rfl rfl
  | finish =>
    change s.finish.Tidy
    unfold SendStream.finish
    split_ifs
    · exact h
    · exact h.congr rfl rfl rfl rfl
  | carve id cap out =>
    change (s.carveFrame id cap out).2.1.Tidy
    rcases s.carveFrame_cases id cap out with ⟨-,heq⟩ | ⟨take,fin,-,-,-,heq⟩
    · rwa [heq]
    · rw [heq]
      refine Tidy.pushSent ?_ _
      exact h.congr rfl rfl rfl rfl
  | popRtx id maxPayload out =>
    change (s.popRtxFrame id maxPayload out).2.1.Tidy
    unfold popRtxFrame
    split
    · exact h
    · split_ifs
      all_goals
        refine Tidy.pushSent ?_ _
        exact h.congr rfl rfl rfl rfl
  | rangeAcked offset len fin => exact (onRangeAcked_tidy h offset len fin).2.2.2.2
  | rangeLost offset len fin =>
    refine ⟨h.separated,fun c hc => h.unacked c (mem_of_mem_filter hc),fun hs => ?_⟩
    rcases Bool.or_eq_true_iff.mp hs with hempty | hs
    · change (s.onRangeLost offset len fin).2.sentChunks.Pairwise _
      rw [show (s.onRangeLost offset len fin).2.sentChunks = [] from List.isEmpty_iff.mp hempty]
      exact .nil
    · exact (h.sorted hs).filter _
  | resetAcked =>
    change s.onResetAcked.Tidy
    unfold onResetAcked
    split_ifs
    · exact h.congr rfl rfl rfl rfl
    · exact h
  | resetLost =>
    change s.onResetLost.2.Tidy
    unfold onResetLost
    split_ifs
    · exact h.congr rfl rfl rfl rfl
    · exact h
  | requeueAllSent => exact ⟨h.separated,nofun,fun _ => .nil⟩
  | requeue offset bytes wasFin => exact h.congr rfl rfl rfl rfl
  | enterReset code => exact ⟨h.separated,nofun,fun _ => .nil⟩
  | write peerMaxData blockedAt resetPending => exact h.congr rfl rfl rfl rfl

/-- An acknowledgement adds its range and its FIN to what is acknowledged, and leaves the chunks that are not, in
their order. -/
theorem ack_prunes_exactly (peerMaxData : Nat) (ops : List Op) (offset len : Nat) (fin : Bool) :
    let s := Trace.run step (.new peerMaxData) ops
    let t := s.onRangeAcked offset len fin
    (∀ x, Covers t.ackedRanges x ↔ Covers s.ackedRanges x ∨ offset ≤ x ∧ x < saturatingAdd offset len) ∧
      t.finAcked = (s.finAcked || fin) ∧
      (∀ c : Chunk, t.chunkAcked c.off c.bytes.length c.fin = true ↔
        (∀ x, c.off ≤ x → x < saturatingAdd c.off c.bytes.length → Covers t.ackedRanges x) ∧
          (c.fin = true → t.finAcked = true)) ∧
      t.sentChunks = s.sentChunks.filter (fun c => !t.chunkAcked c.off c.bytes.length c.fin) ∧
      t.rtxQueue = s.rtxQueue.filter (fun c => !t.chunkAcked c.off c.bytes.length c.fin) := by
  intro s t
  have hnew : (SendStream.new peerMaxData).Tidy := ⟨.empty,nofun,fun _ => .nil⟩
  have htidy : s.Tidy := (Trace.Along.of_forall (p := fun _ => True) _ fun _ _ => trivial).invariant
    (fun s op hs _ => hs.step op) hnew
  obtain ⟨hsent,hrtx,hranges,hfin,hnext⟩ := onRangeAcked_tidy htidy offset len fin
  refine ⟨fun x => ?_,hfin,hnext.acked_iff,hsent,hrtx⟩
  rw [hranges]
  exact (insertRange_spec htidy.separated _ _).2 x
end PureCrypto.Quic.SendStream
