import PureCrypto.Framework.Fragments
import PureCrypto.Quic.SendStream

/-! # The chunks a send stream holds -/
namespace PureCrypto.Quic
open Intervals List
namespace Chunk
def Contains (c : Chunk) (x : Nat) : Prop := c.off ≤ x ∧ x < c.stop

def Apart (a b : Chunk) : Prop := a.stop ≤ b.off ∨ b.stop ≤ a.off

theorem Apart.symm {a b : Chunk} (h : Apart a b) : Apart b a := Or.symm h
end Chunk
/-- Chunks and acknowledged ranges account for the first `w` bytes of `S`, and for the FIN. -/
structure Holds (S : List UInt8) (w : Nat) (h : List Chunk) (A : SortedMap Nat Nat)
    (finSent finAcked : Bool) : Prop where
  apart : h.Pairwise Chunk.Apart
  slices : ∀ c ∈ h, c.bytes <+: S.drop c.off
  below : ∀ c ∈ h, c.stop ≤ w
  cover : ∀ x, x < w ↔ (∃ c ∈ h, c.Contains x) ∨ Covers A x
  separated : Separated A
  finCount : h.countP Chunk.fin = if finSent && !finAcked then 1 else 0
  finEnd : ∀ c ∈ h, c.fin = true → c.stop = w
  finAcked_sent : finAcked = true → finSent = true
namespace Holds
variable {S : List UInt8} {w : Nat} {h h' : List Chunk} {A : SortedMap Nat Nat}
  {finSent finAcked : Bool}
variable (H : Holds S w h A finSent finAcked)
include H
theorem perm (hp : h.Perm h') : Holds S w h' A finSent finAcked where
  apart := (hp.pairwise_iff Chunk.Apart.symm).mp H.apart
  slices := fun c hc => H.slices c (hp.mem_iff.mpr hc)
  below := fun c hc => H.below c (hp.mem_iff.mpr hc)
  cover := fun x => (H.cover x).trans (or_congr_left
    ⟨fun ⟨c,hc,hx⟩ => ⟨c,hp.mem_iff.mp hc,hx⟩,fun ⟨c,hc,hx⟩ => ⟨c,hp.mem_iff.mpr hc,hx⟩⟩)
  separated := H.separated
  finCount := (hp.countP_eq _).symm.trans H.finCount
  finEnd := fun c hc => H.finEnd c (hp.mem_iff.mpr hc)
  finAcked_sent := H.finAcked_sent

/-- Acknowledged chunks may go, the FIN only once it is acknowledged itself. -/
theorem drop (removed : List Chunk) {finAcked' : Bool}
    (hp : h.Perm (removed ++ h')) (hcov : ∀ c ∈ removed, ∀ x, c.Contains x → Covers A x)
    (hfin : (finAcked' = finAcked ∧ ∀ c ∈ removed, c.fin = false) ∨
      (finAcked' = true ∧ finSent = true ∧ ∀ c ∈ h', c.fin = false)) : Holds S w h' A finSent finAcked' := by
  have H := H.perm hp
  have hmem : ∀ c ∈ h', c ∈ removed ++ h' := fun c hc => mem_append_right _ hc
  have hcount := H.finCount
  rw [countP_append] at hcount
  refine ⟨(pairwise_append.mp H.apart).2.1,fun c hc => H.slices c (hmem c hc),
    fun c hc => H.below c (hmem c hc),?_,H.separated,?_,fun c hc => H.finEnd c (hmem c hc),?_⟩
  · intro x
    rw [H.cover x]
    constructor
    · intro hx
      rcases hx with ⟨c,hc,hx⟩ | hx
      · rcases List.mem_append.mp hc with hc | hc
        · exact .inr (hcov c hc x hx)
        · exact .inl ⟨c,hc,hx⟩
      · exact .inr hx
    · intro hx
      rcases hx with ⟨c,hc,hx⟩ | hx
      · exact .inl ⟨c,hmem c hc,hx⟩
      · exact .inr hx
  · rcases hfin with ⟨rfl,hnone⟩ | ⟨rfl,-,hnone⟩
    · have h0 : removed.countP Chunk.fin = 0 :=
        countP_eq_zero.mpr (fun c hc => by simp [hnone c hc])
      omega
    · rw [Bool.not_true,Bool.and_false]
      exact countP_eq_zero.mpr (fun c hc => by simp [hnone c hc])
  · intro hacked
    rcases hfin with ⟨rfl,-⟩ | ⟨-,hsent,-⟩
    · exact H.finAcked_sent hacked
    · exact hsent

/-- A chunk may be cut in two; the FIN stays with the tail. -/
theorem split {c : Chunk} (hp : h.Perm (c :: h')) (k : Nat) (hk : k ≤ c.bytes.length) :
    Holds S w (⟨c.off, c.bytes.take k, false⟩ :: ⟨c.off + k, c.bytes.drop k, c.fin⟩ :: h') A finSent finAcked := by
  have H := H.perm hp
  have hc : c ∈ c :: h' := mem_cons_self
  obtain ⟨hhead,htail⟩ := pairwise_cons.mp H.apart
  have hstop : c.stop = c.off + c.bytes.length := rfl
  have h1 : (⟨c.off,c.bytes.take k,false⟩ : Chunk).stop = c.off + k := by
    simp only [Chunk.stop,length_take]
    omega
  have h2 : (⟨c.off + k,c.bytes.drop k,c.fin⟩ : Chunk).stop = c.stop := by
    simp only [Chunk.stop,length_drop]
    omega
  refine ⟨?_,?_,?_,?_,H.separated,?_,?_,H.finAcked_sent⟩
  · refine pairwise_cons.mpr ⟨?_,pairwise_cons.mpr ⟨?_,htail⟩⟩
    · refine List.forall_mem_cons.mpr ⟨.inl (le_of_eq h1),fun d hd => ?_⟩
      have := hhead d hd
      simp only [Chunk.Apart,h1] at this ⊢
      omega
    · intro d hd
      have := hhead d hd
      simp only [Chunk.Apart,h2] at this ⊢
      omega
  · obtain ⟨hslice,hrest⟩ := List.forall_mem_cons.mp H.slices
    refine List.forall_mem_cons.mpr ⟨(List.take_prefix _ _).trans hslice,?_⟩
    exact List.forall_mem_cons.mpr ⟨slice_drop k hslice,hrest⟩
  · have hle := H.below c hc
    intro d hd
    rcases List.mem_cons.mp hd with rfl | hd
    · omega
    · rcases List.mem_cons.mp hd with rfl | hd
      · rw [h2]
        exact hle
      · exact H.below d (mem_cons_of_mem _ hd)
  · intro x
    rw [H.cover x]
    refine or_congr_left ?_
    simp only [List.mem_cons,exists_eq_or_imp,Chunk.Contains,h1,h2]
    rw [← or_assoc]
    apply or_congr_left
    omega
  · have hcount := H.finCount
    rw [← hcount]
    simp [countP_cons]
  · intro d hd hfin
    rcases List.mem_cons.mp hd with rfl | hd
    · cases hfin
    · rcases List.mem_cons.mp hd with rfl | hd
      · rw [h2]
        exact H.finEnd c hc hfin
      · exact H.finEnd d (mem_cons_of_mem _ hd) hfin

theorem fin_unacked {c : Chunk} (hc : c ∈ h) (hfin : c.fin = true) : finSent = true ∧ finAcked = false := by
  have hpos : 0 < h.countP Chunk.fin := countP_pos_iff.mpr ⟨c,hc,hfin⟩
  rw [H.finCount] at hpos
  cases finSent <;> cases finAcked <;> simp at hpos ⊢

theorem fin_unique {c : Chunk} (hp : h.Perm (c :: h')) (hfin : c.fin = true) : ∀ d ∈ h', d.fin = false := by
  have hcount := (H.perm hp).finCount
  rw [countP_cons] at hcount
  have hzero : h'.countP Chunk.fin = 0 := by
    split_ifs at hcount
    omega
  intro d hd
  simpa using countP_eq_zero.mp hzero d hd

/-- Fresh bytes become a chunk at `w`; after the FIN only empty chunks follow. -/
theorem fresh {bytes : List UInt8} {fin : Bool} (hslice : bytes <+: S.drop w) (hfin : fin = true → finSent = false)
    (hafter : finSent = true → bytes = []) :
    Holds S (w + bytes.length) (⟨w, bytes, fin⟩ :: h) A (finSent || fin) finAcked := by
  have hstop : (⟨w,bytes,fin⟩ : Chunk).stop = w + bytes.length := rfl
  have hnofin : finSent = false → h.countP Chunk.fin = 0 := by
    intro hs
    rw [H.finCount,hs,Bool.false_and,if_neg Bool.false_ne_true]
  refine ⟨pairwise_cons.mpr ⟨?_,H.apart⟩,?_,?_,?_,H.separated,?_,?_,?_⟩
  · intro d hd
    exact .inr (H.below d hd)
  · exact List.forall_mem_cons.mpr ⟨hslice,H.slices⟩
  · refine List.forall_mem_cons.mpr ⟨le_of_eq hstop,fun d hd => ?_⟩
    exact le_trans (H.below d hd) (Nat.le_add_right _ _)
  · intro x
    have hx := H.cover x
    constructor
    · intro hlt
      by_cases hw : x < w
      · rcases hx.mp hw with ⟨c,hc,hcx⟩ | hcov
        · exact .inl ⟨c,mem_cons_of_mem _ hc,hcx⟩
        · exact .inr hcov
      · exact .inl ⟨_,mem_cons_self,Nat.le_of_not_lt hw,by exact hlt⟩
    · intro hcov
      rcases hcov with ⟨c,hc,hcx⟩ | hcov
      · rcases List.mem_cons.mp hc with rfl | hc
        · exact lt_of_lt_of_eq hcx.2 hstop
        · have := hx.mpr (.inl ⟨c,hc,hcx⟩)
          omega
      · have := hx.mpr (.inr hcov)
        omega
  · rw [countP_cons]
    cases fin with
    | false =>
      rw [Bool.or_false,← H.finCount]
      rfl
    | true =>
      have hsent := hfin rfl
      have hacked : finAcked = false := by
        cases hfa : finAcked with
        | false => rfl
        | true =>
          have := H.finAcked_sent hfa
          rw [hsent] at this
          cases this
      rw [hnofin hsent,hacked,Bool.or_true]
      rfl
  · intro d hd hdfin
    rcases List.mem_cons.mp hd with rfl | hd
    · exact hstop
    · have hpos : 0 < h.countP Chunk.fin := countP_pos_iff.mpr ⟨d,hd,hdfin⟩
      have hsent : finSent = true := by
        cases hs : finSent with
        | true => rfl
        | false =>
          have := hnofin hs
          omega
      rw [H.finEnd d hd hdfin,hafter hsent]
      rfl
  · intro hacked
    rw [H.finAcked_sent hacked,Bool.true_or]

theorem grow (T : List UInt8) : Holds (S ++ T) w h A finSent finAcked where
  apart := H.apart
  slices := fun c hc => by
    rw [drop_append]
    exact (H.slices c hc).trans (prefix_append _ _)
  below := H.below
  cover := H.cover
  separated := H.separated
  finCount := H.finCount
  finEnd := H.finEnd
  finAcked_sent := H.finAcked_sent

theorem ack {a b : Nat} (hb : b ≤ w) : Holds S w h (insertRange A a b) finSent finAcked := by
  obtain ⟨hsep,hcov⟩ := insertRange_spec H.separated a b
  refine ⟨H.apart,H.slices,H.below,?_,hsep,H.finCount,H.finEnd,H.finAcked_sent⟩
  intro x
  rw [hcov x,← or_assoc,← H.cover x]
  omega
end Holds
namespace SendStream
def held (s : SendStream) : List Chunk := s.sentChunks ++ s.rtxQueue
variable {s : SendStream}
theorem chunkAcked_iff (hsep : Separated s.ackedRanges) {c : Chunk} (hlt : c.stop < u64Bound) :
    s.chunkAcked c.off c.bytes.length c.fin = true ↔
      (∀ x, c.Contains x → Covers s.ackedRanges x) ∧ (c.fin = true → s.finAcked = true) := by
  have hstop : saturatingAdd c.off c.bytes.length = c.stop := saturatingAdd_eq hlt
  simp only [chunkAcked,hstop,Bool.and_eq_true,Bool.or_eq_true,Bool.not_eq_true',rangeCovered_iff hsep]
  refine and_congr ⟨fun h x hx => h x hx.1 hx.2,fun h x h1 h2 => h x ⟨h1,h2⟩⟩ ?_
  cases c.fin <;> simp

theorem pushSent_cases (s : SendStream) (c : Chunk) :
    (s.chunkAcked c.off c.bytes.length c.fin = true ∧ s.pushSent c = s) ∨ ∃ sorted, s.pushSent c =
        { s with sentChunks := s.sentChunks ++ [c], sentSorted := sorted } := by
  unfold pushSent
  by_cases hacked : s.chunkAcked c.off c.bytes.length c.fin = true
  · exact .inl ⟨hacked,if_pos hacked⟩
  · rw [if_neg hacked]
    refine .inr ?_
    cases s.sentChunks.getLast? with
    | none => exact ⟨_,rfl⟩
    | some back =>
      by_cases hlt : c.off < back.off
      · exact ⟨false,by simp only [if_pos hlt]⟩
      · exact ⟨s.sentSorted,by simp only [if_neg hlt]⟩

theorem pushSent_holds {S : List UInt8} {w : Nat} {c : Chunk}
    (H : Holds S w (c :: s.held) s.ackedRanges s.finSent s.finAcked) (hlt : c.stop < u64Bound) :
    Holds S w (s.pushSent c).held s.ackedRanges s.finSent s.finAcked := by
  rcases pushSent_cases s c with ⟨hacked,heq⟩ | ⟨sorted,heq⟩ <;> rw [heq]
  · obtain ⟨hcov,hfin⟩ := (chunkAcked_iff H.separated hlt).mp hacked
    refine H.drop [c] (List.Perm.refl _) ?_ (.inl ⟨rfl,?_⟩)
    · intro d hd
      rw [List.mem_singleton.mp hd]
      exact hcov
    · intro d hd
      rw [List.mem_singleton.mp hd]
      cases hc : c.fin with
      | false => rfl
      | true =>
        have hun := (H.fin_unacked mem_cons_self hc).2
        rw [hfin hc] at hun
        cases hun
  · refine H.perm ?_
    simp only [held,append_assoc,singleton_append]
    exact perm_middle.symm

theorem pushSent_rest (s : SendStream) (c : Chunk) :
    s.pushSent c = { s with
      sentChunks := (s.pushSent c).sentChunks
      sentSorted := (s.pushSent c).sentSorted } := by
  rcases pushSent_cases s c with ⟨-,heq⟩ | ⟨sorted,heq⟩
  · rw [heq]
  · rw [heq]

theorem mem_held_pushSent {c d : Chunk} (hd : d ∈ (s.pushSent c).held) : d = c ∨ d ∈ s.held := by
  rcases pushSent_cases s c with ⟨-,heq⟩ | ⟨sorted,heq⟩ <;> rw [heq] at hd
  · exact .inr hd
  · simp only [held,List.mem_append,List.mem_singleton] at hd ⊢
    rcases hd with (hd | hd) | hd
    · exact .inr (.inl hd)
    · exact .inl hd
    · exact .inr (.inr hd)

theorem takeWhile_length_le {p q : Chunk → Bool} (h : ∀ c, p c = true → q c = true)
    (l : List Chunk) : (l.takeWhile p).length ≤ (l.takeWhile q).length := by
  induction l with
  | nil => exact le_refl _
  | cons c l ih =>
    cases hp : p c with
    | false =>
      rw [takeWhile_cons_of_neg (by simp [hp])]
      exact Nat.zero_le _
    | true =>
      rw [takeWhile_cons_of_pos hp,takeWhile_cons_of_pos (h c hp)]
      exact Nat.succ_le_succ ih

theorem le_trimRun (covered : Chunk → Bool) (chunks : List Chunk) {lo hi : Nat}
    (h : lo ≤ hi) : lo ≤ trimRun covered chunks lo hi := by
  induction hi with
  | zero => exact h
  | succ hi ih =>
    simp only [trimRun]
    split_ifs with hif
    · exact ih (by omega)
    · exact h

theorem filter_not_perm (p : Chunk → Bool) (l : List Chunk) :
    l.Perm (l.filter p ++ l.filter (fun c => !p c)) :=
  (filter_append_perm p l).symm

/-- Both ways of pruning drop only chunks inside `[ms, me)`. -/
theorem pruneSortedSent_spec (s : SendStream) {ms me : Nat} (hle : ms ≤ me) :
    ∃ removed kept, s.pruneSortedSent ms me = { s with sentChunks := kept } ∧
      s.sentChunks.Perm (removed ++ kept) ∧ ∀ c ∈ removed, ms ≤ c.off ∧
        saturatingAdd c.off c.bytes.length ≤ me ∧ (c.fin = true → s.finAcked = true) := by
  simp only [pruneSortedSent]
  set covered := fun c : Chunk =>
    decide (ms ≤ c.off) && decide (saturatingAdd c.off c.bytes.length ≤ me) &&
      (!c.fin || s.finAcked) with hcovered
  set lo := partitionPoint (fun c => decide (c.off < ms)) s.sentChunks with hlo
  set hi := trimRun covered s.sentChunks lo
    (partitionPoint (fun c => decide (c.off < me)) s.sentChunks) with hhi
  have hmeaning : ∀ c, covered c = true → ms ≤ c.off ∧
      saturatingAdd c.off c.bytes.length ≤ me ∧ (c.fin = true → s.finAcked = true) := by
    intro c hc
    simp only [hcovered,Bool.and_eq_true,decide_eq_true_eq] at hc
    refine ⟨hc.1.1,hc.1.2,fun hfin => ?_⟩
    simpa [hfin] using hc.2
  have hlohi : lo ≤ hi := by
    refine le_trimRun _ _ (takeWhile_length_le ?_ _)
    intro c hc
    simp only [decide_eq_true_eq] at hc ⊢
    omega
  by_cases hall : ((s.sentChunks.drop lo).take (hi - lo)).all covered = true
  · rw [if_pos hall]
    refine ⟨(s.sentChunks.drop lo).take (hi - lo),_,rfl,?_,?_⟩
    · have hdrop : (s.sentChunks.drop lo).drop (hi - lo) = s.sentChunks.drop hi := by
        rw [drop_drop]
        congr 1
        omega
      have hsplit : s.sentChunks = s.sentChunks.take lo ++
          ((s.sentChunks.drop lo).take (hi - lo) ++ s.sentChunks.drop hi) := by
        rw [← hdrop,take_append_drop,take_append_drop]
      conv_lhs => rw [hsplit]
      rw [← append_assoc,← append_assoc]
      exact List.Perm.append_right _ perm_append_comm
    · intro c hc
      exact hmeaning c (List.all_eq_true.mp hall c hc)
  · rw [if_neg hall]
    refine ⟨s.sentChunks.filter covered,_,rfl,filter_not_perm covered _,?_⟩
    intro c hc
    exact hmeaning c (mem_filter.mp hc).2

theorem pruneSent_shape (s : SendStream) (offset stop : Nat) (finNewlyAcked : Bool) :
    ∃ kept sorted, kept ⊆ s.sentChunks ∧ (sorted = true → kept = [] ∨ s.sentSorted = true) ∧
      s.pruneSent offset stop finNewlyAcked = { s with sentChunks := kept, sentSorted := sorted } := by
  simp only [pruneSent]
  generalize hr : ite (offset < stop ∧ (!finNewlyAcked) = true ∧ s.sentSorted = true) _ _ = r
  obtain ⟨kept,hsub,rfl⟩ : ∃ kept, kept ⊆ s.sentChunks ∧ r = { s with sentChunks := kept } := by
    subst hr
    split_ifs
    · cases s.ackedRanges.lastLE offset with
      | none => exact ⟨s.sentChunks,List.Subset.refl _,rfl⟩
      | some e =>
        simp only [pruneSortedSent]
        split_ifs
        · exact ⟨_,append_subset.mpr ⟨take_subset _ _,drop_subset _ _⟩,rfl⟩
        · exact ⟨_,filter_subset_self _,rfl⟩
    · exact ⟨_,filter_subset_self _,rfl⟩
  split_ifs with hempty
  · exact ⟨kept,true,hsub,fun _ => .inl (List.isEmpty_iff.mp hempty),rfl⟩
  · exact ⟨kept,s.sentSorted,hsub,.inr,rfl⟩

/-- What a pruned list has lost: acknowledged chunks only. -/
structure Pruned (s : SendStream) (before removed kept : List Chunk) : Prop where
  perm : before.Perm (removed ++ kept)
  covered : ∀ c ∈ removed, ∀ x, c.Contains x → Covers s.ackedRanges x
  fins : ∀ c ∈ removed, c.fin = true → s.finAcked = true

theorem pruned_filter (hsep : Separated s.ackedRanges) {l : List Chunk}
    (hlt : ∀ c ∈ l, c.stop < u64Bound) :
    Pruned s l (l.filter (fun c => s.chunkAcked c.off c.bytes.length c.fin))
      (l.filter (fun c => !s.chunkAcked c.off c.bytes.length c.fin)) := by
  have hmeaning : ∀ c ∈ l.filter (fun c => s.chunkAcked c.off c.bytes.length c.fin),
      (∀ x, c.Contains x → Covers s.ackedRanges x) ∧ (c.fin = true → s.finAcked = true) := by
    intro c hc
    obtain ⟨hmem,hacked⟩ := mem_filter.mp hc
    exact (chunkAcked_iff hsep (hlt c hmem)).mp hacked
  exact ⟨filter_not_perm _ l,fun c hc => (hmeaning c hc).1,fun c hc => (hmeaning c hc).2⟩

theorem pruneSent_spec (hsep : Separated s.ackedRanges)
    (hlt : ∀ c ∈ s.sentChunks, c.stop < u64Bound) (offset stop : Nat) (finNewlyAcked : Bool) :
    ∃ removed kept sorted,
      s.pruneSent offset stop finNewlyAcked = { s with sentChunks := kept, sentSorted := sorted } ∧
      Pruned s s.sentChunks removed kept ∧
      (finNewlyAcked = true →
        ∀ c ∈ kept, s.chunkAcked c.off c.bytes.length c.fin = false) := by
  have hsorted : ∀ r : SendStream, ∃ sorted,
      (if r.sentChunks.isEmpty then { r with sentSorted := true } else r) =
        { r with sentSorted := sorted } := by
    intro r
    split_ifs
    · exact ⟨true,rfl⟩
    · exact ⟨r.sentSorted,rfl⟩
  simp only [pruneSent]
  by_cases hfast : offset < stop ∧ (!finNewlyAcked) = true ∧ s.sentSorted = true
  · rw [if_pos hfast]
    have hold : finNewlyAcked = false := by simpa using hfast.2.1
    cases hlast : s.ackedRanges.lastLE offset with
    | none =>
      obtain ⟨sorted,heq⟩ := hsorted s
      exact ⟨[],s.sentChunks,sorted,heq,⟨List.Perm.refl _,by simp,by simp⟩,by simp [hold]⟩
    | some e =>
      obtain ⟨ms,me⟩ := e
      have hmem := ((s.ackedRanges.lastLE_eq_some_iff offset (ms, me)).mp hlast).1
      obtain ⟨removed,kept,heq,hperm,hcov⟩ :=
        pruneSortedSent_spec s (le_of_lt (hsep.nonempty _ hmem))
      obtain ⟨sorted,heq'⟩ := hsorted (s.pruneSortedSent ms me)
      refine ⟨removed,kept,sorted,?_,⟨hperm,?_,fun c hc => (hcov c hc).2.2⟩,by simp [hold]⟩
      · rw [heq',heq]
      · intro c hc x hx
        obtain ⟨hlo,hhi,-⟩ := hcov c hc
        have hin : c ∈ s.sentChunks := hperm.mem_iff.mpr (mem_append_left _ hc)
        rw [show saturatingAdd c.off c.bytes.length = c.stop from saturatingAdd_eq (hlt c hin)]
          at hhi
        exact ⟨(ms, me),hmem,le_trans hlo hx.1,lt_of_lt_of_le hx.2 hhi⟩
  · rw [if_neg hfast]
    obtain ⟨sorted,heq⟩ := hsorted { s with
      sentChunks := s.sentChunks.filter (fun c => !s.chunkAcked c.off c.bytes.length c.fin) }
    refine ⟨_,_,sorted,heq,pruned_filter hsep hlt,?_⟩
    simp

/-- The fields an acknowledgement touches, and the chunks it prunes. -/
structure AckEffect (s s' : SendStream) (offset len : Nat) (fin : Bool) (removed : List Chunk) :
    Prop where
  rest : s' = { s with
    finAcked := s.finAcked || fin
    ackedRanges := insertRange s.ackedRanges offset (offset + len)
    ackedOffset := s'.ackedOffset
    sentChunks := s'.sentChunks
    sentSorted := s'.sentSorted
    rtxQueue := s'.rtxQueue
    state := s'.state }
  pruned : Pruned s' s.held removed s'.held
  fresh : fin = true → s.finAcked = false →
    ∀ c ∈ s'.held, s'.chunkAcked c.off c.bytes.length c.fin = false
  state : s'.state = s.state ∨ (s'.state = .dataRecvd ∧ s'.finAcked = true ∧ s'.writeBuf = [] ∧
    s'.held = [] ∧ s.state ≠ .resetSent ∧ s.state ≠ .resetRecvd)

theorem recordAck_rest (s : SendStream) (offset stop : Nat) (fin : Bool) :
    s.recordAck offset stop fin = { s with
      finAcked := s.finAcked || fin
      ackedRanges := insertRange s.ackedRanges offset stop
      ackedOffset := (s.recordAck offset stop fin).ackedOffset } := by
  cases fin with
  | false =>
    simp only [recordAck,Bool.or_false,Bool.false_eq_true,if_false]
    split
    · split_ifs <;> rfl
    · rfl
  | true =>
    simp only [recordAck,Bool.or_true,if_true]
    split
    · split_ifs <;> rfl
    · rfl

theorem pruneRtx_eq (s : SendStream) :
    s.pruneRtx = { s with
      rtxQueue := s.rtxQueue.filter (fun c => !s.chunkAcked c.off c.bytes.length c.fin) } := by
  cases hq : s.rtxQueue with
  | nil =>
    have h : s.pruneRtx = s := by simp [pruneRtx,hq]
    rw [h,filter_nil,← hq]
  | cons c rest => simp [pruneRtx,hq]

theorem settleAcked_cases (s : SendStream) :
    s.settleAcked = s ∨ (s.settleAcked = { s with state := .dataRecvd } ∧ s.finAcked = true ∧
      s.writeBuf = [] ∧ s.held = [] ∧ s.state ≠ .resetSent ∧ s.state ≠ .resetRecvd) := by
  unfold settleAcked
  split_ifs with h
  · refine .inr ⟨rfl,?_⟩
    simp only [hasUnacked,Bool.and_eq_true,Bool.not_eq_true',List.isEmpty_iff,Bool.or_eq_false_iff,
      Bool.not_eq_false',beq_eq_false_iff_ne,ne_eq] at h
    obtain ⟨⟨⟨hfin,hbuf⟩,hsent,hrtx⟩,hst⟩ := h
    exact ⟨hfin,hbuf,by rw [held,hsent,hrtx]; rfl,hst⟩
  · exact .inl rfl

theorem onRangeAcked_effect (hsep : Separated s.ackedRanges) (hlt : ∀ c ∈ s.held, c.stop < u64Bound)
    (offset len : Nat) (fin : Bool) (hrange : offset + len < u64Bound) :
    ∃ removed, AckEffect s (s.onRangeAcked offset len fin) offset len fin removed := by
  have hstop : saturatingAdd offset len = offset + len := saturatingAdd_eq hrange
  simp only [onRangeAcked,hstop]
  have hrec := recordAck_rest s offset (offset + len) fin
  generalize s.recordAck offset (offset + len) fin = s1 at hrec
  have hsep1 : Separated s1.ackedRanges := by
    rw [hrec]
    exact (insertRange_spec hsep offset (offset + len)).1
  have hsent1 : s1.sentChunks = s.sentChunks := by rw [hrec]
  have hrtx1 : s1.rtxQueue = s.rtxQueue := by rw [hrec]
  have hlt1 : ∀ c ∈ s1.sentChunks, c.stop < u64Bound := by
    rw [hsent1]
    exact fun c hc => hlt c (mem_append_left _ hc)
  obtain ⟨removed,kept,sorted,heq,hpr,hnew⟩ :=
    pruneSent_spec hsep1 hlt1 offset (offset + len) (fin && !s.finAcked)
  rw [heq,pruneRtx_eq]
  have hrtx := pruned_filter (s := s1) hsep1 (l := s1.rtxQueue) (by
    rw [hrtx1]
    exact fun c hc => hlt c (mem_append_right _ hc))
  set rtx' := s1.rtxQueue.filter (fun c => !s1.chunkAcked c.off c.bytes.length c.fin) with hrtx'
  set s3 : SendStream :=
    { s1 with sentChunks := kept, sentSorted := sorted, rtxQueue := rtx' } with hs3
  change ∃ removed, AckEffect s s3.settleAcked offset len fin removed
  set gone := s1.rtxQueue.filter (fun c => s1.chunkAcked c.off c.bytes.length c.fin) with hgone
  have hpruned : Pruned s3 s.held (removed ++ gone) s3.held := by
    refine ⟨?_,?_,?_⟩
    · have hp := hpr.perm.append hrtx.perm
      rw [hsent1,hrtx1] at hp
      refine hp.trans ?_
      rw [append_assoc,append_assoc]
      exact List.Perm.append_left _ (perm_append_comm_assoc _ _ _)
    · exact List.forall_mem_append.mpr ⟨hpr.covered,hrtx.covered⟩
    · exact List.forall_mem_append.mpr ⟨hpr.fins,hrtx.fins⟩
  have hfresh : fin = true → s.finAcked = false →
      ∀ c ∈ s3.held, s3.chunkAcked c.off c.bytes.length c.fin = false := by
    intro hfin hold c hc
    rcases List.mem_append.mp hc with hc | hc
    · exact hnew (by simp [hfin,hold]) c hc
    · have hnot := (mem_filter.mp hc).2
      simp only [Bool.not_eq_true'] at hnot
      exact hnot
  have hrest : s3 = { s with
      finAcked := s.finAcked || fin
      ackedRanges := insertRange s.ackedRanges offset (offset + len)
      ackedOffset := s3.ackedOffset
      sentChunks := s3.sentChunks
      sentSorted := s3.sentSorted
      rtxQueue := s3.rtxQueue } := by
    rw [hs3,hrec]
  have hstate : s3.state = s.state := by rw [hrest]
  refine ⟨removed ++ gone,?_⟩
  rcases settleAcked_cases s3 with h | ⟨h,hfin,hbuf,hheld,hst⟩ <;> rw [h]
  · refine ⟨?_,hpruned,hfresh,.inl hstate⟩
    rw [hstate]
    exact hrest
  · refine ⟨?_,⟨hpruned.perm,hpruned.covered,hpruned.fins⟩,hfresh,.inr ⟨rfl,hfin,hbuf,hheld,?_⟩⟩
    · conv_lhs => rw [hrest]
    · rw [← hstate]
      exact hst
end SendStream
end PureCrypto.Quic
