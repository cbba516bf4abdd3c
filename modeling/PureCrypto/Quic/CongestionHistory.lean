import PureCrypto.Framework.Trace
import PureCrypto.Quic.LossDetection
import PureCrypto.Quic.PersistentCongestion

/-! # The persistent-congestion record over a run -/
namespace PureCrypto.Quic
open List
def Covered (spans : List AckedSpan) (t : Nat) : Prop := ∃ span ∈ spans, span.first ≤ t ∧ t ≤ span.last

instance (spans : List AckedSpan) (t : Nat) : Decidable (Covered spans t) :=
  inferInstanceAs (Decidable (∃ span ∈ spans, span.first ≤ t ∧ t ≤ span.last))
namespace LossState
variable {spans : List AckedSpan} {timeSent : Nat}
section
variable (hspans : SpansSorted spans)
include hspans
/-- A new span between the others, the last one extended, or nothing to do. -/
theorem recordTime_cases (timeSent : Nat) :
    (∃ pre post, spans = pre ++ post ∧ (∀ x ∈ pre, x.last < timeSent) ∧ (∀ x ∈ post, timeSent < x.first) ∧
        recordTime spans timeSent = pre ++ ⟨timeSent, timeSent⟩ :: post) ∨
      (∃ init span, spans = init ++ [span] ∧ span.last ≤ timeSent ∧ timeSent < span.last + kGranularity ∧
        recordTime spans timeSent = init ++ [⟨span.first, timeSent⟩]) ∨
      (Covered spans timeSent ∧ recordTime spans timeSent = spans) := by
  have hgran : 0 < kGranularity := by decide
  rw [recordTime]
  cases hlast : spans.getLast? with
  | none =>
    have hnil := getLast?_eq_none_iff.mp hlast
    exact .inl ⟨[],[],by rw [hnil]; rfl,by simp,by simp,rfl⟩
  | some span =>
    obtain ⟨init,rfl⟩ := getLast?_eq_some_iff.mp hlast
    simp only [dropLast_concat]
    have hbefore : ∀ x ∈ init, x.last < span.last := by
      intro x hx
      have := (pairwise_append.mp hspans.sorted).2.2 x hx span (by simp)
      have := hspans.first_le span (by simp)
      omega
    split_ifs with hge hnear
    · exact .inr (.inl ⟨init,span,rfl,hge,by omega,rfl⟩)
    · refine .inl ⟨init ++ [span],[],by simp,?_,by simp,rfl⟩
      refine forall_mem_append.mpr ⟨fun x hx => ?_,forall_mem_singleton.mpr (by omega)⟩
      have := hbefore x hx
      omega
    · -- the time is older than the last span
      generalize hall : init ++ [span] = all at hspans ⊢
      set older := fun span : AckedSpan => decide (span.last < timeSent)
      have hsplit : all.takeWhile older ++ all.dropWhile older = all := takeWhile_append_dropWhile
      have hpre : ∀ x ∈ all.takeWhile older, x.last < timeSent := fun x hx => by
        simpa [older] using mem_takeWhile_imp hx
      rw [getElem?_partitionPoint]
      cases hrest : all.dropWhile older with
      | nil =>
        have hmem : span ∈ all := by rw [← hall]; simp
        rw [hrest,append_nil] at hsplit
        have := hpre span (by rw [hsplit]; exact hmem)
        omega
      | cons next rest =>
        have hnext : timeSent ≤ next.last := by
          have hhead := head?_dropWhile_not older all
          rw [hrest] at hhead
          simpa [older] using hhead
        rw [hrest] at hsplit
        simp only [head?_cons]
        split_ifs with hfirst
        · refine .inl ⟨_,_,hsplit.symm,hpre,?_,?_⟩
          · intro x hx
            rcases List.mem_cons.mp hx with rfl | hx
            · exact hfirst
            · have hsorted := hspans.sorted
              rw [← hsplit,pairwise_append] at hsorted
              have := (pairwise_cons.mp hsorted.2.1).1 x hx
              omega
          · rw [partitionPoint]
            conv_lhs => rw [← hsplit]
            rw [takeWhile_append_of_pos (fun x hx => decide_eq_true (hpre x hx))]
            have hstop : (next :: rest).takeWhile older = [] := by simp [older,Nat.not_lt.mpr hnext]
            rw [hstop,append_nil,insertIdx_middle]
        · refine .inr (.inr ⟨⟨next,?_,not_lt.mp hfirst,hnext⟩,rfl⟩)
          rw [← hsplit]
          simp

/-- What the recorded time alone and an extended span have holds of every span. -/
theorem forall_recordTime {P : AckedSpan → Prop} (h : ∀ span ∈ spans, P span) (hsingle : P ⟨timeSent, timeSent⟩)
    (hextend : ∀ span, P span → span.last ≤ timeSent → timeSent < span.last + kGranularity → P ⟨span.first, timeSent⟩) :
    ∀ span ∈ recordTime spans timeSent, P span := by
  rcases recordTime_cases hspans timeSent with
    ⟨pre,post,rfl,-,-,heq⟩ | ⟨init,span,rfl,hle,hnear,heq⟩ | ⟨-,heq⟩ <;> rw [heq]
  · obtain ⟨hpre,hpost⟩ := forall_mem_append.mp h
    exact forall_mem_append.mpr ⟨hpre,forall_mem_cons.mpr ⟨hsingle,hpost⟩⟩
  · obtain ⟨hinit,hlast⟩ := forall_mem_append.mp h
    have hspan := hextend span (forall_mem_singleton.mp hlast) hle hnear
    exact forall_mem_append.mpr ⟨hinit,forall_mem_singleton.mpr hspan⟩
  · exact h

theorem SpansSorted.recordTime (timeSent : Nat) : SpansSorted (LossState.recordTime spans timeSent) := by
  refine ⟨forall_recordTime hspans hspans.first_le le_rfl fun _ hspan hle _ => hspan.trans hle,?_⟩
  rcases recordTime_cases hspans timeSent with
    ⟨pre,post,rfl,hpre,hpost,heq⟩ | ⟨init,span,rfl,-,-,heq⟩ | ⟨-,heq⟩
  · obtain ⟨hsortedPre,hsortedPost,hbetween⟩ := pairwise_append.mp hspans.sorted
    rw [heq,pairwise_append,pairwise_cons]
    refine ⟨hsortedPre,⟨hpost,hsortedPost⟩,?_⟩
    exact fun x hx => forall_mem_cons.mpr ⟨hpre x hx,hbetween x hx⟩
  · obtain ⟨hsortedInit,-,hbetween⟩ := pairwise_append.mp hspans.sorted
    rw [heq,pairwise_append]
    refine ⟨hsortedInit,by simp,?_⟩
    exact fun x hx => forall_mem_singleton.mpr (hbetween x hx span (by simp))
  · rw [heq]
    exact hspans.sorted

theorem covered_recordTime {t : Nat} (h : t = timeSent ∨ Covered spans t) :
    Covered (recordTime spans timeSent) t := by
  rcases recordTime_cases hspans timeSent with
    ⟨pre,post,rfl,-,-,heq⟩ | ⟨init,span,rfl,hle,-,heq⟩ | ⟨hcovered,heq⟩ <;> rw [heq]
  · rcases h with rfl | ⟨x,hx,hin⟩
    · exact ⟨⟨t,t⟩,by simp,le_rfl,le_rfl⟩
    · refine ⟨x,?_,hin⟩
      rcases List.mem_append.mp hx with hx | hx <;> simp [hx]
  · have hspan := hspans.first_le span (by simp)
    rcases h with rfl | ⟨x,hx,hfirst,hlast⟩
    · exact ⟨⟨span.first,t⟩,by simp,hspan.trans hle,le_rfl⟩
    · rcases List.mem_append.mp hx with hx | hx
      · exact ⟨x,by simp [hx],hfirst,hlast⟩
      · rw [List.mem_singleton.mp hx] at hfirst hlast
        exact ⟨⟨span.first,timeSent⟩,by simp,hfirst,hlast.trans hle⟩
  · rcases h with rfl | h
    · exact hcovered
    · exact h

theorem dense_recordTime {acked : Set Nat} (hdense : ∀ span ∈ spans, span.Dense acked)
    (hacked : timeSent ∈ acked) : ∀ span ∈ recordTime spans timeSent, span.Dense acked := by
  refine forall_recordTime hspans hdense (fun lo hi _ hover => ⟨timeSent,hacked,hover.1,hover.2⟩) ?_
  intro span hspan hle hnear lo hi hlong hover
  by_cases hlo : lo ≤ span.last
  · exact hspan lo hi hlong ⟨hlo,hover.2⟩
  · -- an interval past the old end reaches the new one, which is less than a granule away
    exact ⟨timeSent,hacked,hover.1,by omega⟩
end
theorem dense_mono {span : AckedSpan} {acked acked' : Set Nat} (h : span.Dense acked) (hsub : acked ⊆ acked') :
    span.Dense acked' := by
  intro lo hi hlong hover
  obtain ⟨t,ht,hin⟩ := h lo hi hlong hover
  exact ⟨t,hsub ht,hin⟩
variable {η : Type} {s : LossState η}
theorem recordAcked_spec {acked : Set Nat} (packets : List (SentPacket η)) (hspans : SpansSorted spans)
    (hdense : ∀ span ∈ spans, span.Dense acked) (hacked : ∀ p ∈ packets, p.timeSent ∈ acked) :
    SpansSorted (packets.foldl (fun spans p => recordTime spans p.timeSent) spans) ∧
      (∀ span ∈ packets.foldl (fun spans p => recordTime spans p.timeSent) spans, span.Dense acked) ∧
      ∀ t, (Covered spans t ∨ ∃ p ∈ packets, p.timeSent = t) →
        Covered (packets.foldl (fun spans p => recordTime spans p.timeSent) spans) t := by
  induction packets generalizing spans with
  | nil => exact ⟨hspans,hdense,fun t h => h.resolve_right (by simp)⟩
  | cons p packets ih =>
    obtain ⟨hsorted,hd,hcover⟩ := ih (SpansSorted.recordTime hspans p.timeSent)
      (dense_recordTime hspans hdense (hacked p (by simp))) (fun q hq => hacked q (by simp [hq]))
    refine ⟨hsorted,hd,?_⟩
    intro t ht
    apply hcover t
    rcases ht with hc | ⟨q,hq,rfl⟩
    · exact .inl (covered_recordTime hspans (.inr hc))
    · rcases List.mem_cons.mp hq with rfl | hq
      · exact .inl (covered_recordTime hspans (.inl rfl))
      · exact .inr ⟨q,hq,rfl⟩

/-- Packets numbered later were sent no earlier. -/
def InOrder (m : SortedMap Nat (SentPacket η)) : Prop :=
  ∀ a ∈ m.entries, ∀ b ∈ m.entries, a.1 < b.1 → a.2.timeSent ≤ b.2.timeSent

theorem InOrder.of_subset {m m' : SortedMap Nat (SentPacket η)} (h : InOrder m) (hsub : ∀ e ∈ m'.entries, e ∈ m.entries) :
    InOrder m' := fun a ha b hb => h a (hsub a ha) b (hsub b hb)

structure SameRecords (s s' : LossState η) : Prop where
  perSpace : s'.perSpace = s.perSpace
  acked : s'.ackedSendTimes = s.ackedSendTimes
  history : s'.lostHistory = s.lostHistory

theorem SameRecords.trans {s s' s'' : LossState η} (h : SameRecords s s') (h' : SameRecords s' s'') :
    SameRecords s s'' :=
  ⟨h'.perSpace.trans h.perSpace,h'.acked.trans h.acked,h'.history.trans h.history⟩
section
variable (s : LossState η)
theorem setLossDetectionTimer_same (now : Nat) : SameRecords s (s.setLossDetectionTimer now) := by
  rw [setLossDetectionTimer]
  split
  · exact ⟨rfl,rfl,rfl⟩
  · split_ifs <;> exact ⟨rfl,rfl,rfl⟩

theorem updateRtt_same (latestRtt ackDelay : Nat) (space : PnSpaceId) (now : Nat) :
    SameRecords s (s.updateRtt latestRtt ackDelay space now) := by
  simp only [updateRtt]
  split <;> exact ⟨rfl,rfl,rfl⟩
variable (newlyAcked : List (SentPacket η))
theorem sampleRtt_same (largest ackDelay : Nat)
    (space : PnSpaceId) (now : Nat) : SameRecords s (s.sampleRtt newlyAcked largest ackDelay space now) := by
  rw [sampleRtt]
  split
  · exact ⟨rfl,rfl,rfl⟩
  · split_ifs
    · exact updateRtt_same s _ _ _ _
    · exact ⟨rfl,rfl,rfl⟩

theorem noteProgress_same (space : PnSpaceId) : SameRecords s (s.noteProgress newlyAcked space) := by
  simp only [noteProgress]
  split_ifs <;> exact ⟨rfl,rfl,rfl⟩
end
theorem foldl_drainRange {ranges : List PnRange} {m : SortedMap Nat (SentPacket η)} {acc : List (SentPacket η)} :
    (∀ e ∈ (ranges.foldl drainRange (m, acc)).1.entries, e ∈ m.entries) ∧
      ∀ p ∈ (ranges.foldl drainRange (m, acc)).2, p ∈ acc ∨ ∃ pn, (pn, p) ∈ m.entries := by
  induction ranges generalizing m acc with
  | nil => exact ⟨fun _ h => h,fun _ h => .inl h⟩
  | cons r ranges ih =>
    have hm : ∀ e ∈ (drainRange (m, acc) r).1.entries, e ∈ m.entries :=
      fun e he => ((SortedMap.mem_retain _ _ _).mp he).1
    obtain ⟨hsent,hacked⟩ := @ih (drainRange (m, acc) r).1 (drainRange (m, acc) r).2
    constructor
    · intro e he
      exact hm e (hsent e he)
    · intro p hp
      rcases hacked p hp with hp | ⟨pn,hp⟩
      · rcases List.mem_append.mp hp with hp | hp
        · exact .inl hp
        · obtain ⟨e,he,rfl⟩ := List.mem_map.mp hp
          exact .inr ⟨e.1,((SortedMap.mem_range _ _ _ e).mp he).1⟩
      · exact .inr ⟨pn,hm _ hp⟩

/-- The send times that a later batch can pair: tracked or in the history. -/
def pairable (s : LossState η) : Set Nat := {t | t ∈ s.inFlightTimes ∨ ∃ r ∈ s.lostHistory, r.timeSent = t}

/-- What pruning drops is older than everything that can be paired. -/
theorem pruneAckedSendTimes_spec (horder : ∀ space, InOrder (s.perSpace space).sentPackets)
    (hspans : SpansSorted s.ackedSendTimes) : (s.pruneAckedSendTimes.ackedSendTimes.Sublist s.ackedSendTimes) ∧
      ∀ t, Covered s.ackedSendTimes t → Covered s.pruneAckedSendTimes.ackedSendTimes t ∨ ∀ u ∈ s.pairable, t < u := by
  rw [pruneAckedSendTimes]
  cases holdest : s.oldestRelevant with
  | none =>
    refine ⟨nil_sublist _,?_⟩
    intro t _
    right
    rw [oldestRelevant,min?_eq_none_iff,append_eq_nil_iff] at holdest
    rintro u (⟨space,e,he,rfl⟩ | ⟨r,hr,rfl⟩)
    · have hempty := filterMap_eq_nil_iff.mp holdest.1 space space.mem_all
      rw [Option.map_eq_none_iff,head?_eq_none_iff] at hempty
      rw [hempty] at he
      cases he
    · rw [map_eq_nil_iff.mp holdest.2] at hr
      cases hr
  | some oldest =>
    have hpartitioned : Partitioned (fun span : AckedSpan => decide (span.last < oldest)) s.ackedSendTimes := by
      apply hspans.sorted.imp_of_mem
      intro a b ha hb hab hlt
      have := hspans.first_le b hb
      have := of_decide_eq_true hlt
      exact decide_eq_true (by omega)
    obtain ⟨-,hleast⟩ := min?_eq_some_iff.mp holdest
    have hall : ∀ u ∈ s.pairable, oldest ≤ u := by
      rintro u (⟨space,e,he,rfl⟩ | ⟨r,hr,rfl⟩)
      · cases hentries : (s.perSpace space).sentPackets.entries with
        | nil =>
          rw [hentries] at he
          cases he
        | cons head rest =>
          have hhead : oldest ≤ head.2.timeSent := by
            apply hleast
            apply mem_append_left
            exact mem_filterMap.mpr ⟨space,space.mem_all,by rw [hentries]; rfl⟩
          have hsorted := (s.perSpace space).sentPackets.sorted
          rw [hentries] at he hsorted
          rcases List.mem_cons.mp he with rfl | he
          · exact hhead
          · have hlt := (pairwise_cons.mp hsorted).1 e he
            exact hhead.trans (horder space head (by rw [hentries]; simp) e (by rw [hentries]; simp [he]) hlt)
      · apply hleast
        exact mem_append_right _ (List.mem_map_of_mem hr)
    simp only [drop_partitionPoint,dropWhile_eq_filter hpartitioned]
    refine ⟨filter_sublist,?_⟩
    rintro t ⟨span,hspan,hfirst,hlast⟩
    by_cases hold : span.last < oldest
    · right
      intro u hu
      have := hall u hu
      omega
    · left
      exact ⟨span,mem_filter.mpr ⟨hspan,by simpa using hold⟩,hfirst,hlast⟩

/-- The send times of the losses still to be judged and of the packets that can become losses. -/
def relevant (s : LossState η) (fresh : List (SentPacket η)) : Set Nat :=
  {t | t ∈ s.pairable ∨ ∃ p ∈ fresh, p.timeSent = t}

/-- The spans cover the acknowledged times that matter, and no granule without one. -/
structure Consistent (s : LossState η) (acked : List Nat) (fresh : List (SentPacket η)) (clock : Nat) : Prop where
  spans : SpansSorted s.ackedSendTimes
  dense : ∀ span ∈ s.ackedSendTimes, span.Dense {t | t ∈ acked}
  cover : ∀ t ∈ acked, Covered s.ackedSendTimes t ∨ ∀ u ∈ s.relevant fresh, t < u
  order : ∀ space, InOrder (s.perSpace space).sentPackets
  inFlight_le : ∀ u ∈ s.inFlightTimes, u ≤ clock
  acked_le : ∀ t ∈ acked, t ≤ clock
namespace Consistent
variable {acked : List Nat} {fresh fresh' : List (SentPacket η)} {clock clock' : Nat} {s' : LossState η}
section
variable (h : s.Consistent acked fresh clock)
include h
theorem shrink (hspans : s'.ackedSendTimes = s.ackedSendTimes)
    (hsent : ∀ space, ∀ e ∈ (s'.perSpace space).sentPackets.entries, e ∈ (s.perSpace space).sentPackets.entries)
    (hrelevant : ∀ u ∈ s'.relevant fresh', u ∈ s.relevant fresh) (hclock : clock ≤ clock') :
    s'.Consistent acked fresh' clock' where
  spans := hspans ▸ h.spans
  dense := hspans ▸ h.dense
  cover t ht := by
    rw [hspans]
    exact (h.cover t ht).imp_right fun hall u hu => hall u (hrelevant u hu)
  order space := (h.order space).of_subset (hsent space)
  inFlight_le u hu := by
    obtain ⟨space,e,he,rfl⟩ := hu
    exact (h.inFlight_le _ ⟨space,e,hsent space e he,rfl⟩).trans hclock
  acked_le t ht := (h.acked_le t ht).trans hclock

theorem of_same (hsame : SameRecords s s') (hclock : clock ≤ clock') : s'.Consistent acked fresh clock' := by
  refine h.shrink hsame.acked ?_ ?_ hclock
  · intro space e he
    rw [← hsame.perSpace]
    exact he
  · intro u hu
    simpa only [relevant,pairable,inFlightTimes,hsame.perSpace,hsame.history] using hu

theorem pruneLostHistory (now : Nat) : (s.pruneLostHistory now).Consistent acked fresh clock := by
  refine h.shrink rfl (fun _ _ he => he) ?_ le_rfl
  rintro u ((hu | ⟨r,hr,rfl⟩) | hu)
  · exact .inl (.inl hu)
  · exact .inl (.inr ⟨r,(mem_filter.mp hr).1,rfl⟩)
  · exact .inr hu
end
variable {space : PnSpaceId} {lost : List (SentPacket η)}
section
variable (h : s.Consistent acked fresh clock)
include h
theorem setSpace_drained {ps : PerSpace η}
    (hsub : ∀ e ∈ ps.sentPackets.entries, e ∈ (s.perSpace space).sentPackets.entries) (hclock : clock ≤ clock')
    (hfresh : ∀ p ∈ fresh', p ∈ fresh ∨ ∃ pn, (pn, p) ∈ (s.perSpace space).sentPackets.entries) :
    (s.setSpace space ps).Consistent acked fresh' clock' := by
  have hsent : ∀ other, ∀ e ∈ ((s.setSpace space ps).perSpace other).sentPackets.entries,
      e ∈ (s.perSpace other).sentPackets.entries := by
    intro other e he
    rw [setSpace] at he
    by_cases hother : other = space
    · subst hother
      simp only [Function.update_self] at he
      exact hsub e he
    · simpa only [Function.update_of_ne hother] using he
  refine h.shrink rfl hsent ?_ hclock
  rintro u ((⟨other,e,he,rfl⟩ | hu) | ⟨p,hp,rfl⟩)
  · exact .inl (.inl ⟨other,e,hsent other e he,rfl⟩)
  · exact .inl (.inr hu)
  · rcases hfresh p hp with hp | ⟨pn,hp⟩
    · exact .inr ⟨p,hp,rfl⟩
    · exact .inl (.inl ⟨space,_,hp,rfl⟩)

theorem onPacketSent {pkt : SentPacket η} (hclock : clock ≤ pkt.timeSent)
    (hnew : pkt.inFlight = true → (∀ e ∈ (s.perSpace space).sentPackets.entries, e.1 < pkt.pn) ∧ (pkt.timeSent ∈ acked → Covered s.ackedSendTimes pkt.timeSent)) :
    (s.onPacketSent space pkt).Consistent acked fresh pkt.timeSent := by
  refine of_same ?_ (setLossDetectionTimer_same _ _) le_rfl
  by_cases hflight : pkt.inFlight = true
  · obtain ⟨hpn,hcovered⟩ := hnew hflight
    generalize hps : (if pkt.ackEliciting then
      { s.perSpace space with timeOfLastAckElicitingPacket := some pkt.timeSent } else s.perSpace space) = ps
    have hpackets : ps.sentPackets = (s.perSpace space).sentPackets := by
      rw [← hps]
      split_ifs <;> rfl
    simp only [hflight,if_true]
    -- an entry afterwards is the packet or an entry from before
    have hentries : ∀ other, ∀ e, e ∈ ((s.setSpace space
        { ps with sentPackets := ps.sentPackets.insert pkt.pn pkt }).perSpace other).sentPackets.entries →
        (other = space ∧ e = (pkt.pn, pkt)) ∨ e ∈ (s.perSpace other).sentPackets.entries := by
      intro other e he
      by_cases hother : other = space
      · subst hother
        rw [setSpace] at he
        simp only [Function.update_self,hpackets] at he
        rcases (SortedMap.mem_insert _ _ _ _).mp he with rfl | ⟨he,-⟩
        · exact .inl ⟨rfl,rfl⟩
        · exact .inr he
      · rw [setSpace] at he
        simp only [Function.update_of_ne hother] at he
        exact .inr he
    constructor
    · exact h.spans
    · exact h.dense
    · intro t ht
      by_cases hsame : t = pkt.timeSent
      · exact .inl (hsame ▸ hcovered (hsame ▸ ht))
      · rcases h.cover t ht with hc | hall
        · exact .inl hc
        · right
          have hle := h.acked_le t ht
          rintro u ((⟨other,e,he,rfl⟩ | hu) | hu)
          · rcases hentries other e he with ⟨-,rfl⟩ | he
            · exact lt_of_le_of_ne (hle.trans hclock) hsame
            · exact hall _ (.inl (.inl ⟨other,e,he,rfl⟩))
          · exact hall u (.inl (.inr hu))
          · exact hall u (.inr hu)
    · intro other a ha b hb hlt
      rcases hentries other a ha with ⟨rfl,rfl⟩ | ha
      · rcases hentries other b hb with ⟨-,rfl⟩ | hb
        · exact le_rfl
        · have := hpn b hb
          omega
      · rcases hentries other b hb with ⟨-,rfl⟩ | hb
        · exact (h.inFlight_le _ ⟨other,a,ha,rfl⟩).trans hclock
        · exact h.order other a ha b hb hlt
    · rintro u ⟨other,e,he,rfl⟩
      rcases hentries other e he with ⟨-,rfl⟩ | he
      · exact le_rfl
      · exact (h.inFlight_le _ ⟨other,e,he,rfl⟩).trans hclock
    · intro t ht
      exact (h.acked_le t ht).trans hclock
  · refine h.setSpace_drained ?_ hclock fun p hp => .inl hp
    intro e he
    split_ifs at he <;> exact he

theorem recordAcked {newlyAcked : List (SentPacket η)} (hle : ∀ p ∈ newlyAcked, p.timeSent ≤ clock) :
    (s.recordAcked newlyAcked).Consistent (acked ++ newlyAcked.map SentPacket.timeSent) fresh clock := by
  have hmem : ∀ p ∈ newlyAcked, p.timeSent ∈ {t | t ∈ acked ++ newlyAcked.map SentPacket.timeSent} :=
    fun p hp => mem_append_right _ (List.mem_map_of_mem hp)
  obtain ⟨hspans,hdense,hcover⟩ := recordAcked_spec newlyAcked h.spans
    (fun span hspan => dense_mono (h.dense span hspan) fun t ht => mem_append_left _ ht) hmem
  refine ⟨hspans,hdense,?_,h.order,h.inFlight_le,?_⟩
  · refine List.forall_mem_append.mpr ⟨fun t ht => ?_,List.forall_mem_map.mpr fun p hp => ?_⟩
    · exact (h.cover t ht).imp_left fun hc => hcover t (.inl hc)
    · exact .inl (hcover _ (.inr ⟨p,hp,rfl⟩))
  · exact List.forall_mem_append.mpr ⟨h.acked_le,List.forall_mem_map.mpr hle⟩
end
theorem pruneAckedSendTimes (h : s.Consistent acked [] clock) : s.pruneAckedSendTimes.Consistent acked [] clock := by
  obtain ⟨hsub,hcover⟩ := pruneAckedSendTimes_spec h.order h.spans
  have hsame : s.pruneAckedSendTimes.perSpace = s.perSpace ∧ s.pruneAckedSendTimes.lostHistory = s.lostHistory := by
    rw [LossState.pruneAckedSendTimes]
    split <;> exact ⟨rfl,rfl⟩
  refine ⟨⟨fun span hspan => h.spans.first_le span (hsub.subset hspan),h.spans.sorted.sublist hsub⟩,
    fun span hspan => h.dense span (hsub.subset hspan),?_,hsame.1 ▸ h.order,?_,h.acked_le⟩
  · have hrelevant : s.pruneAckedSendTimes.relevant [] = s.pairable := by
      simp [relevant,pairable,inFlightTimes,hsame.1,hsame.2]
    rw [hrelevant]
    intro t ht
    rcases h.cover t ht with hc | hall
    · exact hcover t hc
    · exact .inr fun u hu => hall u (.inl hu)
  · intro u hu
    rw [inFlightTimes,hsame.1] at hu
    exact h.inFlight_le u hu
variable (h : s.Consistent acked fresh clock)
include h
theorem onAckReceived (space : PnSpaceId) (ranges : List PnRange) (ackDelay : Nat)
    {now : Nat} (hclock : clock ≤ now) : (s.onAckReceived space ranges ackDelay now).2.Consistent
      (acked ++ (s.onAckReceived space ranges ackDelay now).1.map SentPacket.timeSent) [] now := by
  rw [LossState.onAckReceived]
  cases hmax : (ranges.map PnRange.stop).max? with
  | none =>
    simp only [map_nil,append_nil]
    refine h.shrink rfl (fun _ _ he => he) ?_ hclock
    rintro u (hu | ⟨p,hp,-⟩)
    · exact .inl hu
    · cases hp
  | some frameLargest =>
    obtain ⟨hsub,hnewly⟩ := @foldl_drainRange η ranges (s.perSpace space).sentPackets []
    simp only
    refine of_same ?_ ((noteProgress_same _ _ _).trans (setLossDetectionTimer_same _ _)) le_rfl
    apply pruneAckedSendTimes
    apply recordAcked
    · apply pruneLostHistory
      refine of_same ?_ (sampleRtt_same _ _ _ _ _ _) le_rfl
      apply h.setSpace_drained hsub hclock
      simp
    · intro p hp
      rcases hnewly p hp with hp | ⟨pn,hp⟩
      · cases hp
      · exact (h.inFlight_le _ ⟨space,_,hp,rfl⟩).trans hclock

theorem detectLost {now : Nat} (hclock : clock ≤ now) (hdetect : s.detectLost space now = some (lost, s')) :
    s'.Consistent acked (fresh ++ lost) now := by
  cases hla : (s.perSpace space).largestAckedPacket with
  | none =>
    rw [LossState.detectLost,hla] at hdetect
    obtain ⟨rfl,rfl⟩ := Prod.mk.inj (Option.some.inj hdetect)
    rw [append_nil]
    exact h.shrink rfl (fun _ _ he => he) (fun _ hu => hu) hclock
  | some la =>
    rw [detectLost_eq hla (largest_not_sent hla hdetect)] at hdetect
    obtain ⟨rfl,rfl⟩ := Prod.mk.inj (Option.some.inj hdetect)
    refine of_same ?_ (setLossDetectionTimer_same _ _) le_rfl
    apply h.setSpace_drained _ hclock
    · intro p hp
      rcases List.mem_append.mp hp with hp | hp
      · exact .inl hp
      · rw [lost_walked] at hp
        obtain ⟨e,he,rfl⟩ := List.mem_map.mp hp
        exact .inr ⟨e.1,((SortedMap.mem_range _ _ _ e).mp (mem_filter.mp he).1).1⟩
    · intro e he
      exact ((mem_walked e).mp he).1

theorem recordLostBatch (space : PnSpaceId) {now : Nat} (hclock : clock ≤ now) (hlost : lost ⊆ fresh) :
    (s.recordLostBatch space lost now).2.Consistent acked fresh now := by
  have hpruned := h.pruneLostHistory now
  simp only [LossState.recordLostBatch]
  split_ifs
  · refine hpruned.shrink rfl (fun _ _ he => he) ?_ hclock
    rintro u ((hu | ⟨r,hr,-⟩) | hu)
    · exact .inl (.inl hu)
    · cases hr
    · exact .inr hu
  · apply pruneLostHistory
    refine hpruned.shrink rfl (fun _ _ he => he) ?_ hclock
    rintro u ((hu | ⟨r,hr,rfl⟩) | hu)
    · exact .inl (.inl hu)
    · rcases List.mem_append.mp hr with hr | hr
      · exact .inl (.inr ⟨r,hr,rfl⟩)
      · obtain ⟨p,hp,rfl⟩ := List.mem_map.mp hr
        exact .inr ⟨p,hlost hp,rfl⟩
    · exact .inr hu

theorem inPersistentCongestion_iff_period (hlost : lost ⊆ fresh) :
    s.inPersistentCongestion lost = true ↔ ∃ firstSample, s.firstRttSample = some firstSample ∧
        Period {t | t ∈ acked} s.inFlightTimes s.persistentCongestionDuration
          (s.lossesAfter lost (s.congestionFloor firstSample)) := by
  apply inPersistentCongestion_iff h.spans h.dense
  intro t ht
  refine (h.cover t ht).imp_right ?_
  intro hall l hl
  rcases List.mem_append.mp hl with hl | hl
  · obtain ⟨r,hr,rfl⟩ := List.mem_map.mp hl
    exact hall _ (.inl (.inr ⟨r,hr,rfl⟩))
  · obtain ⟨p,hp,rfl⟩ := List.mem_map.mp hl
    exact hall _ (.inr ⟨p,hlost hp,rfl⟩)
end Consistent
end LossState
/-- The state with the acknowledged send times, the losses still to be judged and the time. -/
structure CongestionSession (η : Type) where
  loss : LossState η
  acked : List Nat
  fresh : List (SentPacket η)
  clock : Nat

inductive LossOp (η : Type)
  | sent (space : PnSpaceId) (pkt : SentPacket η)
  | ackReceived (space : PnSpaceId) (ranges : List LossState.PnRange) (ackDelay now : Nat)
  | detect (space : PnSpaceId) (now : Nat)
  | record (space : PnSpaceId) (lost : List (SentPacket η)) (now : Nat)
  | configure (maxAckDelay : Nat) (ctx : LossContext) (now : Nat)

def LossOp.time {η : Type} : LossOp η → Nat
  | sent _ pkt => pkt.timeSent
  | ackReceived _ _ _ now => now
  | detect _ now => now
  | record _ _ now => now
  | configure _ _ now => now
namespace CongestionSession
variable {η : Type}
def start : CongestionSession η := ⟨LossState.new, [], [], 0⟩

/-- A call that panics ends the run where it is. -/
def step (s : CongestionSession η) (op : LossOp η) : CongestionSession η :=
  match op with
  | .sent space pkt => { s with loss := s.loss.onPacketSent space pkt, clock := op.time }
  | .ackReceived space ranges ackDelay now =>
    { loss := (s.loss.onAckReceived space ranges ackDelay now).2
      acked := s.acked ++ (s.loss.onAckReceived space ranges ackDelay now).1.map SentPacket.timeSent
      fresh := []
      clock := op.time }
  | .detect space now =>
    match s.loss.detectLost space now with
    | none => s
    | some (lost, loss) => { s with loss := loss, fresh := s.fresh ++ lost, clock := op.time }
  | .record space lost now => { s with loss := (s.loss.recordLostBatch space lost now).2, clock := op.time }
  | .configure maxAckDelay ctx _ =>
    { s with loss := { s.loss with maxAckDelay := maxAckDelay, ctx := ctx }, clock := op.time }

/-- Time does not run backwards, packet numbers rise within a space, a batch was declared lost since the
last acknowledgment, and nothing is sent in the same instant as an acknowledged packet that the record
has forgotten. -/
def Orderly (s : CongestionSession η) (op : LossOp η) : Prop :=
  s.clock ≤ op.time ∧
    match op with
    | .sent space pkt => pkt.inFlight = true →
        (∀ e ∈ (s.loss.perSpace space).sentPackets.entries, e.1 < pkt.pn) ∧
          (pkt.timeSent ∈ s.acked → Covered s.loss.ackedSendTimes pkt.timeSent)
    | .record _ lost _ => lost ⊆ s.fresh
    | _ => True

instance [DecidableEq η] (s : CongestionSession η) (op : LossOp η) : Decidable (s.Orderly op) := by
  unfold Orderly
  cases op <;> dsimp only <;> infer_instance
def Consistent (s : CongestionSession η) : Prop := s.loss.Consistent s.acked s.fresh s.clock

theorem start_consistent : (start : CongestionSession η).Consistent where
  spans := ⟨by simp [start,LossState.new],by simp [start,LossState.new]⟩
  dense := by simp [start,LossState.new]
  cover := by simp [start]
  order _ a ha := by cases ha
  inFlight_le u hu := by
    obtain ⟨_,_,he,-⟩ := hu
    cases he
  acked_le := by simp [start]

theorem step_consistent (s : CongestionSession η) (op : LossOp η) (h : s.Consistent) (hop : s.Orderly op) :
    (s.step op).Consistent := by
  obtain ⟨hclock,hop⟩ := hop
  cases op with
  | sent space pkt => exact LossState.Consistent.onPacketSent h hclock hop
  | ackReceived space ranges ackDelay now => exact LossState.Consistent.onAckReceived h space ranges ackDelay hclock
  | detect space now =>
    rw [step]
    cases hdetect : s.loss.detectLost space now with
    | none => exact h
    | some result => exact LossState.Consistent.detectLost h hclock hdetect
  | record space lost now => exact LossState.Consistent.recordLostBatch h space hclock hop
  | configure maxAckDelay ctx now => exact LossState.Consistent.of_same h ⟨rfl,rfl,rfl⟩ hclock

/-- In every state of an orderly run the verdict on a batch, and the one a batch is recorded with, is
whether the losses after the floor have a period of persistent congestion. -/
theorem verdict_iff_period (ops : List (LossOp η)) (h : Trace.Along step Orderly start ops)
    (lost : List (SentPacket η)) (hlost : lost ⊆ (Trace.run step start ops).fresh) :
    let s := Trace.run step start ops
    (s.loss.inPersistentCongestion lost = true ↔
      ∃ firstSample, s.loss.firstRttSample = some firstSample ∧
        LossState.Period {t | t ∈ s.acked} s.loss.inFlightTimes s.loss.persistentCongestionDuration
          (s.loss.lossesAfter lost (s.loss.congestionFloor firstSample))) ∧
      ∀ space now, (s.loss.recordLostBatch space lost now).1 = true ↔
        ∃ firstSample, s.loss.firstRttSample = some firstSample ∧
          LossState.Period {t | t ∈ s.acked} s.loss.inFlightTimes s.loss.persistentCongestionDuration
            ((s.loss.pruneLostHistory now).lossesAfter lost (s.loss.congestionFloor firstSample)) := by
  have hconsistent := h.invariant step_consistent start_consistent
  refine ⟨hconsistent.inPersistentCongestion_iff_period hlost,?_⟩
  intro space now
  have hverdict := (LossState.Consistent.pruneLostHistory hconsistent now).inPersistentCongestion_iff_period hlost
  refine Iff.trans ?_ hverdict
  rw [LossState.recordLostBatch]
  split_ifs with hc <;> simp [hc]

private def packet (pn millis : Nat) : SentPacket Unit := ⟨pn, true, true, Duration.fromMillis millis, ()⟩
private def sentAt (pn millis : Nat) : LossOp Unit := .sent .application (packet pn millis)

local instance : NeZero (2 ^ 64) := ⟨by decide⟩

private def ackedAt (pn : Fin (2 ^ 64)) (millis : Nat) : LossOp Unit :=
  .ackReceived .application [⟨pn, pn, le_rfl⟩] 0 (Duration.fromMillis millis)

/-- Two packets are lost half a second apart, with everything in between lost or in flight. -/
private def outage : List (LossOp Unit) :=
  [sentAt 0 0, ackedAt 0 10, sentAt 1 20, sentAt 2 500, sentAt 3 501, sentAt 4 502, sentAt 5 503, ackedAt 5 520,
    .detect .application (Duration.fromMillis 520)]

/-- Such an outage is persistent congestion. -/
theorem outage_has_period : Trace.Along step Orderly start outage ∧
      ∃ firstSample, (Trace.run step start outage).loss.firstRttSample = some firstSample ∧
        LossState.Period {t | t ∈ (Trace.run step start outage).acked} (Trace.run step start outage).loss.inFlightTimes
          (Trace.run step start outage).loss.persistentCongestionDuration
          ((Trace.run step start outage).loss.lossesAfter (Trace.run step start outage).fresh
            ((Trace.run step start outage).loss.congestionFloor firstSample)) := by
  have horderly : Trace.Along step Orderly start outage := by decide +kernel
  have hverdict : (Trace.run step start outage).loss.inPersistentCongestion (Trace.run step start outage).fresh = true := by
    decide +kernel
  exact ⟨horderly,(verdict_iff_period outage horderly _ (List.Subset.refl _)).1.mp hverdict⟩

/-- Packet 1 is acknowledged in the instant it was sent, and packet 2 is sent then too. -/
private def sameInstant : List (LossOp Unit) :=
  [sentAt 0 0, ackedAt 0 10, sentAt 1 20, ackedAt 1 20, sentAt 2 20, sentAt 3 500, sentAt 4 501, sentAt 5 502,
    sentAt 6 503, ackedAt 6 520, .detect .application (Duration.fromMillis 520)]

/-- The acknowledgment of packet 1 is forgotten, and the loss of packet 2 opens a period. -/
theorem acknowledged_instant_opens_period : (sameInstant.map LossOp.time).Pairwise (· ≤ ·) ∧
      (Trace.run step start sameInstant).fresh.map SentPacket.pn = [2, 3] ∧
      (Trace.run step start sameInstant).loss.inPersistentCongestion (Trace.run step start sameInstant).fresh = true ∧
      ¬∃ firstSample, (Trace.run step start sameInstant).loss.firstRttSample = some firstSample ∧
        LossState.Period {t | t ∈ (Trace.run step start sameInstant).acked}
          (Trace.run step start sameInstant).loss.inFlightTimes
          (Trace.run step start sameInstant).loss.persistentCongestionDuration
          ((Trace.run step start sameInstant).loss.lossesAfter (Trace.run step start sameInstant).fresh
            ((Trace.run step start sameInstant).loss.congestionFloor firstSample)) := by
  refine ⟨by decide +kernel,by decide +kernel,by decide +kernel,?_⟩
  rintro ⟨firstSample,-,pre,a,mid,b,post,heq,-,-,hfar,hacked,-⟩
  have hall : ∀ x ∈ (Trace.run step start sameInstant).loss.allLosses (Trace.run step start sameInstant).fresh,
      x.1 = Duration.fromMillis 20 ∨ x.1 = Duration.fromMillis 500 := by decide +kernel
  have hlong : 0 < (Trace.run step start sameInstant).loss.persistentCongestionDuration := by decide +kernel
  have hmem : Duration.fromMillis 20 ∈ (Trace.run step start sameInstant).acked := by decide +kernel
  have ha := hall a (LossState.mem_lossesAfter.mp (by rw [heq]; simp)).1
  have hb := hall b (LossState.mem_lossesAfter.mp (by rw [heq]; simp)).1
  exact hacked _ hmem (by omega)
end CongestionSession
end PureCrypto.Quic
