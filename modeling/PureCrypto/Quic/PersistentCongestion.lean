import PureCrypto.Framework.RunScan
import PureCrypto.Quic.LossState

/-!
# Persistent congestion

`in_persistent_congestion` against RFC 9002 §7.6.2. The code looks at spans of acknowledged times,
after two checks that settle most calls.
-/
namespace PureCrypto.Quic
open List
structure SpansSorted (spans : List AckedSpan) : Prop where
  first_le : ∀ span ∈ spans, span.first ≤ span.last
  sorted : spans.Pairwise fun a b => a.last < b.first

/-- The closed intervals meet. -/
def AckedSpan.Overlaps (span : AckedSpan) (lo hi : Nat) : Prop := lo ≤ span.last ∧ span.first ≤ hi

/-- A granule that meets the span has an acknowledged time in it. -/
def AckedSpan.Dense (acked : Set Nat) (span : AckedSpan) : Prop :=
  ∀ lo hi, lo + kGranularity ≤ hi → span.Overlaps lo hi → ∃ t ∈ acked, lo ≤ t ∧ t ≤ hi
namespace LossState
variable {η : Type} {s : LossState η}
def inFlightTimes (s : LossState η) : Set Nat :=
  {t | ∃ space, ∃ e ∈ (s.perSpace space).sentPackets.entries, e.2.timeSent = t}

theorem K_GRANULARITY_le_duration (s : LossState η) : kGranularity ≤ s.persistentCongestionDuration := by
  have hmax : kGranularity ≤ Duration.max := by decide
  simp only [persistentCongestionDuration,ptoPeriod,ptoBase,Duration.saturatingMul,Duration.saturatingAdd,
    kPersistentCongestionThreshold]
  omega

/-- The first span that ends at or after `lo` is the one to look at. -/
theorem spanAt_any_iff (hspans : SpansSorted s.ackedSendTimes) (lo hi : Nat) :
    (s.ackedSendTimes[partitionPoint (fun span => decide (span.last < lo)) s.ackedSendTimes]?).any
        (fun span => decide (span.first ≤ hi)) = true ↔
      ∃ span ∈ s.ackedSendTimes, span.Overlaps lo hi := by
  have hpartitioned : Partitioned (fun span : AckedSpan => decide (span.last < lo)) s.ackedSendTimes := by
    apply hspans.sorted.imp_of_mem
    intro a b ha hb hab hlt
    have := hspans.first_le b hb
    have := of_decide_eq_true hlt
    exact decide_eq_true (by omega)
  have hmem : ∀ span, span ∈ (s.ackedSendTimes.filter fun span => !decide (span.last < lo)) ↔
      span ∈ s.ackedSendTimes ∧ lo ≤ span.last := by
    simp
  rw [getElem?_partitionPoint,dropWhile_eq_filter hpartitioned]
  have hsorted := hspans.sorted.filter fun span => !decide (span.last < lo)
  cases hfilter : s.ackedSendTimes.filter fun span => !decide (span.last < lo) with
  | nil =>
    rw [hfilter] at hmem
    constructor
    · intro h
      cases h
    · rintro ⟨span,hspan,hlo,-⟩
      exact absurd ((hmem span).mpr ⟨hspan,hlo⟩) (by simp)
  | cons head rest =>
    rw [hfilter] at hmem hsorted
    obtain ⟨hhead,hlo⟩ := (hmem head).mp (by simp)
    simp only [head?_cons,Option.any_some,decide_eq_true_eq]
    constructor
    · intro h
      exact ⟨head,hhead,hlo,h⟩
    · rintro ⟨span,hspan,hlo',hhi⟩
      rcases List.mem_cons.mp ((hmem span).mpr ⟨hspan,hlo'⟩) with rfl | hrest
      · exact hhi
      · have := (pairwise_cons.mp hsorted).1 span hrest
        have := hspans.first_le head hhead
        omega

theorem countP_lt_countP_iff (l : List Nat) (lo hi : Nat) :
    l.countP (fun t => decide (t ≤ lo)) < l.countP (fun t => decide (t < hi)) ↔ ∃ t ∈ l, lo < t ∧ t < hi := by
  constructor
  · intro h
    by_contra hnone
    have hle : l.countP (fun t => decide (t < hi)) ≤ l.countP (fun t => decide (t ≤ lo)) := by
      apply countP_mono_left
      intro t ht hlt
      have hlt := of_decide_eq_true hlt
      by_contra hlo
      exact hnone ⟨t,ht,by simpa using hlo,hlt⟩
    omega
  · rintro ⟨t,ht,hlo,hhi⟩
    obtain ⟨pre,post,rfl⟩ := append_of_mem ht
    have hle : ∀ m : List Nat, m.countP (fun t => decide (t ≤ lo)) ≤ m.countP (fun t => decide (t < hi)) := by
      intro m
      apply countP_mono_left
      intro u _ hu
      have := of_decide_eq_true hu
      exact decide_eq_true (by omega)
    have hpre := hle pre
    have hpost := hle post
    simp only [countP_append,countP_cons,hhi,Nat.not_le.mpr hlo,decide_true,decide_false,if_true,
      Bool.false_eq_true,if_false]
    omega

theorem partitioned_sorted {l : List Nat} (h : l.Pairwise (· ≤ ·)) {P : Nat → Prop} [DecidablePred P]
    (hp : ∀ a b, a ≤ b → P b → P a) : Partitioned (fun t => decide (P t)) l :=
  h.imp fun {a b} hab hb => decide_eq_true (hp a b hab (of_decide_eq_true hb))

theorem outstanding_lt_iff (space : PnSpaceId) (lo hi : Nat) :
    partitionPoint (fun t => decide (t ≤ lo)) (s.outstanding space) <
        partitionPoint (fun t => decide (t < hi)) (s.outstanding space) ↔
      ∃ e ∈ (s.perSpace space).sentPackets.entries, lo < e.2.timeSent ∧ e.2.timeSent < hi := by
  have hsorted : (s.outstanding space).Pairwise (· ≤ ·) := pairwise_insertionSort _ _
  have hle : Partitioned (fun t => decide (t ≤ lo)) (s.outstanding space) :=
    partitioned_sorted hsorted fun _ _ => le_trans
  have hlt : Partitioned (fun t => decide (t < hi)) (s.outstanding space) :=
    partitioned_sorted hsorted fun _ _ => lt_of_le_of_lt
  rw [partitionPoint_eq_countP hle,partitionPoint_eq_countP hlt,countP_lt_countP_iff]
  simp only [outstanding,(perm_insertionSort _ _).mem_iff,List.mem_map]
  constructor
  · rintro ⟨t,⟨e,he,rfl⟩,h⟩
    exact ⟨e,he,h⟩
  · rintro ⟨e,he,h⟩
    exact ⟨_,⟨e,he,rfl⟩,h⟩

theorem progressBetween_iff (hspans : SpansSorted s.ackedSendTimes) (lo hi : Nat) : s.progressBetween lo hi = true ↔
      (∃ span ∈ s.ackedSendTimes, span.Overlaps lo hi) ∨ ∃ t ∈ s.inFlightTimes, lo < t ∧ t < hi := by
  rw [progressBetween,Bool.or_eq_true,spanAt_any_iff hspans]
  apply or_congr_right
  simp only [List.any_eq_true,decide_eq_true_eq,outstanding_lt_iff,inFlightTimes,Set.mem_ofPred_eq]
  constructor
  · rintro ⟨space,-,e,he,h⟩
    exact ⟨_,⟨space,e,he,rfl⟩,h⟩
  · rintro ⟨t,⟨space,e,he,rfl⟩,h⟩
    exact ⟨space,space.mem_all,e,he,h⟩

theorem runLoop_eq_scan (duration : Nat) (start prev : Option (Nat × Bool)) (l : List (Nat × Bool)) :
    s.runLoop duration (start.map Prod.fst) (prev.map Prod.fst) l =
      RunScan.scan Prod.snd (fun x y => s.progressBetween x.1 y.1 = true) (fun a b => b.1 - a.1 ≥ duration)
        start prev l := by
  induction l generalizing start prev with
  | nil => rfl
  | cons x l ih =>
    obtain ⟨t,mark⟩ := x
    have hbreak : ((prev.map Prod.fst).any fun p => s.progressBetween p t) =
        prev.any fun p => decide (s.progressBetween p.1 (t, mark).1 = true) := by
      cases prev <;> simp
    have hstart : (if ((prev.map Prod.fst).any fun p => s.progressBetween p t) = true then none else start.map Prod.fst) =
        (if (prev.any fun p => decide (s.progressBetween p.1 (t, mark).1 = true)) = true then none else start).map
          Prod.fst := by
      rw [hbreak]
      split_ifs <;> rfl
    rw [runLoop,RunScan.scan]
    simp only [hstart]
    generalize (if (prev.any fun p => decide (s.progressBetween p.1 t = true)) = true then none else start) = start'
    cases mark with
    | false => simpa using ih start' (some (t, false))
    | true =>
      cases start' with
      | none => simpa using ih (some (t, true)) (some (t, true))
      | some a =>
        simp only [Option.map_some,not_true,if_false]
        split_ifs
        · rfl
        · exact ih (some a) (some (t, true))

/-- The verdict as specified. -/
def Period (acked inFlight : Set Nat) (duration : Nat) (losses : List (Nat × Bool)) : Prop :=
  ∃ pre a mid b post, losses = pre ++ a :: (mid ++ b :: post) ∧ a.2 = true ∧ b.2 = true ∧ a.1 + duration ≤ b.1 ∧
    (∀ t ∈ acked, ¬(a.1 ≤ t ∧ t ≤ b.1)) ∧
    (a :: (mid ++ [b])).IsChain fun x y => ∀ t ∈ inFlight, ¬(x.1 < t ∧ t < y.1)
variable {mid : List (Nat × Bool)}
/-- A span that meets a run of losses meets the gap between two neighbours. -/
theorem not_overlaps_of_isChain {span : AckedSpan} {a b : Nat × Bool}
    (hspan : span.first ≤ span.last)
    (hchain : (a :: (mid ++ [b])).IsChain fun x y => ¬span.Overlaps x.1 y.1) :
    ¬span.Overlaps a.1 b.1 := by
  induction mid generalizing a with
  | nil => simpa using hchain
  | cons x mid ih =>
    obtain ⟨hax,hrest⟩ := isChain_cons_cons.mp hchain
    rintro ⟨hlo,hhi⟩
    have hx : x.1 < span.first := by
      by_contra hle
      exact hax ⟨hlo,not_lt.mp hle⟩
    exact ih hrest ⟨by omega,hhi⟩

theorem run_bounds {a b : Nat × Bool} (hsorted : (a :: (mid ++ [b])).Pairwise fun x y => x.1 ≤ y.1) :
    ∀ x ∈ a :: (mid ++ [b]), a.1 ≤ x.1 ∧ x.1 ≤ b.1 := by
  intro x hx
  obtain ⟨ha,hrest⟩ := pairwise_cons.mp hsorted
  rcases List.mem_cons.mp hx with rfl | hx
  · exact ⟨le_rfl,ha b (by simp)⟩
  · refine ⟨ha x hx,?_⟩
    rcases List.mem_append.mp hx with hx | hx
    · exact (pairwise_append.mp hrest).2.2 x hx b (by simp)
    · rw [List.mem_singleton.mp hx]
section Verdict
variable {acked : Set Nat} {lost : List (SentPacket η)} {losses : List (Nat × Bool)}
theorem hasRun_iff_period (hspans : SpansSorted s.ackedSendTimes)
    (hdense : ∀ span ∈ s.ackedSendTimes, span.Dense acked)
    (hcover : ∀ t ∈ acked, (∃ span ∈ s.ackedSendTimes, span.first ≤ t ∧ t ≤ span.last) ∨ ∀ l ∈ losses, t < l.1)
    (hsorted : losses.Pairwise fun x y => x.1 ≤ y.1) :
    RunScan.HasRun Prod.snd (fun x y => s.progressBetween x.1 y.1 = true)
        (fun a b => b.1 - a.1 ≥ s.persistentCongestionDuration) losses ↔
      Period acked s.inFlightTimes s.persistentCongestionDuration losses := by
  have hgran := s.K_GRANULARITY_le_duration
  have hpos : 0 < kGranularity := by decide
  constructor
  · rintro ⟨pre,a,mid,b,post,rfl,ha,hb,hfar,hchain⟩
    refine ⟨pre,a,mid,b,post,rfl,ha,hb,by omega,?_,?_⟩
    · rintro t ht ⟨hlo,hhi⟩
      rcases hcover t ht with ⟨span,hspan,hfirst,hlast⟩ | hbefore
      · have hfree : (a :: (mid ++ [b])).IsChain fun x y => ¬span.Overlaps x.1 y.1 := by
          apply hchain.imp
          intro x y hxy hover
          exact hxy ((progressBetween_iff hspans _ _).mpr (.inl ⟨span,hspan,hover⟩))
        exact not_overlaps_of_isChain (hspans.first_le span hspan) hfree ⟨by omega,by omega⟩
      · have := hbefore a (by simp)
        omega
    · apply hchain.imp
      intro x y hxy t ht hbetween
      exact hxy ((progressBetween_iff hspans _ _).mpr (.inr ⟨t,ht,hbetween⟩))
  · rintro ⟨pre,a,mid,b,post,rfl,ha,hb,hfar,hacked,hchain⟩
    refine ⟨pre,a,mid,b,post,rfl,ha,hb,by omega,?_⟩
    have hrun : (a :: (mid ++ [b])).Pairwise fun x y => x.1 ≤ y.1 := by
      have hsub : (a :: (mid ++ [b])).Sublist (a :: (mid ++ b :: post)) := by
        apply List.Sublist.cons_cons
        apply List.Sublist.append_left
        exact List.Sublist.cons_cons b (nil_sublist post)
      exact List.Pairwise.sublist (hsub.trans (sublist_append_right pre _)) hsorted
    have hbounds := run_bounds hrun
    apply hchain.imp_of_mem_imp
    intro x y hx hy hxy hprogress
    rcases (progressBetween_iff hspans _ _).mp hprogress with ⟨span,hspan,hover⟩ | ⟨t,ht,hbetween⟩
    · have hmeets : span.Overlaps a.1 b.1 := ⟨(hbounds x hx).1.trans hover.1,hover.2.trans (hbounds y hy).2⟩
      obtain ⟨t,ht,hin⟩ := hdense span hspan a.1 b.1 (by omega) hmeets
      exact hacked t ht hin
    · exact hxy t ht hbetween

/-- Where no span meets the period, the scan for a gap does not give up. -/
theorem gapLoop_of_free {duration latest cursor lo hi : Nat} {spans : List AckedSpan}
    (hfree : ∀ span ∈ spans, ¬span.Overlaps lo hi) (hcursor : cursor ≤ lo) (hlatest : hi ≤ latest)
    (hfar : lo + duration ≤ hi) :
    gapLoop duration latest cursor spans = none ∨ ∃ c, c ≤ lo ∧ gapLoop duration latest cursor spans = some c := by
  induction spans generalizing cursor with
  | nil => exact .inr ⟨cursor,hcursor,rfl⟩
  | cons span spans ih =>
    have hrest : ∀ span ∈ spans, ¬span.Overlaps lo hi := fun span h => hfree span (by simp [h])
    rw [gapLoop]
    split_ifs with hbefore hfits
    · exact ih hrest hcursor
    · exact .inl rfl
    · apply ih hrest
      by_contra hcursor'
      -- the span ends inside the period, so it starts after it and leaves a gap
      have hafter : hi < span.first := by
        by_contra hle
        exact hfree span (by simp) ⟨by omega,not_lt.mp hle⟩
      omega
variable {floor t m : Nat}
theorem mem_lossesAfter {l : Nat × Bool} : l ∈ s.lossesAfter lost floor ↔ l ∈ s.allLosses lost ∧ floor < l.1 := by
  rw [lossesAfter]
  simp

theorem mem_edgeTimes : t ∈ s.edgeTimes lost floor ↔ (t, true) ∈ s.lossesAfter lost floor := by
  rw [mem_lossesAfter,edgeTimes,allLosses]
  simp only [mem_filter,List.mem_append,List.mem_map,decide_eq_true_eq,Prod.mk.injEq,gt_iff_lt]
  apply and_congr_left
  intro _
  apply or_congr <;>
  · constructor
    · rintro ⟨x,⟨hx,hmark⟩,rfl⟩
      exact ⟨x,hx,rfl,hmark⟩
    · rintro ⟨x,hx,rfl,hmark⟩
      exact ⟨x,⟨hx,hmark⟩,rfl⟩

theorem foldl_min_le {l : List Nat} (ht : t ∈ m :: l) : l.foldl min m ≤ t := List.min?_getD_le_of_mem (k := 0) ht
theorem le_foldl_max {l : List Nat} (ht : t ∈ m :: l) : t ≤ l.foldl max m := List.le_max?_getD_of_mem (k := 0) ht

/-- If the spans stand for the acknowledged times, the verdict is the specified one. -/
theorem inPersistentCongestion_iff (hspans : SpansSorted s.ackedSendTimes)
    (hdense : ∀ span ∈ s.ackedSendTimes, span.Dense acked)
    (hcover : ∀ t ∈ acked, (∃ span ∈ s.ackedSendTimes, span.first ≤ t ∧ t ≤ span.last) ∨
      ∀ l ∈ s.allLosses lost, t < l.1) : s.inPersistentCongestion lost = true ↔
      ∃ firstSample, s.firstRttSample = some firstSample ∧ Period acked s.inFlightTimes s.persistentCongestionDuration
          (s.lossesAfter lost (s.congestionFloor firstSample)) := by
  rw [inPersistentCongestion]
  cases hsample : s.firstRttSample with
  | none => simp
  | some firstSample =>
    simp only [Option.some.injEq,exists_eq_left']
    generalize hfloor : s.congestionFloor firstSample = floor
    have hsorted : (s.lossesAfter lost floor).Pairwise fun x y => x.1 ≤ y.1 := by
      exact pairwise_insertionSort _ _
    have hwalk : s.runLoop s.persistentCongestionDuration none none (s.lossesAfter lost floor) = true ↔
        Period acked s.inFlightTimes s.persistentCongestionDuration (s.lossesAfter lost floor) := by
      rw [← hasRun_iff_period hspans hdense _ hsorted]
      · have hfar : (s.lossesAfter lost floor).Pairwise fun a x => ∀ b : Nat × Bool,
            b.1 - x.1 ≥ s.persistentCongestionDuration → b.1 - a.1 ≥ s.persistentCongestionDuration := by
          apply hsorted.imp
          omega
        exact (Bool.eq_iff_iff.mp (runLoop_eq_scan _ none none _)).trans ((RunScan.scan_iff hfar).1 none)
      · intro t ht
        exact (hcover t ht).imp_right fun h l hl => h l (mem_lossesAfter.mp hl).1
    -- a period passes both checks
    have hchecks : Period acked s.inFlightTimes s.persistentCongestionDuration (s.lossesAfter lost floor) →
        ∃ a b, a ∈ s.edgeTimes lost floor ∧ b ∈ s.edgeTimes lost floor ∧ a + s.persistentCongestionDuration ≤ b ∧
          ∀ span ∈ s.ackedSendTimes, ¬span.Overlaps a b := by
      rintro ⟨pre,⟨a,_⟩,mid,⟨b,_⟩,post,heq,rfl,rfl,hfar,hacked,-⟩
      refine ⟨a,b,mem_edgeTimes.mpr (by rw [heq]; simp),mem_edgeTimes.mpr (by rw [heq]; simp),hfar,?_⟩
      intro span hspan hover
      have hgran := s.K_GRANULARITY_le_duration
      obtain ⟨t,ht,hin⟩ := hdense span hspan a b (by omega) hover
      exact hacked t ht hin
    split_ifs with hnear
    · simp only [false_iff]
      intro hperiod
      obtain ⟨a,b,ha,hb,hfar,-⟩ := hchecks hperiod
      have := foldl_min_le (mem_cons_of_mem Duration.max ha)
      have := le_foldl_max (mem_cons_of_mem 0 hb)
      omega
    · cases hgap : gapLoop s.persistentCongestionDuration ((s.edgeTimes lost floor).foldl max 0)
          ((s.edgeTimes lost floor).foldl min Duration.max) s.ackedSendTimes with
      | none => exact hwalk
      | some cursor =>
        simp only
        split_ifs with hshort
        · simp only [false_iff]
          intro hperiod
          obtain ⟨a,b,ha,hb,hfar,hfree⟩ := hchecks hperiod
          have hearliest := foldl_min_le (mem_cons_of_mem Duration.max ha)
          have hlatest := le_foldl_max (mem_cons_of_mem 0 hb)
          rcases gapLoop_of_free hfree hearliest hlatest hfar with hnone | ⟨c,hc,hsome⟩
          · rw [hnone] at hgap
            cases hgap
          · rw [hsome] at hgap
            have := Option.some.inj hgap
            omega
        · exact hwalk
end Verdict
end LossState
end PureCrypto.Quic
