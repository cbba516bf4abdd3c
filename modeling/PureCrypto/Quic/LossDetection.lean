import Mathlib.Order.Bounds.Basic
import PureCrypto.Quic.LossState

/-!
# Which packets are declared lost

`detect_lost` against RFC 9002 §6.1: a packet at or below the largest acknowledged one is lost when it is
three packet numbers behind or as old as the time threshold.  The code compares with
`now.saturating_sub(loss_delay)`, which is zero early in a connection.
-/
namespace PureCrypto.Quic.LossState
open List
open Duration (saturatingAdd fromMillis)
variable {η : Type}
/-- The two rules as the code computes them. -/
def declares (largestAcked : Nat) (lostSendTime : Nat) (e : Nat × SentPacket η) : Bool :=
  decide (largestAcked - e.1 ≥ kPacketThreshold ∨ e.2.timeSent ≤ lostSendTime)

/-- What the walk does at one packet. -/
def visit (largestAcked : Nat) (lossDelay lostSendTime : Nat) (w : Walk η) (e : Nat × SentPacket η) : Walk η :=
  if declares largestAcked lostSendTime e then
    { w with sentPackets := w.sentPackets.erase e.1, lost := w.lost ++ [e.2] }
  else
    { w with lossTime := some (sooner w.lossTime (saturatingAdd e.2.timeSent lossDelay)) }
section Walk
variable {largestAcked : Nat} {lossDelay lostSendTime : Nat}
theorem range_visit (w : Walk η) {e : Nat × SentPacket η} {lo hi : Nat} (h : e.1 < lo) :
    (visit largestAcked lossDelay lostSendTime w e).sentPackets.range lo hi = w.sentPackets.range lo hi := by
  rw [visit]
  split_ifs
  · exact SortedMap.range_erase h
  · rfl

/-- Over the packets below the largest acknowledged one the walk is a fold. -/
theorem detectLoop_below {below rest : List (Nat × SentPacket η)} {fuel cursor : Nat} {w : Walk η}
    (hrange : w.sentPackets.range cursor (largestAcked + 1) = below ++ rest)
    (hbelow : ∀ e ∈ below, e.1 < largestAcked) (hlarge : largestAcked < 2 ^ 64) (hcursor : cursor ≤ largestAcked) :
    ∃ cursor', cursor' ≤ largestAcked ∧
      (below.foldl (visit largestAcked lossDelay lostSendTime) w).sentPackets.range cursor' (largestAcked + 1) = rest ∧
      detectLoop largestAcked lossDelay lostSendTime (fuel + below.length) cursor w =
        detectLoop largestAcked lossDelay lostSendTime fuel cursor'
          (below.foldl (visit largestAcked lossDelay lostSendTime) w) := by
  induction below generalizing cursor w with
  | nil => exact ⟨cursor,hcursor,hrange,rfl⟩
  | cons e below ih =>
    obtain ⟨pn,p⟩ := e
    have hpn : pn < largestAcked := hbelow (pn, p) (by simp)
    have hnext : (visit largestAcked lossDelay lostSendTime w (pn, p)).sentPackets.range (pn + 1) (largestAcked + 1)
        = below ++ rest := by
      rw [range_visit w (Nat.lt_succ_self pn)]
      exact SortedMap.range_succ hrange
    obtain ⟨cursor',hle,hrest,hloop⟩ := ih hnext (fun e he => hbelow e (by simp [he])) hpn
    refine ⟨cursor',hle,hrest,?_⟩
    rw [foldl_cons,← hloop,length_cons,← add_assoc,detectLoop,if_neg (by omega),hrange]
    simp only [cons_append]
    rw [if_neg (by omega),visit]
    by_cases hdeclares : largestAcked - pn ≥ kPacketThreshold ∨ p.timeSent ≤ lostSendTime
    · have hvisit : declares largestAcked lostSendTime (pn, p) = true := decide_eq_true hdeclares
      rw [if_pos hdeclares,if_pos hvisit]
    · have hvisit : ¬declares largestAcked lostSendTime (pn, p) = true := by
        simpa only [declares,decide_eq_true_eq] using hdeclares
      rw [if_neg hdeclares,if_neg hvisit]
variable (l : List (Nat × SentPacket η))
theorem foldl_visit_packets (w : Walk η) : (l.foldl (visit largestAcked lossDelay lostSendTime) w).lost =
        w.lost ++ (l.filter (declares largestAcked lostSendTime)).map Prod.snd ∧
      ∀ e, e ∈ (l.foldl (visit largestAcked lossDelay lostSendTime) w).sentPackets.entries ↔
        e ∈ w.sentPackets.entries ∧ ∀ x ∈ l, declares largestAcked lostSendTime x = true → e.1 ≠ x.1 := by
  induction l generalizing w with
  | nil => simp
  | cons x l ih =>
    obtain ⟨hlost,hsent⟩ := ih (visit largestAcked lossDelay lostSendTime w x)
    rw [foldl_cons,hlost]
    by_cases hx : declares largestAcked lostSendTime x = true
    · constructor
      · simp [visit,hx]
      · intro e
        rw [hsent e,visit,if_pos hx,SortedMap.mem_erase,forall_mem_cons]
        constructor
        · rintro ⟨⟨hmem,hne⟩,hall⟩
          exact ⟨hmem,fun _ => hne,hall⟩
        · rintro ⟨hmem,hne,hall⟩
          exact ⟨⟨hmem,hne hx⟩,hall⟩
    · constructor
      · simp [visit,hx]
      · intro e
        rw [hsent e,visit,if_neg hx,forall_mem_cons]
        constructor
        · rintro ⟨hmem,hall⟩
          exact ⟨hmem,fun h => absurd h hx,hall⟩
        · rintro ⟨hmem,-,hall⟩
          exact ⟨hmem,hall⟩

/-- The deadlines the walk has to choose from. -/
def deadlines (largestAcked : Nat) (lossDelay lostSendTime : Nat) (l : List (Nat × SentPacket η)) : List Nat :=
  (l.filter fun e => !declares largestAcked lostSendTime e).map
    fun e => saturatingAdd e.2.timeSent lossDelay

theorem min?_sooner (lossTime : Option Nat) (cand : Nat) (l : List Nat) :
    (sooner lossTime cand :: l).min? = (lossTime.toList ++ cand :: l).min? := by
  cases lossTime with
  | none => rfl
  | some t =>
    rfl

theorem foldl_visit_lossTime (w : Walk η) : (l.foldl (visit largestAcked lossDelay lostSendTime) w).lossTime =
      (w.lossTime.toList ++ deadlines largestAcked lossDelay lostSendTime l).min? := by
  induction l generalizing w with
  | nil => cases h : w.lossTime <;> simp [deadlines,h]
  | cons x l ih =>
    rw [foldl_cons,ih]
    by_cases hx : declares largestAcked lostSendTime x = true
    · simp [visit,deadlines,hx]
    · have hcons : deadlines largestAcked lossDelay lostSendTime (x :: l) =
          saturatingAdd x.2.timeSent lossDelay :: deadlines largestAcked lossDelay lostSendTime l := by
        simp [deadlines,hx]
      rw [hcons,← min?_sooner,visit,if_neg hx]
      rfl
end Walk
/-- Nine eighths of the round-trip time, at least the granularity. -/
def timeThreshold (s : LossState η) : Nat := max (9 * max s.smoothedRtt s.latestRtt / 8) kGranularity

/-- The packets to declare lost. -/
def Overdue (s : LossState η) (now : Nat) (largestAcked : Nat) (e : Nat × SentPacket η) : Prop :=
  e.1 ≤ largestAcked ∧ (largestAcked - e.1 ≥ kPacketThreshold ∨ e.2.timeSent + s.timeThreshold ≤ now)

instance (s : LossState η) (now : Nat) (largestAcked : Nat) (e : Nat × SentPacket η) :
    Decidable (s.Overdue now largestAcked e) :=
  inferInstanceAs (Decidable (_ ∧ _))

/-- When the packets left below the largest acknowledged one are due. -/
def dueTimes (s : LossState η) (space : PnSpaceId) (now : Nat) (largestAcked : Nat) : Set Nat :=
  {t | ∃ e ∈ (s.perSpace space).sentPackets.entries,
    e.1 < largestAcked ∧ ¬s.Overdue now largestAcked e ∧ t = e.2.timeSent + s.timeThreshold}

/-- `detect_lost` returns the overdue packets in order, leaves the others, and sets `loss_time` to the
earliest due time, which is still ahead. -/
def DetectsExactly (s : LossState η) (space : PnSpaceId) (now : Nat) : Prop :=
  ∃ lost s', s.detectLost space now = some (lost, s') ∧
    (∀ other, other ≠ space → s'.perSpace other = s.perSpace other) ∧
    match (s.perSpace space).largestAckedPacket with
    | none =>
      lost = [] ∧ (s'.perSpace space).sentPackets = (s.perSpace space).sentPackets ∧ (s'.perSpace space).lossTime = none
    | some largestAcked =>
      s.lossDelay = s.timeThreshold ∧
        lost = ((s.perSpace space).sentPackets.entries.filter fun e => decide (s.Overdue now largestAcked e)).map Prod.snd ∧
        (∀ e, e ∈ (s'.perSpace space).sentPackets.entries ↔
          e ∈ (s.perSpace space).sentPackets.entries ∧ ¬s.Overdue now largestAcked e) ∧
        ((s'.perSpace space).lossTime = none ∧ s.dueTimes space now largestAcked = ∅ ∨
          ∃ t, (s'.perSpace space).lossTime = some t ∧ IsLeast (s.dueTimes space now largestAcked) t ∧ now < t)

/-- The early clause is the one that matters; the others are about values no connection reaches. -/
structure Regular (s : LossState η) (space : PnSpaceId) (now : Nat) : Prop where
  unarmed : (s.perSpace space).largestAckedPacket = none → (s.perSpace space).lossTime = none
  rtt : ∀ la, (s.perSpace space).largestAckedPacket = some la → 9 * max s.smoothedRtt s.latestRtt < 2 ^ 64
  early : ∀ la, (s.perSpace space).largestAckedPacket = some la →
    ∀ e ∈ (s.perSpace space).sentPackets.entries,
      e.1 < la.val → la.val - e.1 < kPacketThreshold → e.2.timeSent = 0 → s.timeThreshold ≤ now
  acked : ∀ la, (s.perSpace space).largestAckedPacket = some la →
    ∀ p, (s.perSpace space).sentPackets.get? la.val = some p → la.val + 1 = 2 ^ 64 ∧ now < p.timeSent + s.timeThreshold
  clock : ∀ la, (s.perSpace space).largestAckedPacket = some la →
    (s.dueTimes space now la).Nonempty → ∃ t ∈ s.dueTimes space now la, t ≤ Duration.max

/-- The delay computed on a `u64` is the threshold as long as nothing saturates. -/
theorem lossDelay_eq_iff (s : LossState η) : s.lossDelay = s.timeThreshold ↔ 9 * max s.smoothedRtt s.latestRtt < 2 ^ 64 := by
  rw [lossDelay,timeThreshold,saturatingMul64,Duration.asNanos,kGranularity,fromMillis]
  generalize max s.smoothedRtt s.latestRtt = rtt
  constructor
  · by_contra hbig
    omega
  · intro h
    have hmod : rtt % 2 ^ 64 = rtt := Nat.mod_eq_of_lt (by omega)
    omega

theorem perSpace_setLossDetectionTimer (s : LossState η) (now : Nat) :
    (s.setLossDetectionTimer now).perSpace = s.perSpace := by
  rw [setLossDetectionTimer]
  split
  · rfl
  · split_ifs <;> rfl
section Detect
variable (s : LossState η) (space : PnSpaceId) (now : Nat) (la : Fin (2 ^ 64))
def walked : Walk η :=
  ((s.perSpace space).sentPackets.range 0 la).foldl (visit la s.lossDelay (now - s.lossDelay))
    ⟨(s.perSpace space).sentPackets, none, []⟩

def afterWalk : LossState η :=
  (s.setSpace space { s.perSpace space with
    sentPackets := (s.walked space now la).sentPackets
    lossTime := (s.walked space now la).lossTime }).setLossDetectionTimer now

theorem perSpace_afterWalk_ne {other : PnSpaceId} (h : other ≠ space) :
    (s.afterWalk space now la).perSpace other = s.perSpace other := by
  rw [afterWalk,perSpace_setLossDetectionTimer]
  exact Function.update_of_ne h _ _

theorem perSpace_afterWalk :
    ((s.afterWalk space now la).perSpace space).sentPackets = (s.walked space now la).sentPackets ∧
      ((s.afterWalk space now la).perSpace space).lossTime = (s.walked space now la).lossTime := by
  rw [afterWalk,perSpace_setLossDetectionTimer,setSpace]
  simp only [Function.update_self]
  exact ⟨trivial,trivial⟩

/-- The walk comes to the largest acknowledged packet, if it is still tracked. -/
theorem detectLoop_reaches : ∃ fuel cursor, cursor ≤ la.val ∧
    (s.walked space now la).sentPackets.range cursor (la + 1) =
      ((s.perSpace space).sentPackets.get? la).toList.map (fun p => (la.val, p)) ∧
    detectLoop la s.lossDelay (now - s.lossDelay) ((s.perSpace space).sentPackets.length + 1) 0
        ⟨(s.perSpace space).sentPackets, none, []⟩ =
      detectLoop la s.lossDelay (now - s.lossDelay) (fuel + 1) cursor (s.walked space now la) := by
  have hlen : ((s.perSpace space).sentPackets.range 0 la).length ≤ (s.perSpace space).sentPackets.length :=
    length_filter_le _ _
  have hbelow : ∀ e ∈ (s.perSpace space).sentPackets.range 0 la, e.1 < la.val :=
    fun e he => ((SortedMap.mem_range _ _ _ e).mp he).2.2
  obtain ⟨cursor,hle,hrange,hloop⟩ := @detectLoop_below η la s.lossDelay (now - s.lossDelay) _ _
    ((s.perSpace space).sentPackets.length - ((s.perSpace space).sentPackets.range 0 la).length + 1) 0
    ⟨(s.perSpace space).sentPackets,none,[]⟩ (SortedMap.range_snoc _ (Nat.zero_le la)) hbelow la.isLt (Nat.zero_le _)
  refine ⟨(s.perSpace space).sentPackets.length - ((s.perSpace space).sentPackets.range 0 la).length,
    cursor,hle,hrange,?_⟩
  have hfuel : (s.perSpace space).sentPackets.length + 1 = (s.perSpace space).sentPackets.length -
      ((s.perSpace space).sentPackets.range 0 la).length + 1 + ((s.perSpace space).sentPackets.range 0 la).length := by
    omega
  rw [hfuel]
  exact hloop
variable {s space now la} (h : (s.perSpace space).largestAckedPacket = some la)
include h
theorem detectLost_eq (hacked : ∀ p, (s.perSpace space).sentPackets.get? la = some p → la.val + 1 = 2 ^ 64) :
    s.detectLost space now = some ((s.walked space now la).lost, s.afterWalk space now la) := by
  obtain ⟨fuel,cursor,hle,hrange,hloop⟩ := s.detectLoop_reaches space now la
  have hwalk : detectLoop la s.lossDelay (now - s.lossDelay) (fuel + 1) cursor (s.walked space now la) =
      some (s.walked space now la) := by
    rw [detectLoop,if_neg (by omega),hrange]
    cases hget : (s.perSpace space).sentPackets.get? la with
    | none => rfl
    | some p => exact if_pos (hacked p hget)
  rw [detectLost]
  simp only [hloop,hwalk,Option.map_some,afterWalk,h]

/-- Then the cursor runs past the end of its range. -/
theorem detectLost_panics {p : SentPacket η} (hget : (s.perSpace space).sentPackets.get? la = some p) (hne : la.val + 1 ≠ 2 ^ 64) :
    s.detectLost space now = none := by
  obtain ⟨fuel,cursor,hle,hrange,hloop⟩ := s.detectLoop_reaches space now la
  have hpast : ∀ w : Walk η, detectLoop la s.lossDelay (now - s.lossDelay) fuel (la + 1) w = none := by
    intro w
    cases fuel with
    | zero => rfl
    | succ fuel => rw [detectLoop,if_pos (Nat.lt_succ_self _)]
  have hwalk : detectLoop la s.lossDelay (now - s.lossDelay) (fuel + 1) cursor (s.walked space now la) = none := by
    rw [detectLoop,if_neg (by omega),hrange,hget]
    simp only [Option.toList_some,map_cons,map_nil]
    rw [if_neg hne,hpast,hpast]
    exact ite_self _
  rw [detectLost,h]
  simp only
  rw [hloop,hwalk]
  rfl

theorem largest_not_sent {r} (hdetect : s.detectLost space now = some r)
    (p : SentPacket η) (hp : (s.perSpace space).sentPackets.get? la = some p) : la.val + 1 = 2 ^ 64 := by
  by_contra hne
  rw [detectLost_panics h hp hne] at hdetect
  cases hdetect

omit h

theorem lost_walked : (s.walked space now la).lost = (((s.perSpace space).sentPackets.range 0 la).filter
      (declares la (now - s.lossDelay))).map Prod.snd :=
  (foldl_visit_packets _ _).1

theorem mem_walked (e : Nat × SentPacket η) : e ∈ (s.walked space now la).sentPackets.entries ↔
      e ∈ (s.perSpace space).sentPackets.entries ∧ ¬(e.1 < la ∧ declares la (now - s.lossDelay) e = true) := by
  rw [walked,(foldl_visit_packets _ _).2]
  apply and_congr_right
  intro he
  constructor
  · rintro hall ⟨hlt,hdeclares⟩
    exact hall e ((SortedMap.mem_range _ _ _ e).mpr ⟨he,Nat.zero_le _,hlt⟩) hdeclares rfl
  · rintro hnot x hx hdeclares heq
    obtain ⟨hx,-,hlt⟩ := (SortedMap.mem_range _ _ _ x).mp hx
    have hval : e = x := by
      have := SortedMap.value_unique _ (k := e.1) (v := e.2) (w := x.2) he (by rw [heq]; exact hx)
      exact Prod.ext heq this
    exact hnot ⟨heq ▸ hlt,hval ▸ hdeclares⟩

theorem lossTime_walked : (s.walked space now la).lossTime =
      (deadlines la s.lossDelay (now - s.lossDelay) ((s.perSpace space).sentPackets.range 0 la)).min? := by
  rw [walked,foldl_visit_lossTime]
  rfl

theorem mem_deadlines {t : Nat} :
    t ∈ deadlines la s.lossDelay (now - s.lossDelay) ((s.perSpace space).sentPackets.range 0 la) ↔
      ∃ e ∈ (s.perSpace space).sentPackets.entries, e.1 < la.val ∧ declares la (now - s.lossDelay) e = false ∧
        t = saturatingAdd e.2.timeSent s.lossDelay := by
  simp only [deadlines,List.mem_map,mem_filter,SortedMap.mem_range,Bool.not_eq_true',zero_le,true_and]
  constructor
  · rintro ⟨e,⟨⟨he,hlt⟩,hdeclares⟩,rfl⟩
    exact ⟨e,he,hlt,hdeclares,rfl⟩
  · rintro ⟨e,he,hlt,hdeclares,rfl⟩
    exact ⟨e,⟨⟨he,hlt⟩,hdeclares⟩,rfl⟩

/-- Except for packets sent at time zero, the code's rule is the specified one. -/
theorem declares_iff {e : Nat × SentPacket η} (hdelay : s.lossDelay = s.timeThreshold) (hlt : e.1 < la.val)
    (hearly : la.val - e.1 < kPacketThreshold → e.2.timeSent = 0 → s.timeThreshold ≤ now) :
    declares la (now - s.lossDelay) e = true ↔ s.Overdue now la e := by
  rw [declares,decide_eq_true_eq]
  constructor
  · rintro (hthreshold | htime)
    · exact ⟨hlt.le,.inl hthreshold⟩
    · by_cases hthreshold : la.val - e.1 ≥ kPacketThreshold
      · exact ⟨hlt.le,.inl hthreshold⟩
      · exact ⟨hlt.le,.inr (by omega)⟩
  · rintro ⟨-,hthreshold | htime⟩
    · exact .inl hthreshold
    · exact .inr (by omega)
end Detect
variable {s : LossState η} {space sp : PnSpaceId} {now t : Nat} {la : Fin (2 ^ 64)}
  {e : Nat × SentPacket η}
section
variable (hr : s.Regular space now)
include hr
section
variable (h : (s.perSpace space).largestAckedPacket = some la)
include h
theorem Regular.not_overdue (he : e ∈ (s.perSpace space).sentPackets.entries) (hla : e.1 = la.val) :
    ¬s.Overdue now la e := by
  have hget : (s.perSpace space).sentPackets.get? la.val = some e.2 := by
    rw [SortedMap.get?_eq_some_iff,← hla]
    exact he
  have hnow := (hr.acked la h e.2 hget).2
  rintro ⟨-,hthreshold | htime⟩
  · rw [hla,kPacketThreshold] at hthreshold
    omega
  · omega

theorem Regular.overdue_iff (he : e ∈ (s.perSpace space).sentPackets.entries) :
    s.Overdue now la e ↔ e.1 < la.val ∧ declares la (now - s.lossDelay) e = true := by
  have hdelay := (lossDelay_eq_iff s).mpr (hr.rtt la h)
  constructor
  · intro hover
    have hlt : e.1 < la.val := lt_of_le_of_ne hover.1 fun heq => hr.not_overdue h he heq hover
    exact ⟨hlt,(declares_iff hdelay hlt (hr.early la h e he hlt)).mpr hover⟩
  · rintro ⟨hlt,hdeclares⟩
    exact (declares_iff hdelay hlt (hr.early la h e he hlt)).mp hdeclares

theorem Regular.lossTime : (s.walked space now la).lossTime = none ∧ s.dueTimes space now la = ∅ ∨
      ∃ t, (s.walked space now la).lossTime = some t ∧ IsLeast (s.dueTimes space now la) t ∧ now < t := by
  have hdelay := (lossDelay_eq_iff s).mpr (hr.rtt la h)
  -- the deadlines the code compares are the due times, cut off at the largest duration
  have hdue : ∀ t, t ∈ deadlines la s.lossDelay (now - s.lossDelay) ((s.perSpace space).sentPackets.range 0 la) ↔
      ∃ u ∈ s.dueTimes space now la, t = min u Duration.max := by
    intro t
    rw [mem_deadlines]
    constructor
    · rintro ⟨e,he,hlt,hdeclares,rfl⟩
      have hnot : ¬s.Overdue now la e := by
        rw [hr.overdue_iff h he,hdeclares]
        simp
      exact ⟨_,⟨e,he,hlt,hnot,rfl⟩,by rw [saturatingAdd,hdelay]⟩
    · rintro ⟨u,⟨e,he,hlt,hnot,rfl⟩,rfl⟩
      rw [hr.overdue_iff h he] at hnot
      exact ⟨e,he,hlt,by simpa [hlt] using hnot,by rw [saturatingAdd,hdelay]⟩
  rw [lossTime_walked]
  cases hmin : (deadlines la s.lossDelay (now - s.lossDelay) ((s.perSpace space).sentPackets.range 0 la)).min? with
  | none =>
    left
    refine ⟨rfl,Set.eq_empty_iff_forall_notMem.mpr ?_⟩
    intro u hu
    have hmem := (hdue (min u Duration.max)).mpr ⟨u,hu,rfl⟩
    rw [min?_eq_none_iff.mp hmin] at hmem
    cases hmem
  | some t =>
    right
    obtain ⟨hmem,hleast⟩ := min?_eq_some_iff.mp hmin
    obtain ⟨u,hu,ht⟩ := (hdue t).mp hmem
    obtain ⟨v,hv,hmax⟩ := hr.clock la h ⟨u,hu⟩
    have hle := hleast _ ((hdue (min v Duration.max)).mpr ⟨v,hv,rfl⟩)
    have hin : t ∈ s.dueTimes space now la := by
      by_cases hu' : u ≤ Duration.max
      · rw [min_eq_left hu'] at ht
        exact ht ▸ hu
      · have hv' : v = t := by omega
        exact hv' ▸ hv
    refine ⟨t,rfl,⟨hin,?_⟩,?_⟩
    · intro w hw
      exact (hleast _ ((hdue (min w Duration.max)).mpr ⟨w,hw,rfl⟩)).trans (min_le_left _ _)
    · obtain ⟨e,-,hlt,hnot,rfl⟩ := hin
      by_contra hnow
      exact hnot ⟨hlt.le,.inr (not_lt.mp hnow)⟩
end
theorem detectsExactly_of_regular : s.DetectsExactly space now := by
  rw [DetectsExactly]
  cases h : (s.perSpace space).largestAckedPacket with
  | none =>
    refine ⟨[],s,?_,fun _ _ => rfl,rfl,rfl,hr.unarmed h⟩
    rw [detectLost,h]
  | some la =>
    have hpackets := s.perSpace_afterWalk space now la
    refine ⟨_,_,detectLost_eq h fun p hp => (hr.acked la h p hp).1,
      fun other hne => s.perSpace_afterWalk_ne space now la hne,(lossDelay_eq_iff s).mpr (hr.rtt la h),?_,?_,?_⟩
    · rw [lost_walked,SortedMap.range,List.filter_filter]
      congr 1
      apply filter_congr
      intro e he
      rw [Bool.eq_iff_iff]
      simp [hr.overdue_iff h he,and_comm]
    · intro e
      rw [hpackets.1,mem_walked]
      apply and_congr_right
      intro he
      rw [hr.overdue_iff h he]
    · rw [hpackets.2]
      exact hr.lossTime h
end
theorem regular_of_detectsExactly (hd : s.DetectsExactly space now) : s.Regular space now := by
  obtain ⟨lost,s',heq,-,hmatch⟩ := hd
  cases h : (s.perSpace space).largestAckedPacket with
  | none =>
    rw [h] at hmatch
    rw [detectLost,h] at heq
    simp only [Option.some.injEq,Prod.mk.injEq] at heq
    have hnone := hmatch.2.2
    rw [← heq.2] at hnone
    refine ⟨fun _ => hnone,?_,?_,?_,?_⟩ <;> intro la hla <;> simp [h] at hla
  | some la =>
    rw [h] at hmatch
    obtain ⟨hdelay,-,hsent,hloss⟩ := hmatch
    have hacked := largest_not_sent h heq
    rw [detectLost_eq h hacked,Option.some.injEq,Prod.mk.injEq] at heq
    obtain ⟨hpackets,htime⟩ := s.perSpace_afterWalk space now la
    rw [heq.2] at hpackets htime
    rw [hpackets] at hsent
    rw [htime] at hloss
    constructor
    · intro hnone
      simp [h] at hnone
    · intro la' hla'
      exact (lossDelay_eq_iff s).mp hdelay
    · intro la' hla' e he hlt hthreshold hzero
      cases h.symm.trans hla'
      by_contra hnow
      -- the code drops the packet, which is not overdue
      have hdrop : declares la (now - s.lossDelay) e = true :=
        decide_eq_true (.inr (by omega))
      have hkept : ¬s.Overdue now la e := by
        rintro ⟨-,hge | hle⟩
        · omega
        · omega
      exact ((mem_walked e).mp ((hsent e).mpr ⟨he,hkept⟩)).2 ⟨hlt,hdrop⟩
    · intro la' hla' p hp
      cases h.symm.trans hla'
      refine ⟨hacked p hp,?_⟩
      have hmem := (SortedMap.get?_eq_some_iff _ _ _).mp hp
      have hkept := (hsent (la.val, p)).mp ((mem_walked _).mpr ⟨hmem,fun hlt => absurd hlt.1 (lt_irrefl _)⟩)
      by_contra hnow
      exact hkept.2 ⟨le_rfl,.inr (not_lt.mp hnow)⟩
    · intro la' hla' hdue
      cases h.symm.trans hla'
      rcases hloss with ⟨-,hempty⟩ | ⟨t,ht,hleast,-⟩
      · rw [hempty] at hdue
        exact absurd hdue Set.not_nonempty_empty
      · rw [lossTime_walked] at ht
        obtain ⟨e,-,-,-,rfl⟩ := mem_deadlines.mp (min?_eq_some_iff.mp ht).1
        exact ⟨_,hleast.1,min_le_right _ _⟩

/-- Loss detection is exact in the regular states and in no other. -/
theorem detectsExactly_iff_regular (s : LossState η) (space : PnSpaceId) (now : Nat) :
    s.DetectsExactly space now ↔ s.Regular space now :=
  ⟨regular_of_detectsExactly,detectsExactly_of_regular⟩

private def packetAt (pn timeSent : Nat) : SentPacket Unit := ⟨pn, true, true, timeSent, ()⟩

/-- Two packets sent at time zero, the second acknowledged after five milliseconds. -/
private def startOfConnection : LossState Unit :=
  (((new.onPacketSent .initial (packetAt 0 0)).onPacketSent .initial (packetAt 1 0)).onAckReceived .initial
    [⟨1, 1, le_rfl⟩] 0 (fromMillis 5)).2

/-- The first packet is declared lost at once, five eighths of a millisecond before it is due. -/
theorem early_packet_declared_lost :
    (startOfConnection.detectLost .initial (Duration.fromMillis 5)).map (fun r => r.1.map SentPacket.pn) = some [0] ∧
      ¬startOfConnection.DetectsExactly .initial (Duration.fromMillis 5) := by
  constructor
  · decide
  · intro h
    have htracked : (startOfConnection.perSpace .initial).sentPackets.entries = [(0, packetAt 0 0)] := rfl
    have hearly := (regular_of_detectsExactly h).early 1 rfl (0, packetAt 0 0) (by simp [htracked]) (by decide)
      (by decide) rfl
    exact absurd hearly (by decide)

theorem lossTime_of_earlier {earliest : Option (Nat × PnSpaceId)}
    (h : ∀ t sp, earliest = some (t, sp) → (s.perSpace sp).lossTime = some t)
    (heq : s.earlier earliest space = some (t, sp)) : (s.perSpace sp).lossTime = some t := by
  rw [earlier] at heq
  split at heq
  · exact h t sp heq
  next u hloss =>
    split at heq
    · split_ifs at heq
      · exact h t sp heq
      · cases heq
        exact hloss
    · cases heq
      exact hloss

theorem lossTime_of_earliestLossTime (h : s.earliestLossTime = some (t, sp)) : (s.perSpace sp).lossTime = some t :=
  foldlRecOn (motive := fun earliest => ∀ t sp, earliest = some (t, sp) → (s.perSpace sp).lossTime = some t) _ _
    (by rintro _ _ ⟨⟩) (fun _ hearliest _ _ _ _ => lossTime_of_earlier hearliest) t sp h

/-- The timer asks for a pass only where one is due. -/
theorem lossTime_of_timeout (h : (s.onLossDetectionTimeout now).1 = some (.detectLoss sp)) :
    ∃ t ≤ now, (s.perSpace sp).lossTime = some t := by
  rw [onLossDetectionTimeout] at h
  split at h
  · cases h
  split at h
  · cases h
  split at h
  next t space hearliest =>
    cases h
    obtain ⟨hsome,hle⟩ := Option.filter_eq_some_iff.mp hearliest
    exact ⟨t,of_decide_eq_true hle,lossTime_of_earliestLossTime hsome⟩
  · split at h
    all_goals split at h
    all_goals cases h

/-- After a pass the timer does not ask for the same pass again at the same time. -/
theorem timeout_after_detectLost {s' : LossState η} {lost : List (SentPacket η)}
    (hr : s.Regular space now) (h : s.detectLost space now = some (lost, s')) :
    (s'.onLossDetectionTimeout now).1 ≠ some (.detectLoss space) := by
  intro htimeout
  obtain ⟨t,hle,ht⟩ := lossTime_of_timeout htimeout
  obtain ⟨lost',s'',heq,-,hmatch⟩ := detectsExactly_of_regular hr
  obtain ⟨-,rfl⟩ := Prod.mk.inj (Option.some.inj (heq.symm.trans h))
  cases hla : (s.perSpace space).largestAckedPacket with
  | none =>
    rw [hla] at hmatch
    cases hmatch.2.2.symm.trans ht
  | some la =>
    rw [hla] at hmatch
    rcases hmatch.2.2.2 with ⟨hnone,-⟩ | ⟨u,hu,-,hlt⟩
    · cases hnone.symm.trans ht
    · cases hu.symm.trans ht
      exact absurd hle (not_le.mpr hlt)

/-- A millisecond later the first packet is lost in time. -/
theorem timeout_after_detectLost_late : ∃ lost s', startOfConnection.detectLost .initial (fromMillis 6) = some (lost, s') ∧
    (s'.onLossDetectionTimeout (fromMillis 6)).1 ≠ some (.detectLoss .initial) := by
  refine ⟨_,_,rfl,timeout_after_detectLost (s := startOfConnection)
    ⟨nofun,fun _ _ => by decide,fun _ _ _ _ _ _ _ => by decide,?_,?_⟩ rfl⟩
  · rintro _ ⟨⟩ p ⟨⟩
  · rintro _ ⟨⟩ ⟨t,e,he,hdue⟩
    cases mem_singleton.mp he
    exact ⟨t,⟨_,he,hdue⟩,hdue.2.2.trans_le (by decide)⟩
end PureCrypto.Quic.LossState
