import Mathlib.Data.List.Sort
import PureCrypto.Framework.PartitionPoint
import PureCrypto.Framework.SortedMap

/-!
# Loss recovery

The state of `quic/loss.rs` (RFC 9002) and its operations, without key discard and RTT reset.  A `Duration`
is a number of nanoseconds; its additions and products saturate at `Duration.max`.  What a packet carries
for retransmission is a parameter: loss recovery only passes it on.
-/
namespace PureCrypto.Quic
namespace Duration
/-- `u64::MAX` seconds and 999 999 999 nanoseconds. -/
protected def max : Nat := (2 ^ 64 - 1) * 10 ^ 9 + 999999999

def saturatingAdd (a b : Nat) : Nat := min (a + b) Duration.max
def saturatingMul (a : Nat) (k : Nat) : Nat := min (a * k) Duration.max

/-- `as_nanos() as u64`. -/
def asNanos (a : Nat) : Nat := a % 2 ^ 64

def fromMillis (ms : Nat) : Nat := ms * 10 ^ 6
def fromSecs (s : Nat) : Nat := s * 10 ^ 9

/-- `checked_mul(k).unwrap_or(60 s)`. -/
def mulOrMinute (a : Nat) (k : Nat) : Nat := if a * k ≤ Duration.max then a * k else fromSecs 60
end Duration
/-- `saturating_mul` on nanoseconds in a `u64`. -/
def saturatingMul64 (a k : Nat) : Nat := min (a * k) (2 ^ 64 - 1)

def kPacketThreshold : Nat := 3
def kGranularity : Nat := Duration.fromMillis 1
def kInitialRtt : Nat := Duration.fromMillis 333
def kPersistentCongestionThreshold : Nat := 3
def ptoBackoffCap : Nat := 16
def kPtoProbes : Nat := 2

inductive PnSpaceId
  | initial
  | handshake
  | application
deriving DecidableEq, Repr

def PnSpaceId.all : List PnSpaceId := [.initial, .handshake, .application]
theorem PnSpaceId.mem_all (space : PnSpaceId) : space ∈ PnSpaceId.all := by
  cases space <;> simp [PnSpaceId.all]

/-- A tracked packet; `hints` is what it carried. -/
structure SentPacket (η : Type) where
  pn : Nat
  ackEliciting : Bool
  inFlight : Bool
  timeSent : Nat
  hints : η
deriving DecidableEq

structure AckedSpan where
  first : Nat
  last : Nat
deriving DecidableEq

structure LostRecord where
  timeSent : Nat
  space : PnSpaceId
  ackEliciting : Bool
deriving DecidableEq

structure PerSpace (η : Type) where
  sentPackets : SortedMap Nat (SentPacket η)
  largestAckedPacket : Option (Fin (2 ^ 64))
  lossTime : Option Nat
  timeOfLastAckElicitingPacket : Option Nat

def PerSpace.default {η : Type} : PerSpace η := ⟨SortedMap.empty, none, none, none⟩
def PerSpace.hasAckEliciting {η : Type} (ps : PerSpace η) : Bool :=
  ps.sentPackets.entries.any fun e => e.2.ackEliciting

structure LossContext where
  isServer : Bool
  handshakeConfirmed : Bool
  hasHandshakeKeys : Bool
  peerHandshakeAcked : Bool
  atAmplificationLimit : Bool

structure LossState (η : Type) where
  latestRtt : Nat
  smoothedRtt : Nat
  rttvar : Nat
  minRtt : Nat
  firstRttSample : Option Nat
  maxAckDelay : Nat
  ptoCount : Nat
  lossDetectionTimer : Option Nat
  perSpace : PnSpaceId → PerSpace η
  probeSpace : Option PnSpaceId
  probeCredit : Nat
  ackedSendTimes : List AckedSpan
  lostHistory : List LostRecord
  persistentCongestionDeclared : Option Nat
  ctx : LossContext
namespace LossState
variable {η : Type} (s : LossState η)
def new : LossState η where
  latestRtt := 0
  smoothedRtt := kInitialRtt
  rttvar := kInitialRtt / 2
  minRtt := Duration.max
  firstRttSample := none
  maxAckDelay := Duration.fromMillis 25
  ptoCount := 0
  lossDetectionTimer := none
  perSpace := fun _ => PerSpace.default
  probeSpace := none
  probeCredit := 0
  ackedSendTimes := []
  lostHistory := []
  persistentCongestionDeclared := none
  ctx := ⟨false, false, false, false, false⟩

def setSpace (space : PnSpaceId) (ps : PerSpace η) : LossState η :=
  { s with perSpace := Function.update s.perSpace space ps }
def armProbe (space : PnSpaceId) : LossState η := { s with probeSpace := some space, probeCredit := kPtoProbes }
def clearProbe : LossState η := { s with probeSpace := none, probeCredit := 0 }
def peerCompletedAddressValidation : Bool :=
  s.ctx.isServer || s.ctx.peerHandshakeAcked || s.ctx.handshakeConfirmed
def ptoBase : Nat :=
  Duration.saturatingAdd s.smoothedRtt (max (Duration.saturatingMul s.rttvar 4) kGranularity)
def ptoPeriod : Nat := Duration.saturatingAdd s.ptoBase s.maxAckDelay
def persistentCongestionDuration : Nat := Duration.saturatingMul s.ptoPeriod kPersistentCongestionThreshold
def ptoBackoff : Nat := 1 <<< min s.ptoCount ptoBackoffCap
def backedOff (d : Nat) : Nat := Duration.mulOrMinute d s.ptoBackoff
def hasAckElicitingInFlight : Bool := PnSpaceId.all.any fun space => (s.perSpace space).hasAckEliciting

/-- The space of the client's probe with nothing in flight. -/
def antiDeadlockSpace : PnSpaceId := if s.ctx.hasHandshakeKeys then .handshake else .initial

def ptoLoop (duration : Nat) (earliest : Option (Nat × PnSpaceId)) :
    List PnSpaceId → Option (Nat × PnSpaceId)
  | [] => earliest
  | space :: rest =>
    if ¬(s.perSpace space).hasAckEliciting then ptoLoop duration earliest rest
    else if space = .application ∧ ¬s.ctx.handshakeConfirmed then earliest
    else
      let d := if space = .application then Duration.saturatingAdd duration (s.backedOff s.maxAckDelay) else duration
      match (s.perSpace space).timeOfLastAckElicitingPacket with
      | none => ptoLoop duration earliest rest
      | some anchor =>
        let t := Duration.saturatingAdd anchor d
        if earliest.all (fun prev => decide (t < prev.1)) then ptoLoop duration (some (t, space)) rest
        else ptoLoop duration earliest rest

def ptoTimeAndSpace (now : Nat) : Option (Nat × PnSpaceId) :=
  let duration := s.backedOff s.ptoBase
  if ¬s.hasAckElicitingInFlight then
    if s.peerCompletedAddressValidation then none
    else some (Duration.saturatingAdd now duration, s.antiDeadlockSpace)
  else s.ptoLoop duration none PnSpaceId.all

/-- The earlier of two deadlines; the later space wins a tie. -/
def earlier (s : LossState η) (earliest : Option (Nat × PnSpaceId)) (space : PnSpaceId) :
    Option (Nat × PnSpaceId) :=
  match (s.perSpace space).lossTime with
  | none => earliest
  | some t =>
    match earliest with
    | some (prev, prevSpace) => if prev < t then some (prev, prevSpace) else some (t, space)
    | none => some (t, space)

def earliestLossTime : Option (Nat × PnSpaceId) := PnSpaceId.all.foldl s.earlier none

def setLossDetectionTimer (now : Nat) : LossState η :=
  match s.earliestLossTime with
  | some (t, _) => { s with lossDetectionTimer := some t }
  | none =>
    if s.ctx.isServer && s.ctx.atAmplificationLimit then { s with lossDetectionTimer := none }
    else if ¬s.hasAckElicitingInFlight ∧ s.peerCompletedAddressValidation then { s with lossDetectionTimer := none }
    else { s with lossDetectionTimer := (s.ptoTimeAndSpace now).map Prod.fst }

def onPacketSent (space : PnSpaceId) (pkt : SentPacket η) : LossState η :=
  let ps := s.perSpace space
  let ps := if pkt.ackEliciting then { ps with timeOfLastAckElicitingPacket := some pkt.timeSent } else ps
  let ps := if pkt.inFlight then { ps with sentPackets := ps.sentPackets.insert pkt.pn pkt } else ps
  (s.setSpace space ps).setLossDetectionTimer pkt.timeSent

def updateRtt (latestRtt ackDelay : Nat) (space : PnSpaceId) (now : Nat) : LossState η :=
  let s := { s with latestRtt := latestRtt, minRtt := min latestRtt s.minRtt }
  match s.firstRttSample with
  | none => { s with firstRttSample := some now, smoothedRtt := latestRtt, rttvar := latestRtt / 2 }
  | some _ =>
    let ackDelay := if space = .application then min ackDelay s.maxAckDelay else ackDelay
    let adjustedRtt := if Duration.saturatingAdd s.minRtt ackDelay ≤ latestRtt then latestRtt - ackDelay else latestRtt
    let diff := (s.smoothedRtt - adjustedRtt) + (adjustedRtt - s.smoothedRtt)
    { s with
      rttvar := saturatingMul64 (Duration.asNanos s.rttvar) 3 / 4 + Duration.asNanos diff / 4
      smoothedRtt := saturatingMul64 (Duration.asNanos s.smoothedRtt) 7 / 8 + Duration.asNanos adjustedRtt / 8 }

def lossDelay : Nat :=
  max (saturatingMul64 (Duration.asNanos (max s.smoothedRtt s.latestRtt)) 9 / 8) kGranularity

/-- What the walk of `detect_lost` carries. -/
structure Walk (η : Type) where
  sentPackets : SortedMap Nat (SentPacket η)
  lossTime : Option Nat
  lost : List (SentPacket η)

def sooner (lossTime : Option Nat) (cand : Nat) : Nat :=
  match lossTime with
  | some t => min t cand
  | none => cand

/-- The walk re-enters the map at `cursor`.  A range whose start is past its end is a panic. -/
def detectLoop (largestAcked : Nat) (lossDelay lostSendTime : Nat) : Nat → Nat → Walk η → Option (Walk η)
  | 0, _, _ => none
  | fuel + 1, cursor, w =>
    if largestAcked < cursor then none
    else
      match w.sentPackets.range cursor (largestAcked + 1) with
      | [] => some w
      | (pn, p) :: _ =>
        if pn + 1 = 2 ^ 64 then some w
        else if largestAcked - pn ≥ kPacketThreshold ∨ p.timeSent ≤ lostSendTime then
          detectLoop largestAcked lossDelay lostSendTime fuel (pn + 1)
            { w with sentPackets := w.sentPackets.erase pn, lost := w.lost ++ [p] }
        else
          detectLoop largestAcked lossDelay lostSendTime fuel (pn + 1)
            { w with lossTime := some (sooner w.lossTime (Duration.saturatingAdd p.timeSent lossDelay)) }

/-- `none` is a panic.  The walk visits every packet at most once. -/
def detectLost (space : PnSpaceId) (now : Nat) : Option (List (SentPacket η) × LossState η) :=
  let ps := s.perSpace space
  match ps.largestAckedPacket with
  | none => some ([], s)
  | some largestAcked =>
    (detectLoop largestAcked.val s.lossDelay (now - s.lossDelay) (ps.sentPackets.length + 1) 0
      ⟨ps.sentPackets, none, []⟩).map fun w =>
        (w.lost, (s.setSpace space { ps with sentPackets := w.sentPackets, lossTime := w.lossTime }).setLossDetectionTimer now)

inductive TimeoutAction
  | detectLoss (space : PnSpaceId)
  | pto (space : PnSpaceId)
deriving DecidableEq

/-- A PTO: back off, arm the probes and the timer. -/
def onPto (space : PnSpaceId) (now : Nat) : Option TimeoutAction × LossState η :=
  (some (.pto space),
    (armProbe { s with ptoCount := min (s.ptoCount + 1) ptoBackoffCap } space).setLossDetectionTimer now)

def onLossDetectionTimeout (now : Nat) : Option TimeoutAction × LossState η :=
  match s.lossDetectionTimer with
  | none => (none, s)
  | some deadline =>
    if now < deadline then (none, s)
    else
      match s.earliestLossTime.filter fun e => decide (e.1 ≤ now) with
      | some (_, space) => (some (.detectLoss space), s)
      | none =>
        if ¬s.hasAckElicitingInFlight then
          if s.peerCompletedAddressValidation then (none, s.setLossDetectionTimer now)
          else s.onPto s.antiDeadlockSpace now
        else
          match s.ptoTimeAndSpace now with
          | none => (none, s.setLossDetectionTimer now)
          | some (_, space) => s.onPto space now

/-- Drop the losses too old to open a period, or acted on already. -/
def pruneLostHistory (now : Nat) : LossState η :=
  let horizon := now - Duration.saturatingMul s.persistentCongestionDuration 2
  let floor := match s.persistentCongestionDeclared with
    | some declared => max horizon declared
    | none => horizon
  { s with lostHistory := s.lostHistory.filter fun r => decide (r.timeSent > floor) }

/-- Extend the last span, start a new one, or give an older time a span of its own. -/
def recordTime (spans : List AckedSpan) (timeSent : Nat) : List AckedSpan :=
  match spans.getLast? with
  | none => [⟨timeSent, timeSent⟩]
  | some span =>
    if timeSent ≥ span.last then
      if timeSent - span.last < kGranularity then spans.dropLast ++ [⟨span.first, timeSent⟩]
      else spans ++ [⟨timeSent, timeSent⟩]
    else
      let at_ := partitionPoint (fun span => decide (span.last < timeSent)) spans
      match spans[at_]? with
      | none => spans
      | some next => if next.first > timeSent then spans.insertIdx at_ ⟨timeSent, timeSent⟩ else spans

/-- The earliest send time a later batch can pair. -/
def oldestRelevant : Option Nat :=
  ((PnSpaceId.all.filterMap fun space => (s.perSpace space).sentPackets.entries.head?.map fun e => e.2.timeSent) ++
    s.lostHistory.map fun r => r.timeSent).min?

def pruneAckedSendTimes : LossState η :=
  match s.oldestRelevant with
  | some t =>
    { s with ackedSendTimes :=
        s.ackedSendTimes.drop (partitionPoint (fun span => decide (span.last < t)) s.ackedSendTimes) }
  | none => { s with ackedSendTimes := [] }

/-- An inclusive range of packet numbers. -/
structure PnRange where
  start : Fin (2 ^ 64)
  stop : Fin (2 ^ 64)
  start_le : start ≤ stop

def drainRange (acc : SortedMap Nat (SentPacket η) × List (SentPacket η)) (r : PnRange) :
    SortedMap Nat (SentPacket η) × List (SentPacket η) :=
  (acc.1.retain fun pn _ => !decide (r.start.val ≤ pn ∧ pn ≤ r.stop.val),
    acc.2 ++ (acc.1.range r.start.val (r.stop.val + 1)).map Prod.snd)

def sampleRtt (newlyAcked : List (SentPacket η)) (frameLargest : Nat) (ackDelay : Nat) (space : PnSpaceId)
    (now : Nat) : LossState η :=
  match newlyAcked.find? fun p => decide (p.pn = frameLargest) with
  | none => s
  | some p =>
    if newlyAcked.any fun p => p.ackEliciting then s.updateRtt (now - p.timeSent) ackDelay space now else s

def recordAcked (newlyAcked : List (SentPacket η)) : LossState η :=
  { s with ackedSendTimes := newlyAcked.foldl (fun spans p => recordTime spans p.timeSent) s.ackedSendTimes }

/-- An acknowledgment of something new ends the backoff. -/
def noteProgress (newlyAcked : List (SentPacket η)) (space : PnSpaceId) : LossState η :=
  if newlyAcked.isEmpty then s
  else
    let s := if space = .handshake then { s with ctx := { s.ctx with peerHandshakeAcked := true } } else s
    let s := if s.peerCompletedAddressValidation then { s with ptoCount := 0 } else s
    s.clearProbe

def onAckReceived (space : PnSpaceId) (ackedRanges : List PnRange) (ackDelay now : Nat) :
    List (SentPacket η) × LossState η :=
  match (ackedRanges.map PnRange.stop).max? with
  | none => ([], s)
  | some frameLargest =>
    let ps := s.perSpace space
    let (sentPackets, newlyAcked) := ackedRanges.foldl drainRange (ps.sentPackets, [])
    let largest := match ps.largestAckedPacket with
      | some v => max v frameLargest
      | none => frameLargest
    let s := s.setSpace space { ps with sentPackets := sentPackets, largestAckedPacket := some largest }
    let s := s.sampleRtt newlyAcked frameLargest ackDelay space now
    let s := s.pruneLostHistory now
    let s := s.recordAcked newlyAcked
    let s := s.pruneAckedSendTimes
    let s := s.noteProgress newlyAcked space
    (newlyAcked, s.setLossDetectionTimer now)

/-- Nothing sent up to here counts. -/
def congestionFloor (firstSample : Nat) : Nat :=
  match s.persistentCongestionDeclared with
  | some declared => max firstSample declared
  | none => firstSample

/-- The losses of the history and of the batch, with whether they were ack-eliciting. -/
def allLosses (lost : List (SentPacket η)) : List (Nat × Bool) :=
  s.lostHistory.map (fun r => (r.timeSent, r.ackEliciting)) ++ lost.map fun p => (p.timeSent, p.ackEliciting)

/-- Those that count, in send order (a stable sort). -/
def lossesAfter (lost : List (SentPacket η)) (floor : Nat) : List (Nat × Bool) :=
  ((s.allLosses lost).filter fun l => decide (l.1 > floor)).insertionSort fun a b => a.1 ≤ b.1

/-- The send times of the candidate edges. -/
def edgeTimes (lost : List (SentPacket η)) (floor : Nat) : List Nat :=
  (((s.lostHistory.filter fun r => r.ackEliciting).map fun r => r.timeSent) ++
    (lost.filter fun p => p.ackEliciting).map fun p => p.timeSent).filter fun t => decide (t > floor)

/-- A gap of the record at least `duration` long, or where the scan ended. -/
def gapLoop (duration latest : Nat) (cursor : Nat) : List AckedSpan → Option Nat
  | [] => some cursor
  | span :: spans =>
    if span.last < cursor then gapLoop duration latest cursor spans
    else if min span.first latest - cursor ≥ duration then none
    else gapLoop duration latest (max cursor span.last) spans

def outstanding (space : PnSpaceId) : List Nat :=
  ((s.perSpace space).sentPackets.entries.map fun e => e.2.timeSent).insertionSort (· ≤ ·)

/-- Whether anything sent between two losses was acknowledged or is still in flight. -/
def progressBetween (lo hi : Nat) : Bool :=
  (s.ackedSendTimes[partitionPoint (fun span => decide (span.last < lo)) s.ackedSendTimes]?).any
      (fun span => decide (span.first ≤ hi)) ||
    PnSpaceId.all.any fun space =>
      decide (partitionPoint (fun t => decide (t ≤ lo)) (s.outstanding space) <
        partitionPoint (fun t => decide (t < hi)) (s.outstanding space))

/-- The losses in send order: `runStart` is the first edge of the current run. -/
def runLoop (duration : Nat) (runStart prev : Option Nat) : List (Nat × Bool) → Bool
  | [] => false
  | (timeSent, ackEliciting) :: losses =>
    let runStart := if prev.any fun prev => s.progressBetween prev timeSent then none else runStart
    if ¬ackEliciting then runLoop duration runStart (some timeSent) losses
    else
      match runStart with
      | none => runLoop duration (some timeSent) (some timeSent) losses
      | some start =>
        if timeSent - start ≥ duration then true else runLoop duration (some start) (some timeSent) losses

def inPersistentCongestion (lost : List (SentPacket η)) : Bool :=
  match s.firstRttSample with
  | none => false
  | some firstSample =>
    let floor := s.congestionFloor firstSample
    let duration := s.persistentCongestionDuration
    let edges := s.edgeTimes lost floor
    let earliest := edges.foldl min Duration.max
    let latest := edges.foldl max 0
    if earliest > latest ∨ latest - earliest < duration then false
    else
      match gapLoop duration latest earliest s.ackedSendTimes with
      | some cursor =>
        if latest - cursor < duration then false
        else s.runLoop duration none none (s.lossesAfter lost floor)
      | none => s.runLoop duration none none (s.lossesAfter lost floor)

/-- Judge a batch with the history, then fold it in or start anew. -/
def recordLostBatch (space : PnSpaceId) (lost : List (SentPacket η)) (now : Nat) : Bool × LossState η :=
  let s := s.pruneLostHistory now
  if s.inPersistentCongestion lost then
    (true, { s with lostHistory := [], persistentCongestionDeclared := some now })
  else
    (false, pruneLostHistory { s with
      lostHistory := s.lostHistory ++ lost.map fun p => ⟨p.timeSent, space, p.ackEliciting⟩ } now)
end LossState
end PureCrypto.Quic
