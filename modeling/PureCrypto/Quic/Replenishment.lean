import PureCrypto.Quic.RecvCredit

/-! # Replenishing receive credit -/
namespace PureCrypto.Quic
open CreditWindow
/-- The limit of a receive half stays ahead of what was read. -/
structure RecvStream.Granted (r : RecvStream) : Prop where
  announced_le : r.maxDataAnnounced ≤ r.maxData
  granted : r.isReset = false → 2 ≤ r.window → r.readOff + r.window < u64Bound →
    r.readOff < r.maxData
namespace RecvStream
theorem Granted.new (n : Nat) : (RecvStream.new n).Granted :=
  ⟨le_refl n,fun _ hwindow _ => lt_of_lt_of_le Nat.zero_lt_two hwindow⟩
variable {r r' : RecvStream}
theorem Granted.flag (h : r.Granted) (hmove : RecvFlag r r') : r'.Granted := by
  cases hmove with
  | popMax => exact ⟨le_refl _,h.granted⟩
  | _ => exact ⟨h.announced_le,h.granted⟩

theorem maxData_replenishStream (hopen : r.isReset = false)
    (hbound : r.readOff + r.window < u64Bound) : (Streams.replenishStream r).maxData =
      grant r.window r.maxDataAnnounced r.maxData r.readOff (r.readOff + r.window) := by
  have hhalf : r.readOff + r.window / 2 < u64Bound :=
    lt_of_le_of_lt (Nat.add_le_add_left (Nat.div_le_self _ _) _) hbound
  rw [grant_eq_ite]
  simp only [Streams.replenishStream]
  rw [replenishThreshold_eq,wrappingAdd_eq hhalf,saturatingAdd_eq hbound,hopen]
  by_cases hzero : r.window = 0
  · simp [hzero]
  · have hpos : 0 < r.window ∧ (!false) = true := ⟨Nat.pos_of_ne_zero hzero,rfl⟩
    split_ifs <;> rfl

theorem Granted.read {n c : Nat} (h : r.Granted) (hread : AfterRead r n r') :
    (Streams.replenishStream { r' with connFcCredited := c }).Granted := by
  set q : RecvStream := { r' with connFcCredited := c } with hq
  obtain ⟨hrest,hle⟩ := replenishStream_rest q
  have hannounced : q.maxDataAnnounced ≤ q.maxData := by
    change r'.maxDataAnnounced ≤ r'.maxData
    rw [hread.rest]
    exact h.announced_le
  constructor
  · rw [hrest]
    exact hannounced.trans hle
  · intro hopen hwindow hbound
    have hopen' : q.isReset = false := by rwa [hrest] at hopen
    have hwindow' : 2 ≤ q.window := by rwa [hrest] at hwindow
    have hbound' : q.readOff + q.window < u64Bound := by rwa [hrest] at hbound
    have hsame : (Streams.replenishStream q).readOff = q.readOff := by rw [hrest]
    rw [hsame,maxData_replenishStream hopen' hbound']
    apply lt_grant hwindow' hannounced
    omega

theorem Granted.move {g : Guard} (h : r.Granted) (hmove : RecvMove g r r') : r'.Granted := by
  cases hmove with
  | flag hflag => exact h.flag hflag
  | @data offset data fin n recv' hguard hdata c =>
    obtain ⟨hout,hreset⟩ := onData_outline hdata
    have hannounced : recv'.maxDataAnnounced = r.maxDataAnnounced :=
      (congrArg RecvStream.maxDataAnnounced hout :)
    have hmax : recv'.maxData = r.maxData := (congrArg RecvStream.maxData hout :)
    have hwindow : recv'.window = r.window := (congrArg RecvStream.window hout :)
    have hread : recv'.readOff = r.readOff := (congrArg RecvStream.readOff hout :)
    constructor
    · rw [hannounced,hmax]
      exact h.announced_le
    · change recv'.isReset = false → 2 ≤ recv'.window → recv'.readOff + recv'.window < u64Bound →
        recv'.readOff < recv'.maxData
      rw [hreset,hwindow,hread,hmax]
      exact h.granted
  | @reset code finalSize recv' hguard hreset c =>
    rcases r.onReset_cases code finalSize with ⟨e,heq⟩ | ⟨-,-,-,-,⟨-,heq⟩ | ⟨-,heq⟩⟩ <;> rw [hreset] at heq
    · cases heq
    · cases heq
      exact ⟨h.announced_le,h.granted⟩
    · cases heq
      exact ⟨h.announced_le,nofun⟩
  | read hread => exact h.read (afterRead hread)
end RecvStream
namespace Streams
/-- The connection's limit stays ahead of what was consumed. -/
structure Granted (s : Streams) : Prop where
  announced_le : s.connRecvMaxAnnounced ≤ s.connRecvMax
  granted : 2 ≤ s.connRecvWindow → s.connConsumed + s.connRecvWindow < u64Bound →
    s.connConsumed < s.connRecvMax

/-- The connection's credit and its limits. -/
def limits (s : Streams) : Nat × Nat × Nat × Nat :=
  (s.connRecvMaxAnnounced, s.connRecvMax, s.connConsumed, s.connRecvWindow)
section Steps
variable {s s' : Streams} {n : Nat}
theorem Granted.congr (h : Granted s) (hlimits : s'.limits = s.limits) : Granted s' := by
  have hannounced : s'.connRecvMaxAnnounced = s.connRecvMaxAnnounced := congrArg Prod.fst hlimits
  have hmax : s'.connRecvMax = s.connRecvMax := congrArg (fun l => l.2.1) hlimits
  have hconsumed : s'.connConsumed = s.connConsumed := congrArg (fun l => l.2.2.1) hlimits
  have hwindow : s'.connRecvWindow = s.connRecvWindow := congrArg (fun l => l.2.2.2) hlimits
  constructor
  · rw [hannounced,hmax]
    exact h.announced_le
  · rw [hwindow,hconsumed,hmax]
    exact h.granted

theorem connRecvMax_maybeReplenishConn (hbound : s.connConsumed + s.connRecvWindow < u64Bound) :
    s.maybeReplenishConn.connRecvMax = grant s.connRecvWindow s.connRecvMaxAnnounced s.connRecvMax
      s.connConsumed (s.connConsumed + s.connRecvWindow) := by
  have hhalf : s.connConsumed + s.connRecvWindow / 2 < u64Bound :=
    lt_of_le_of_lt (Nat.add_le_add_left (Nat.div_le_self _ _) _) hbound
  rw [grant_eq_ite]
  simp only [maybeReplenishConn]
  rw [replenishThreshold_eq,wrappingAdd_eq hhalf,saturatingAdd_eq hbound]
  split_ifs <;> rfl

theorem Granted.consume (h : Granted s) (n : Nat) : Granted (s.consume n) := by
  have hrest := consume_rest s n
  have hannounced := h.announced_le.trans (connRecvMax_consume s n).1
  constructor
  · have hsame : (s.consume n).connRecvMaxAnnounced = s.connRecvMaxAnnounced := by rw [hrest]
    rw [hsame]
    exact hannounced
  · intro hwindow hbound
    have hconsumed : (s.consume n).connConsumed = saturatingAdd s.connConsumed n := by rw [hrest]
    have hwin : (s.consume n).connRecvWindow = s.connRecvWindow := by rw [hrest]
    rw [hwin] at hwindow
    rw [hconsumed,hwin] at hbound
    rw [hconsumed,Streams.consume,connRecvMax_maybeReplenishConn hbound]
    apply lt_grant hwindow h.announced_le
    change saturatingAdd s.connConsumed n < saturatingAdd s.connConsumed n + s.connRecvWindow
    omega

theorem limits_charge (s : Streams) (id high newHigh : Nat) : (s.charge id high newHigh).limits = s.limits := by
  unfold charge
  split_ifs <;> rfl

theorem limits_refreshReadable (s : Streams) (id : Nat) : (s.refreshReadable id).limits = s.limits := by
  unfold refreshReadable
  split_ifs <;> rfl

theorem Granted.accepts (h : Granted s) {id high newHigh : Nat} {recv : RecvStream}
    (ha : Accepts s id high newHigh recv s') : Granted (s'.refreshReadable id) := by
  have hcharged := h.congr (limits_charge s id high newHigh)
  apply Granted.congr _ (limits_refreshReadable _ _)
  cases ha with
  | kept c => exact hcharged.congr rfl
  | credited c n =>
    apply Granted.consume
    exact hcharged.congr rfl

theorem Granted.change {g : Guard} (h : Granted s) (hc : Change g s s') : Granted s' := by
  cases hc with
  | admin hcore => exact h.congr (congrArg limits hcore :)
  | announceConn => exact ⟨le_refl _,h.granted⟩
  | announceStreams dir =>
    apply h.congr
    cases dir <;> rfl
  | openLocal dir hfresh =>
    apply h.congr
    cases dir <;> rfl
  | openRemote id hpeer hnew hopen hmax =>
    apply h.congr
    unfold openRemote
    cases dirOf id <;> rfl
  | wake id =>
    rw [enqueueReady_rest]
    exact h.congr rfl
  | frame hget hguard hdata hend hnew hroom =>
    exact h.accepts (accepts_acceptFrame _ _ _ _ _)
  | peerReset hget hguard hreset hhigh hnew hroom =>
    exact h.accepts (accepts_acceptReset _ _ _ _ _ _)
  | read hget hread hgrant hready =>
    apply Granted.congr _ (limits_refreshReadable _ _)
    apply Granted.consume
    exact h.congr rfl
  | @reap id stream hpeer hget hend =>
    apply h.congr
    rw [reap_rest]
    rfl
  | _ => exact h.congr rfl
end Steps
/-- In every state the peer can be granted more once everything it was granted is used up and
consumed, for every window of at least two units that stays clear of the `u64` boundary. -/
theorem credit_never_stuck (role : Role) (our peer : TransportParameters) (ops : List StreamsOp) :
    let s := Trace.run step (Streams.new role our peer) ops
    (∀ dir, 2 ≤ (s.peerStreams dir).window → (s.peerStreams dir).closed < maxStreamsLimit →
      (s.peerStreams dir).closed < (s.peerStreams dir).selfMax) ∧
    (2 ≤ s.connRecvWindow → s.connConsumed + s.connRecvWindow < u64Bound →
      s.connConsumed < s.connRecvMax) ∧
    ∀ id recv, s.recvHalf id = some recv → recv.isReset = false → 2 ≤ recv.window →
      recv.readOff + recv.window < u64Bound → recv.readOff < recv.maxData := by
  intro s
  have hconn : Granted s := by
    apply invariant_run (fun _ _ hs hc => hs.change hc) (allows_any _ ops)
    exact ⟨le_refl _,fun hwindow _ => lt_of_lt_of_le Nat.zero_lt_two hwindow⟩
  have hchange : ∀ t t', EveryRecv RecvStream.Granted t → Change .any t t' →
      EveryRecv RecvStream.Granted t' := by
    intro t t' ht hc
    exact ht.change RecvStream.Granted.new (fun _ _ hr hm => hr.move hm) hc
  have hrecv : EveryRecv RecvStream.Granted s :=
    invariant_run hchange (allows_any _ ops) (everyRecv_new _ role our peer)
  have hbooks : Accounted s := (Accounted.new role our peer).run ops
  refine ⟨?_,hconn.granted,?_⟩
  · intro dir
    exact (hbooks.books dir).bounded.granted
  · intro id recv hget
    exact (hrecv id recv hget).granted

/-- With windows of two units, a peer that has used up everything is granted more. -/
theorem credit_never_stuck_two :
    let s := Trace.run step (Streams.new .server (.uniform 2 2) (.uniform 0 0))
      [.onStream 0 0 false [7, 8], .read 0 2, .onStream 2 0 true [], .read 2 1,
        .onStream 6 0 true [], .read 6 1]
    s.uni.closed < s.uni.selfMax ∧ s.connConsumed < s.connRecvMax ∧
      ∃ recv, s.recvHalf 0 = some recv ∧ recv.readOff < recv.maxData := by
  intro s
  obtain ⟨hstreams,hconn,hrecv⟩ := credit_never_stuck .server (.uniform 2 2) (.uniform 0 0)
    [.onStream 0 0 false [7, 8], .read 0 2, .onStream 2 0 true [], .read 2 1,
      .onStream 6 0 true [], .read 6 1]
  exact ⟨hstreams .uni (by decide) (by decide),hconn (by decide) (by decide),
    (s.recvHalf 0).get (by decide),(Option.some_get _).symm,
    hrecv 0 _ (Option.some_get _).symm (by decide) (by decide) (by decide)⟩

/-- With windows of one unit nothing is granted any more after the first stream and byte. -/
theorem credit_stuck :
    let s := Trace.run step (Streams.new .server (.uniform 1 1) (.uniform 0 0))
      [.onStream 2 0 true [], .read 2 1, .onStream 0 0 false [7], .read 0 1]
    (s.uni.window = 1 ∧ s.uni.closed = 1 ∧ s.uni.selfMax = 1) ∧
      (s.connRecvWindow = 1 ∧ s.connConsumed = 1 ∧ s.connRecvMax = 1) ∧
      (s.recvHalf 0).map (fun recv => (recv.state, recv.window, recv.readOff, recv.maxData)) =
        some (.recv, 1, 1, 1) := by
  decide
end Streams
end PureCrypto.Quic
