import PureCrypto.Quic.PeerSlots
import PureCrypto.Quic.StreamHalves

/-! # Receive credit of the connection -/
namespace PureCrypto.Quic
open Fragments List
namespace RecvStream
theorem Buffered.new (n : Nat) : (RecvStream.new n).Buffered 0 where
  tidy := .empty
  above := fun x hx => (not_held_empty x hx).elim
  below := fun x hx => (not_held_empty x hx).elim
  next_le := le_refl 0
  bytes := rfl
  few := Nat.zero_le _
variable {r : RecvStream} {high offset : Nat} {fin : Bool}
theorem Buffered.next_add_pendingBytes_le (h : r.Buffered high) : r.nextOffset + r.pendingBytes ≤ high := by
  have hle := h.tidy.totalLength_le h.next_le (fun x hx => ⟨le_of_lt (h.above x hx),h.below x hx⟩)
  rw [h.bytes]
  omega

theorem absorb_released (r : RecvStream) : (r.absorb r.pending.entries).delivered.length + r.nextOffset =
      r.delivered.length + (r.absorb r.pending.entries).nextOffset := by
  apply absorb_induction
    (P := fun q => q.delivered.length + r.nextOffset = r.delivered.length + q.nextOffset)
  · intro q pOff frag _ _ h
    exact h
  · simp only [length_append,length_drop]
    omega
  · rfl

theorem place_released (r : RecvStream) (offset : Nat) (data : List UInt8) (fin : Bool)
    (frameEnd : Nat) : (r.place offset data fin frameEnd).2.delivered.length + r.nextOffset =
      r.delivered.length + (r.place offset data fin frameEnd).2.nextOffset := by
  cases hstop : r.stopSendingSent with
  | true => simp [place,hstop]
  | false =>
    rcases place_cases offset data fin frameEnd hstop with ⟨-,heq⟩ | ⟨-,-,heq⟩ | ⟨-,heq⟩
    · rw [heq]
    · rw [heq,settleFin_rest]
      have h := absorb_released { r with
        delivered := r.delivered ++ data.drop (r.nextOffset - offset)
        nextOffset := r.nextOffset + (data.drop (r.nextOffset - offset)).length }
      simp only [length_append] at h
      simp only [appendInOrder]
      omega
    · rw [heq,settleFin_rest,storeOutOfOrder_rest]

/-- The charge and the credit of one receive half. -/
structure Credited (r : RecvStream) (high : Nat) : Prop where
  buffered : r.Buffered high
  limit : high ≤ r.maxData
  released : r.isReset = false → r.readOff + r.delivered.length = r.nextOffset
  held : r.connFcCredited + r.delivered.length + r.pendingBytes ≤ high
  reading : r.isReset = false → r.stopSendingSent = false → r.connFcCredited = r.readOff
  ended : r.isReset = true → r.delivered = [] ∧ r.connFcCredited = high ∧ r.finOffset = some high

theorem Credited.new (n : Nat) : (RecvStream.new n).Credited 0 where
  buffered := .new n
  limit := Nat.zero_le n
  released := fun _ => rfl
  held := le_refl 0
  reading := fun _ _ => rfl
  ended := nofun

theorem Credited.flag {r' : RecvStream} (h : r.Credited high) (hmove : RecvFlag r r') : r'.Credited high := by
  have hb := h.buffered
  cases hmove with
  | stop code =>
    exact ⟨hb.congr rfl rfl rfl,h.limit,h.released,h.held,nofun,h.ended⟩
  | _ => exact ⟨hb.congr rfl rfl rfl,h.limit,h.released,h.held,h.reading,h.ended⟩

theorem onData_ok_lt {r' : RecvStream} {n : Nat} {data : List UInt8}
    (h : r.onData offset data fin = (.ok n, r')) : offset + data.length < u64Bound := by
  unfold onData at h
  cases hadd : checkedAdd offset data.length with
  | none =>
    rw [hadd] at h
    cases h
  | some frameEnd => exact (checkedAdd_eq_some hadd).2

/-- An accepted frame changes the buffer, the state and the final size only. -/
theorem onData_outline {r' : RecvStream} {n : Nat} {data : List UInt8}
    (h : r.onData offset data fin = (.ok n, r')) :
    r'.outline = ({ r with finOffset := r'.finOffset } : RecvStream).outline ∧
      r'.isReset = r.isReset := by
  rcases r.onData_cases offset data fin with ⟨e,heq⟩ | ⟨hreset,heq,-⟩ | ⟨hreset,-,heq⟩ <;> rw [h] at heq
  · cases heq
  · obtain ⟨-,rfl⟩ := Prod.mk.inj heq
    exact ⟨rfl,rfl⟩
  · obtain ⟨-,rfl⟩ := Prod.mk.inj heq
    set q := r.noteFin fin (offset + data.length) with hq
    have hnote : q = { r with finOffset := q.finOffset } := r.noteFin_rest fin _
    obtain ⟨hout,hstate⟩ := place_outline q offset data fin (offset + data.length)
    have hfin : (q.place offset data fin (offset + data.length)).2.finOffset = q.finOffset :=
      (congrArg RecvStream.finOffset hout :)
    constructor
    · rw [hout,hfin,← hnote]
    · have hq' : q.state = r.state := by rw [hnote]
      rw [hreset,isReset]
      rw [isReset] at hreset
      rcases hstate with hst | hst | hst
      · rw [hst,hq',hreset]
      all_goals
        rw [hst]
        rfl

/-- The bytes of a stream nobody reads any more are credited at once. -/
theorem Credited.data {r' : RecvStream} {n c : Nat} {data : List UInt8}
    (h : r.Credited high) (hdata : r.onData offset data fin = (.ok n, r'))
    (hc : c = r.connFcCredited + if r.stopSendingSent then offset + data.length - high else 0) :
    ({ r' with connFcCredited := c } : RecvStream).Credited (max high (offset + data.length)) := by
  obtain ⟨hout,hsame⟩ := onData_outline hdata
  rcases r.onData_cases offset data fin with ⟨e,heq⟩ | ⟨hreset,heq,hfinal⟩ | ⟨hreset,hacc,heq⟩ <;>
    rw [hdata] at heq
  · cases heq
  · obtain ⟨-,rfl⟩ := Prod.mk.inj heq
    have hend := hfinal high (h.ended hreset).2.2
    have hzero : offset + data.length - high = 0 := by omega
    rw [hzero,ite_self] at hc
    rw [hc,max_eq_left hend]
    exact h
  · obtain ⟨-,hr'⟩ := Prod.mk.inj heq
    have hread : r'.readOff = r.readOff := (congrArg RecvStream.readOff hout :)
    have hmax : r'.maxData = r.maxData := (congrArg RecvStream.maxData hout :)
    have hstop : r'.stopSendingSent = r.stopSendingSent :=
      (congrArg RecvStream.stopSendingSent hout :)
    have hbound : max high (offset + data.length) ≤ r.maxData := max_le h.limit hacc.credit
    -- the frame is placed once its FIN is noted
    set q := r.noteFin fin (offset + data.length) with hq
    have hnote : q = { r with finOffset := q.finOffset } := r.noteFin_rest fin _
    have hrel := place_released q offset data fin (offset + data.length)
    have hnext : q.nextOffset = r.nextOffset := by rw [hnote]
    have hdel : q.delivered = r.delivered := by rw [hnote]
    have hqstop : q.stopSendingSent = r.stopSendingSent := by rw [hnote]
    have hqmax : q.maxData = r.maxData := by rw [hnote]
    have hqb : q.Buffered high := h.buffered.congr hnext (by rw [hnote]) (by rw [hnote])
    rw [← hr',hdel] at hrel
    have hreleased := h.released hreset
    have hended : ({ r' with connFcCredited := c }).isReset = true → False := by
      intro htrue
      change r'.isReset = true at htrue
      rw [hsame,hreset] at htrue
      cases htrue
    cases hs : r.stopSendingSent with
    | true =>
      have hplace : r' = q := by
        rw [hr',place,if_pos (hqstop.trans hs)]
      have hheld := h.held
      rw [hs,if_pos rfl] at hc
      refine ⟨?_,hmax ▸ hbound,?_,?_,?_,fun ht => (hended ht).elim⟩
      · rw [hplace]
        exact (hqb.mono (le_max_left _ _)).congr rfl rfl rfl
      · intro _
        change r'.readOff + r'.delivered.length = r'.nextOffset
        omega
      · change c + r'.delivered.length + r'.pendingBytes ≤ _
        have hpend : r'.pendingBytes = r.pendingBytes := by rw [hplace,hnote]
        have hdel' : r'.delivered = r.delivered := by rw [hplace,hdel]
        rw [hdel']
        omega
      · intro _ hfalse
        rw [hstop,hs] at hfalse
        cases hfalse
    | false =>
      have hb : r'.Buffered (max high (offset + data.length)) := by
        rw [hr']
        exact (place_placed fin hqb (hqmax ▸ hbound) (hqstop.trans hs)).buffered
      have hle := hb.next_add_pendingBytes_le
      have hcred := h.reading hreset hs
      rw [hs,if_neg Bool.false_ne_true,add_zero] at hc
      refine ⟨hb.congr rfl rfl rfl,hmax ▸ hbound,?_,?_,?_,fun ht => (hended ht).elim⟩
      · intro _
        change r'.readOff + r'.delivered.length = r'.nextOffset
        omega
      · change c + r'.delivered.length + r'.pendingBytes ≤ _
        omega
      · intro _ _
        rw [hc,hread,hcred]

theorem Credited.reset {r' : RecvStream} {code finalSize c : Nat} (h : r.Credited high)
    (hreset : r.onReset code finalSize = (.ok (), r')) (hhigh : high ≤ finalSize)
    (hc : c = r.connFcCredited + if r.isReset then 0 else finalSize - r.connFcCredited) :
    ({ r' with connFcCredited := c } : RecvStream).Credited finalSize := by
  have hheld := h.held
  rcases r.onReset_cases code finalSize with ⟨e,heq⟩ | ⟨hnext,hmax,-,hfinal,hcase⟩
  · rw [hreset] at heq
    cases heq
  · rcases hcase with ⟨hwas,heq⟩ | ⟨hwas,heq⟩ <;> rw [hreset] at heq
    · obtain ⟨-,rfl⟩ := Prod.mk.inj heq
      have hsize := hfinal high (h.ended hwas).2.2
      rw [hwas] at hc
      rw [hc,← hsize]
      exact h
    · obtain ⟨-,rfl⟩ := Prod.mk.inj heq
      have hfull : c = finalSize := by
        rw [hwas,if_neg Bool.false_ne_true] at hc
        omega
      refine ⟨?_,hmax,nofun,?_,nofun,?_⟩
      · exact ⟨.empty,fun x hx => (not_held_empty x hx).elim,
          fun x hx => (not_held_empty x hx).elim,hnext,rfl,Nat.zero_le _⟩
      · exact le_of_eq hfull
      · intro _
        exact ⟨rfl,hfull,rfl⟩

theorem replenishStream_rest (r : RecvStream) :
    Streams.replenishStream r = { r with
      maxData := (Streams.replenishStream r).maxData
      maxDataPending := (Streams.replenishStream r).maxDataPending } ∧
    r.maxData ≤ (Streams.replenishStream r).maxData := by
  simp only [Streams.replenishStream]
  split_ifs with hopen hlow hraise
  · exact ⟨rfl,le_of_lt hraise⟩
  all_goals exact ⟨rfl,le_refl _⟩

theorem Credited.replenish (h : r.Credited high) : (Streams.replenishStream r).Credited high := by
  obtain ⟨hrest,hle⟩ := replenishStream_rest r
  rw [hrest]
  exact ⟨h.buffered.congr rfl rfl rfl,h.limit.trans hle,h.released,h.held,h.reading,h.ended⟩

theorem Credited.read {r' : RecvStream} {n : Nat} (h : r.Credited high)
    (hread : AfterRead r n r') :
    ({ r' with connFcCredited := r.connFcCredited + n } : RecvStream).Credited high := by
  have hreset := hread.isReset_eq
  obtain ⟨hle,hrest,-⟩ := hread
  have hheld := h.held
  have hdel : r'.delivered = r.delivered.drop n := by rw [hrest]
  have hoff : r'.readOff = r.readOff + n := by rw [hrest]
  have hnext : r'.nextOffset = r.nextOffset := by rw [hrest]
  have hbytes : r'.pendingBytes = r.pendingBytes := by rw [hrest]
  have hlen : r'.delivered.length = r.delivered.length - n := by rw [hdel,length_drop]
  refine ⟨h.buffered.congr hnext (by rw [hrest]) hbytes,?_,?_,?_,?_,?_⟩
  · rw [hrest]
    exact h.limit
  · intro hopen
    have hreleased := h.released (hreset ▸ hopen)
    change r'.readOff + r'.delivered.length = r'.nextOffset
    omega
  · change r.connFcCredited + n + r'.delivered.length + r'.pendingBytes ≤ high
    omega
  · intro hopen hstop
    have hwas : r.stopSendingSent = false := by rwa [hrest] at hstop
    have hcred := h.reading (hreset ▸ hopen) hwas
    change r.connFcCredited + n = r'.readOff
    omega
  · intro htrue
    obtain ⟨hempty,hcred,hfin⟩ := h.ended (hreset ▸ htrue)
    rw [hempty] at hle
    have hzero : n = 0 := Nat.le_zero.mp hle
    refine ⟨?_,?_,?_⟩
    · rw [hdel,hempty,drop_nil]
    · rw [hzero,hcred]
      rfl
    · rw [hrest]
      exact hfin
end RecvStream
namespace Streams
def retiredIds (s : Streams) : List Nat := s.history.retired.map Prod.fst

/-- The highest offset or final size accepted on stream `id`. -/
def acceptedUpTo (s : Streams) (id : Nat) : Nat := (s.history.accepted.get? id).getD 0

def acceptedTotal (s : Streams) : Nat := s.history.accepted.sum (fun _ high => high)
def creditedBytes (stream : Stream) : Nat := (stream.recv.map RecvStream.connFcCredited).getD 0

/-- Bytes delivered and not read, and out-of-order bytes. -/
def bufferedBytes (stream : Stream) : Nat :=
  (stream.recv.map (fun recv => recv.delivered.length + totalLength recv.pending)).getD 0

/-- What the receive halves show agrees with what was accepted. -/
structure Recorded (s : Streams) : Prop where
  distinct : (s.map.keys ++ s.retiredIds).Nodup
  credited : ∀ id recv, s.recvHalf id = some recv → recv.Credited (s.acceptedUpTo id)
  high : ∀ id, id ∉ s.retiredIds → (s.streamHighOffset.get? id).getD 0 = s.acceptedUpTo id
  known : ∀ id, id ∉ s.map.keys → id ∉ s.retiredIds → s.acceptedUpTo id = 0
  retired : ∀ e ∈ s.history.retired, creditedBytes e.2 + bufferedBytes e.2 ≤ s.acceptedUpTo e.1
  used : s.connRecvUsed = s.acceptedTotal

/-- The connection's totals are exact and within the window. -/
structure Metered (s : Streams) : Prop extends Recorded s where
  consumed : s.connConsumed = total creditedBytes s
  used_le : s.connRecvUsed ≤ s.connRecvMax
  max_le : s.connRecvMax ≤ s.connConsumed + s.connRecvWindow

/-- The fields the records consist of, besides the streams. -/
structure Meter where
  streamHighOffset : SortedMap Nat Nat
  accepted : SortedMap Nat Nat
  retired : List (Nat × Stream)
  connRecvUsed : Nat
  connRecvMax : Nat
  connConsumed : Nat
  connRecvWindow : Nat

def meter (s : Streams) : Meter where
  streamHighOffset := s.streamHighOffset
  accepted := s.history.accepted
  retired := s.history.retired
  connRecvUsed := s.connRecvUsed
  connRecvMax := s.connRecvMax
  connConsumed := s.connConsumed
  connRecvWindow := s.connRecvWindow
section Records
variable {s s' : Streams} {id n : Nat} {stream : Stream} {recv recv' : RecvStream}
theorem Metered.congr (h : Metered s) (hkeys : s'.map.keys = s.map.keys)
    (hhalf : ∀ id, s'.recvHalf id = s.recvHalf id)
    (htotal : total creditedBytes s' = total creditedBytes s) (hmeter : s'.meter = s.meter) : Metered s' := by
  obtain ⟨hhigh,haccepted,hretired,hused,hmax,hconsumed,hwindow⟩ := Meter.mk.inj hmeter
  refine ⟨⟨?_,?_,?_,?_,?_,?_⟩,?_,?_,?_⟩
  all_goals simp only [hkeys,hhalf,htotal,hhigh,hused,hmax,hconsumed,hwindow,acceptedUpTo,
    acceptedTotal,retiredIds,haccepted,hretired]
  exacts [h.distinct, h.credited, h.high, h.known, h.retired, h.used, h.consumed, h.used_le, h.max_le]

theorem Metered.of_map (h : Metered s) (hmap : s'.map = s.map) (hmeter : s'.meter = s.meter) : Metered s' := by
  apply h.congr (by rw [hmap]) _ (total_congr hmap (congrArg Meter.retired hmeter)) hmeter
  intro id
  rw [recvHalf,hmap,recvHalf]

/-- What a live stream holds or has given back was accepted on it. -/
theorem Recorded.live_le (h : Recorded s) (hget : s.map.get? id = some stream) :
    creditedBytes stream + bufferedBytes stream ≤ s.acceptedUpTo id := by
  cases hrecv : stream.recv with
  | none => simp [creditedBytes,bufferedBytes,hrecv]
  | some recv =>
    have hc := h.credited id recv (recvHalf_eq_some_iff.mpr ⟨stream,hget,hrecv⟩)
    have hheld := hc.held
    rw [hc.buffered.bytes,add_assoc] at hheld
    simpa [creditedBytes,bufferedBytes,hrecv] using hheld

/-- What all streams ever opened hold or have given back was accepted. -/
theorem Recorded.total_le (h : Recorded s) : total creditedBytes s + total bufferedBytes s ≤ s.acceptedTotal := by
  have hlive : s.map.sum (fun _ stream => creditedBytes stream + bufferedBytes stream) ≤
      (s.map.keys.map s.acceptedUpTo).sum := by
    rw [← s.map.sum_key s.acceptedUpTo]
    apply s.map.sum_le_sum
    intro id stream hget
    exact h.live_le hget
  have hretired : (s.history.retired.map (fun e => creditedBytes e.2 + bufferedBytes e.2)).sum ≤
      (s.retiredIds.map s.acceptedUpTo).sum := by
    rw [retiredIds,List.map_map]
    apply List.sum_le_sum
    intro e he
    exact h.retired e he
  calc total creditedBytes s + total bufferedBytes s
      = total (fun stream => creditedBytes stream + bufferedBytes stream) s :=
        (total_add creditedBytes bufferedBytes s).symm
    _ ≤ (s.map.keys.map s.acceptedUpTo).sum + (s.retiredIds.map s.acceptedUpTo).sum :=
        Nat.add_le_add hlive hretired
    _ = ((s.map.keys ++ s.retiredIds).map s.acceptedUpTo).sum := by
        rw [map_append,List.sum_append]
    _ ≤ s.acceptedTotal := s.history.accepted.sum_getD_le h.distinct

theorem Recorded.setRecv (h : Recorded s) (hget : s.recvHalf id = some recv)
    (hcred : recv'.Credited (s.acceptedUpTo id)) : Recorded (s.setRecv id recv') := by
  have hkeys : (s.setRecv id recv').map.keys = s.map.keys := s.map.keys_modify id _
  refine ⟨?_,?_,h.high,?_,h.retired,h.used⟩
  · rw [hkeys]
    exact h.distinct
  · intro j r hj
    rw [recvHalf_setRecv hget] at hj
    split_ifs at hj with heq
    · cases hj
      rw [heq]
      exact hcred
    · exact h.credited j r hj
  · rw [hkeys]
    exact h.known

theorem Recorded.notMem_retiredIds (h : Recorded s) (hget : s.map.get? id = some stream) : id ∉ s.retiredIds := by
  intro hmem
  have hkey : id ∈ s.map.keys := (s.map.mem_keys_iff id).mpr ⟨stream,hget⟩
  exact (nodup_append.mp h.distinct).2.2 id hkey id hmem rfl

theorem total_creditedBytes_setRecv (hget : s.recvHalf id = some recv)
    (hmap : s'.map = (s.setRecv id recv').map) (hretired : s'.history.retired = s.history.retired) :
    total creditedBytes s' + recv.connFcCredited = total creditedBytes s + recv'.connFcCredited := by
  obtain ⟨stream,hstream,hrecv⟩ := recvHalf_eq_some_iff.mp hget
  have hmod : total creditedBytes s' + creditedBytes stream = _ :=
    total_setRecv hstream hmap hretired
  have hold : creditedBytes stream = recv.connFcCredited := by simp [creditedBytes,hrecv]
  rw [hold] at hmod
  exact hmod

theorem charge_rest (s : Streams) (id high newHigh : Nat) : s.charge id high newHigh = { s with
    connRecvUsed := (s.charge id high newHigh).connRecvUsed
    streamHighOffset := (s.charge id high newHigh).streamHighOffset
    history := { s.history with
      accepted := s.history.accepted.insert id (max (s.acceptedUpTo id) high) } } := by
  unfold charge
  split_ifs <;> rfl

theorem acceptedTotal_charge_add (s : Streams) (id high newHigh : Nat) :
    (s.charge id high newHigh).acceptedTotal + s.acceptedUpTo id =
      s.acceptedTotal + max (s.acceptedUpTo id) high := by
  have hsum := s.history.accepted.sum_insert_getD id (max (s.acceptedUpTo id) high)
  rw [charge_rest]
  exact hsum
variable {high newHigh : Nat}
theorem acceptedTotal_charge (hnew : newHigh = high - s.acceptedUpTo id) :
    (s.charge id high newHigh).acceptedTotal = s.acceptedTotal + newHigh := by
  have hsum := acceptedTotal_charge_add s id high newHigh
  omega

theorem acceptedTotal_le_charge (s : Streams) (id high newHigh : Nat) :
    s.acceptedTotal ≤ (s.charge id high newHigh).acceptedTotal := by
  have hsum := acceptedTotal_charge_add s id high newHigh
  omega

theorem acceptedUpTo_charge (s : Streams) (id high newHigh j : Nat) :
    (s.charge id high newHigh).acceptedUpTo j =
      if j = id then max (s.acceptedUpTo id) high else s.acceptedUpTo j := by
  rw [acceptedUpTo,charge_rest]
  rw [s.history.accepted.get?_insert]
  split_ifs <;> rfl

theorem connRecvUsed_charge (h : s.connRecvUsed + newHigh < u64Bound) :
    (s.charge id high newHigh).connRecvUsed = s.connRecvUsed + newHigh := by
  unfold charge
  split_ifs with hpos
  · exact saturatingAdd_eq h
  · rw [Nat.eq_zero_of_not_pos hpos]
    rfl

theorem Recorded.high_charge (h : Recorded s) {j : Nat}
    (hnew : newHigh = high - s.acceptedUpTo id) (hj : j ∉ s.retiredIds) :
    ((s.charge id high newHigh).streamHighOffset.get? j).getD 0 = (s.charge id high newHigh).acceptedUpTo j := by
  have hold := h.high j hj
  rw [acceptedUpTo_charge]
  unfold charge
  by_cases hpos : 0 < newHigh
  · rw [if_pos hpos]
    rw [s.streamHighOffset.get?_insert]
    split_ifs with heq
    · rw [Option.getD_some]
      omega
    · exact hold
  · rw [if_neg hpos]
    change (s.streamHighOffset.get? j).getD 0 = _
    split_ifs with heq
    · rw [hold,heq]
      omega
    · exact hold

theorem Recorded.accept (h : Recorded s) (hget : s.recvHalf id = some recv)
    (hnew : newHigh = high - s.acceptedUpTo id) (hfits : s.acceptedTotal + newHigh < u64Bound)
    (hcred : recv'.Credited (max (s.acceptedUpTo id) high)) :
    Recorded ((s.charge id high newHigh).setRecv id recv') := by
  obtain ⟨stream,hstream,-⟩ := recvHalf_eq_some_iff.mp hget
  set t := s.charge id high newHigh with ht
  have hmap : t.map = s.map := map_charge s id high newHigh
  have hretired : t.history.retired = s.history.retired := by rw [ht,charge_rest]
  have hids : (t.setRecv id recv').retiredIds = s.retiredIds :=
    congrArg (List.map Prod.fst) hretired
  have hkeys : (t.setRecv id recv').map.keys = s.map.keys := hmap ▸ t.map.keys_modify id _
  have hup : ∀ j, (t.setRecv id recv').acceptedUpTo j = _ := acceptedUpTo_charge s id high newHigh
  have hother : ∀ j, j ≠ id → (t.setRecv id recv').acceptedUpTo j = s.acceptedUpTo j :=
    fun j hne => (hup j).trans (if_neg hne)
  refine ⟨?_,?_,?_,?_,?_,?_⟩
  · rw [hkeys,hids]
    exact h.distinct
  · intro j r hj
    rw [hup]
    rw [recvHalf,map_setRecv_congr hmap] at hj
    have hj : (s.setRecv id recv').recvHalf j = some r := hj
    rw [recvHalf_setRecv hget] at hj
    split_ifs at hj ⊢ with heq
    · cases hj
      exact hcred
    · exact h.credited j r hj
  · intro j hj
    exact h.high_charge hnew (hids ▸ hj)
  · intro j hj hj'
    rw [hkeys] at hj
    have hne : j ≠ id := by
      rintro rfl
      exact hj ((s.map.mem_keys_iff j).mpr ⟨stream,hstream⟩)
    exact (hother j hne).trans (h.known j hj (hids ▸ hj'))
  · intro e he
    have hold : e ∈ s.history.retired := hretired ▸ he
    have hne : e.1 ≠ id := by
      rintro rfl
      exact h.notMem_retiredIds hstream (List.mem_map_of_mem hold)
    exact (h.retired e hold).trans_eq (hother e.1 hne).symm
  · change t.connRecvUsed = t.acceptedTotal
    rw [connRecvUsed_charge (h.used ▸ hfits),acceptedTotal_charge hnew,h.used]

theorem connRecvMax_consume (s : Streams) (n : Nat) :
    s.connRecvMax ≤ (s.consume n).connRecvMax ∧ (s.consume n).connRecvMax ≤
      max s.connRecvMax (saturatingAdd s.connConsumed n + s.connRecvWindow) := by
  simp only [consume,maybeReplenishConn]
  split_ifs with hzero hlow hraise
  · exact ⟨le_refl _,le_max_left _ _⟩
  · exact ⟨le_of_lt hraise,le_max_of_le_right (min_le_left _ _)⟩
  all_goals exact ⟨le_refl _,le_max_left _ _⟩

theorem Metered.keep (h : Metered s) (h' : Recorded s') (hused : s'.connRecvUsed ≤ s'.connRecvMax)
    (htotal : total creditedBytes s' = total creditedBytes s)
    (hmax : s'.connRecvMax = s.connRecvMax) (hconsumed : s'.connConsumed = s.connConsumed)
    (hwindow : s'.connRecvWindow = s.connRecvWindow) : Metered s' := by
  refine ⟨h',?_,hused,?_⟩
  · rw [hconsumed,htotal,h.consumed]
  · rw [hmax,hconsumed,hwindow]
    exact h.max_le

/-- The receive halves have been credited with `n` bytes more, and the connection follows. -/
theorem Metered.consume (h : Metered s) (h' : Recorded s') (hfits : s'.acceptedTotal < u64Bound)
    (hused : s'.connRecvUsed ≤ s'.connRecvMax) (htotal : total creditedBytes s' = total creditedBytes s + n)
    (hmax : s'.connRecvMax = s.connRecvMax) (hconsumed : s'.connConsumed = s.connConsumed)
    (hwindow : s'.connRecvWindow = s.connRecvWindow) : Metered (s'.consume n) := by
  have hle := h'.total_le
  have hexact : saturatingAdd s'.connConsumed n = s.connConsumed + n := by
    rw [hconsumed]
    apply saturatingAdd_eq
    rw [h.consumed]
    omega
  obtain ⟨hlow,hhigh⟩ := connRecvMax_consume s' n
  have hold := h.max_le
  have hrecorded : Recorded (s'.consume n) := by
    rw [consume_rest]
    exact ⟨h'.distinct,h'.credited,h'.high,h'.known,h'.retired,h'.used⟩
  refine ⟨hrecorded,?_,?_,?_⟩
  · rw [consume_rest]
    change saturatingAdd s'.connConsumed n = total creditedBytes s'
    rw [hexact,htotal,h.consumed]
  · have hsame : (s'.consume n).connRecvUsed = s'.connRecvUsed := by rw [consume_rest]
    rw [hsame]
    exact hused.trans hlow
  · have hcons : (s'.consume n).connConsumed = s.connConsumed + n := by
      rw [consume_rest]
      exact hexact
    have hwin : (s'.consume n).connRecvWindow = s.connRecvWindow := by
      rw [consume_rest]
      exact hwindow
    omega

theorem credit_eq (h : recv.connFcCredited + n < u64Bound) :
    credit recv n = { recv with connFcCredited := recv.connFcCredited + n } := by
  rw [credit,saturatingAdd_eq h]
theorem acceptedUpTo_le (s : Streams) (id : Nat) : s.acceptedUpTo id ≤ s.acceptedTotal := by
  have hle := s.history.accepted.sum_getD_le (nodup_singleton id)
  rwa [map_singleton] at hle

theorem charge_limits (s : Streams) (id high newHigh : Nat) : (s.charge id high newHigh).connRecvMax = s.connRecvMax ∧
      (s.charge id high newHigh).connConsumed = s.connConsumed ∧
      (s.charge id high newHigh).connRecvWindow = s.connRecvWindow := by
  rw [charge_rest]
  exact ⟨rfl,rfl,rfl⟩

/-- What was charged is within the limit, and the credit is that of the receive half. -/
theorem charged_totals (h : Recorded s) (hget : s.recvHalf id = some recv)
    (hnew : newHigh = high - s.acceptedUpTo id) (hfits : s.acceptedTotal + newHigh < u64Bound)
    (hroom : s.connRecvUsed + newHigh ≤ s.connRecvMax)
    (hcred : recv'.Credited (max (s.acceptedUpTo id) high)) :
    let s' := (s.charge id high newHigh).setRecv id recv'
    Recorded s' ∧ s'.acceptedTotal < u64Bound ∧ s'.connRecvUsed ≤ s'.connRecvMax ∧
      total creditedBytes s' + recv.connFcCredited =
        total creditedBytes s + recv'.connFcCredited := by
  intro s'
  have htotal : s'.acceptedTotal = s.acceptedTotal + newHigh := acceptedTotal_charge hnew
  have hmax : s'.connRecvMax = s.connRecvMax := (charge_limits s id high newHigh).1
  have hused : s'.connRecvUsed = s.connRecvUsed + newHigh := connRecvUsed_charge (h.used ▸ hfits)
  refine ⟨h.accept hget hnew hfits hcred,htotal ▸ hfits,?_,?_⟩
  · rwa [hused,hmax]
  · apply total_creditedBytes_setRecv hget
    · exact map_setRecv_congr (map_charge s id high newHigh) id recv'
    · change (s.charge id high newHigh).history.retired = s.history.retired
      rw [charge_rest]

theorem Metered.frame (h : Metered s) (hget : s.recvHalf id = some recv) {offset : Nat}
    {data : List UInt8} {fin : Bool} (hdata : recv.onData offset data fin = (.ok n, recv'))
    (hnew : newHigh = offset + data.length - s.acceptedUpTo id) (hfits : s.acceptedTotal + newHigh < u64Bound)
    (hroom : s.connRecvUsed + newHigh ≤ s.connRecvMax) :
    Metered (s.acceptFrame id (offset + data.length) newHigh recv') := by
  have hc := h.credited id recv hget
  obtain ⟨hout,-⟩ := RecvStream.onData_outline hdata
  have hstop : recv'.stopSendingSent = recv.stopSendingSent :=
    (congrArg RecvStream.stopSendingSent hout :)
  have hsame : recv'.connFcCredited = recv.connFcCredited :=
    (congrArg RecvStream.connFcCredited hout :)
  obtain ⟨hmax,hcons,hwin⟩ := charge_limits s id (offset + data.length) newHigh
  have hup := acceptedUpTo_le s id
  have hheld := hc.held
  by_cases hdiscard : recv.stopSendingSent = true ∧ 0 < newHigh
  · have hcredit : credit recv' newHigh =
        { recv' with connFcCredited := recv.connFcCredited + newHigh } := by
      rw [credit_eq (by omega),hsame]
    have hcred := hc.data hdata (c := recv.connFcCredited + newHigh)
      (by rw [if_pos hdiscard.1,hnew])
    obtain ⟨hrec,hlt,hle,htotal⟩ := charged_totals h.toRecorded hget hnew hfits hroom hcred
    simp only [acceptFrame]
    rw [if_pos (hstop ▸ hdiscard),hcredit]
    apply h.consume hrec hlt hle _ hmax hcons hwin
    simp only at htotal
    omega
  · have hcred := hc.data hdata (c := recv.connFcCredited) (by
      split_ifs with hs
      · have hzero : ¬0 < newHigh := fun hpos => hdiscard ⟨hs,hpos⟩
        omega
      · rfl)
    rw [← hsame] at hcred
    obtain ⟨hrec,hlt,hle,htotal⟩ := charged_totals h.toRecorded hget hnew hfits hroom hcred
    simp only [acceptFrame]
    rw [if_neg (hstop ▸ hdiscard)]
    apply h.keep hrec hle _ hmax hcons hwin
    simp only at htotal
    omega

theorem Metered.peerReset (h : Metered s) (hget : s.recvHalf id = some recv) {code finalSize : Nat}
    (hreset : recv.onReset code finalSize = (.ok (), recv')) (hhigh : s.acceptedUpTo id ≤ finalSize)
    (hnew : newHigh = finalSize - s.acceptedUpTo id) (hfits : s.acceptedTotal + newHigh < u64Bound)
    (hroom : s.connRecvUsed + newHigh ≤ s.connRecvMax) :
    Metered (s.acceptReset id finalSize newHigh recv.isReset recv') := by
  have hc := h.credited id recv hget
  have hsame : recv'.connFcCredited = recv.connFcCredited := by
    rcases recv.onReset_cases code finalSize with ⟨e,heq⟩ | ⟨-,-,-,-,⟨-,heq⟩ | ⟨-,heq⟩⟩
    all_goals
      rw [hreset] at heq
      cases heq
      try rfl
  obtain ⟨hmax,hcons,hwin⟩ := charge_limits s id finalSize newHigh
  have hup := acceptedUpTo_le s id
  have hheld := hc.held
  generalize hd : (if recv.isReset then 0 else finalSize - recv.connFcCredited) = d
  have hcredit : credit recv' d = { recv' with connFcCredited := recv.connFcCredited + d } := by
    rw [credit_eq,hsame]
    rw [← hd]
    split_ifs <;> omega
  have hcred : ({ recv' with connFcCredited := recv.connFcCredited + d }).Credited
      (max (s.acceptedUpTo id) finalSize) := by
    rw [max_eq_right hhigh]
    exact hc.reset hreset hhigh (by rw [hd])
  obtain ⟨hrec,hlt,hle,htotal⟩ := charged_totals h.toRecorded hget hnew hfits hroom hcred
  have htotal : _ + recv.connFcCredited = _ + (recv.connFcCredited + d) := htotal
  simp only [acceptReset]
  rw [hsame,hd,hcredit]
  cases hwas : recv.isReset with
  | true =>
    have hzero : d = 0 := by rw [← hd,hwas,if_pos rfl]
    apply h.keep hrec hle _ hmax hcons hwin
    omega
  | false =>
    apply h.consume hrec hlt hle _ hmax hcons hwin
    omega

theorem Metered.read (h : Metered s) (hfits : s.acceptedTotal < u64Bound)
    (hget : s.recvHalf id = some recv) (hread : RecvStream.AfterRead recv n recv') :
    Metered ((s.setRecv id (replenishStream (credit recv' n))).consume n) := by
  have hc := h.credited id recv hget
  have hup := acceptedUpTo_le s id
  have hheld := hc.held
  have hlen := hread.le
  have hsame : recv'.connFcCredited = recv.connFcCredited := by rw [hread.rest]
  have hcredit : credit recv' n = { recv' with connFcCredited := recv.connFcCredited + n } := by
    rw [credit_eq,hsame]
    omega
  have hcred := (hc.read hread).replenish
  rw [hcredit]
  have hgranted := RecvStream.replenishStream_rest
    { recv' with connFcCredited := recv.connFcCredited + n }
  have htotal : total creditedBytes (s.setRecv id (replenishStream
      { recv' with connFcCredited := recv.connFcCredited + n })) + recv.connFcCredited = _ :=
    total_creditedBytes_setRecv hget rfl rfl
  have hfinal : (replenishStream { recv' with
      connFcCredited := recv.connFcCredited + n }).connFcCredited = recv.connFcCredited + n := by
    rw [hgranted.1]
  apply h.consume (h.toRecorded.setRecv hget hcred) hfits h.used_le _ rfl rfl rfl
  omega

theorem Accounted.notMem_retiredIds (h : Accounted s) (hopen :
    (s.peerStreams (dirOf id)).used ≤ id / 4 ∨ id / 4 ∈ (s.peerStreams (dirOf id)).implicitOpen) :
    id ∉ s.retiredIds := by
  intro hmem
  obtain ⟨e,he,rfl⟩ := List.mem_map.mp hmem
  obtain ⟨l,hl⟩ := (h.books (dirOf e.1)).ledger
  rw [← hl.used,← hl.reserved] at hopen
  apply l.notMem_retired_of_openable hopen
  rw [hl.retired,mem_retiredOrdinals]
  exact ⟨e,he,rfl,rfl⟩

theorem Accounted.nextLocal_notMem_retiredIds (h : Accounted s) (dir : StreamDir) :
    s.nextLocal dir ∉ s.retiredIds := by
  intro hmem
  obtain ⟨e,he,heq⟩ := List.mem_map.mp hmem
  have hpeer := h.retired_peer e he
  rw [heq,(h.localIds.nextLocal dir).2] at hpeer
  cases hpeer

theorem Metered.insert (h : Metered s) (hnew : s.map.get? id = none) (hnot : id ∉ s.retiredIds)
    (hfresh : stream.IsFresh) : Metered { s with map := s.map.insert id stream } := by
  have hkey : id ∉ s.map.keys := (s.map.notMem_keys_iff id).mpr hnew
  have hzero : creditedBytes stream = 0 := by cases hfresh <;> rfl
  have htotal : total creditedBytes { s with map := s.map.insert id stream } = _ :=
    total_insert hnew rfl rfl
  rw [hzero,zero_add] at htotal
  refine h.keep ⟨?_,?_,h.high,?_,h.retired,h.used⟩ h.used_le htotal rfl rfl rfl
  · have hperm := (s.map.keys_insert_perm stream hnew).append_right s.retiredIds
    apply hperm.nodup_iff.mpr
    rw [cons_append,nodup_cons,List.mem_append]
    exact ⟨fun hmem => hmem.elim hkey hnot,h.distinct⟩
  · intro j r hj
    rw [recvHalf,s.map.get?_insert] at hj
    split_ifs at hj with heq
    · obtain ⟨n,rfl⟩ := hfresh.recv_new hj
      have hnone : s.acceptedUpTo j = 0 := heq ▸ h.known id hkey hnot
      exact hnone ▸ .new n
    · exact h.credited j r hj
  · intro j hj hj'
    rw [s.map.mem_keys_insert,not_or] at hj
    exact h.known j hj.2 hj'

theorem Metered.reap (h : Metered s) (hget : s.map.get? id = some stream) :
    Metered ((s.retire id stream).maybeReplenishStreams (dirOf id)) := by
  have htotal : total creditedBytes ((s.retire id stream).maybeReplenishStreams (dirOf id)) = _ :=
    total_reap hget
  rw [reap_rest] at htotal ⊢
  refine h.keep ⟨?_,?_,?_,?_,?_,h.used⟩ h.used_le htotal rfl rfl rfl
  · have hperm := (s.map.keys_erase_perm hget).append_right s.retiredIds
    exact perm_middle.nodup_iff.mpr (hperm.nodup_iff.mp h.distinct)
  · intro j r hj
    rw [recvHalf,s.map.get?_erase] at hj
    split_ifs at hj with heq
    · cases hj
    · exact h.credited j r hj
  · intro j hj
    obtain ⟨hne,hj⟩ := not_or.mp (List.mem_cons.not.mp hj)
    rw [s.streamHighOffset.get?_erase_ne hne]
    exact h.high j hj
  · intro j hj hj'
    obtain ⟨hne,hj'⟩ := not_or.mp (List.mem_cons.not.mp hj')
    rw [s.map.mem_keys_erase] at hj
    exact h.known j (fun hmem => hj ⟨hne,hmem⟩) hj'
  · exact List.forall_mem_cons.mpr ⟨h.live_le hget,h.retired⟩

/-- What the connection has been charged for, and the record of it. -/
def charged (s : Streams) : Nat × History := (s.connRecvUsed, s.history)
section
variable (s : Streams)
theorem charged_refreshReadable (id : Nat) : (s.refreshReadable id).charged = s.charged := by
  unfold refreshReadable
  split_ifs <;> rfl

theorem charged_consume (n : Nat) : (s.consume n).charged = s.charged := by
  rw [consume_rest]
  rfl
end
theorem Accepts.charged {high : Nat} {recv : RecvStream} (h : Accepts s id high newHigh recv s') :
    (s'.refreshReadable id).charged = (s.charge id high newHigh).charged := by
  rw [charged_refreshReadable]
  cases h with
  | kept c => rfl
  | credited c n =>
    rw [charged_consume]
    rfl

theorem connRecvUsed_charge_lt (h : s.connRecvUsed < u64Bound) (id high newHigh : Nat) :
    (s.charge id high newHigh).connRecvUsed < u64Bound := by
  unfold charge
  split_ifs
  · change min _ (u64Bound - 1) < u64Bound
    omega
  · exact h

/-- The records are exact for as long as what was accepted fits a `u64`. -/
structure Credits (s : Streams) : Prop where
  accounted : Accounted s
  used_lt : s.connRecvUsed < u64Bound
  metered : s.acceptedTotal < u64Bound → Metered s

theorem Credits.keep (h : Credits s) (haccounted : Accounted s') (hused : s'.connRecvUsed = s.connRecvUsed)
    (haccepted : s'.history.accepted = s.history.accepted)
    (hmetered : s.acceptedTotal < u64Bound → Metered s → Metered s') : Credits s' := by
  refine ⟨haccounted,hused ▸ h.used_lt,?_⟩
  intro hfits
  rw [acceptedTotal,haccepted] at hfits
  exact hmetered hfits (h.metered hfits)

theorem Credits.of_map (h : Credits s) (haccounted : Accounted s') (hmap : s'.map = s.map)
    (hmeter : s'.meter = s.meter) : Credits s' :=
  h.keep haccounted (congrArg Meter.connRecvUsed hmeter) (congrArg Meter.accepted hmeter)
    fun _ hm => hm.of_map hmap hmeter

theorem Credits.charge (h : Credits s) (haccounted : Accounted s')
    (hcharged : s'.charged = (s.charge id high newHigh).charged)
    (hmetered : Metered s → newHigh = high - s.acceptedUpTo id → s.acceptedTotal + newHigh < u64Bound → Metered s')
    (hnew : Metered s → newHigh = high - s.acceptedUpTo id) : Credits s' := by
  have hused : s'.connRecvUsed = _ := congrArg Prod.fst hcharged
  have hhistory : s'.history = _ := congrArg Prod.snd hcharged
  have htotal : s'.acceptedTotal = (s.charge id high newHigh).acceptedTotal := by
    rw [acceptedTotal,hhistory]
    rfl
  refine ⟨haccounted,hused ▸ connRecvUsed_charge_lt h.used_lt id high newHigh,?_⟩
  intro hfits
  rw [htotal] at hfits
  have hm := h.metered (lt_of_le_of_lt (acceptedTotal_le_charge s id high newHigh) hfits)
  rw [acceptedTotal_charge (hnew hm)] at hfits
  exact hmetered hm (hnew hm) hfits

theorem Metered.refreshReadable (h : Metered s) (id : Nat) : Metered (s.refreshReadable id) := by
  apply h.of_map (map_refreshReadable s id)
  unfold Streams.refreshReadable
  split_ifs <;> rfl

theorem Metered.newHigh_eq (h : Metered s) (hget : s.recvHalf id = some recv) :
    (s.streamHighOffset.get? id).getD 0 = s.acceptedUpTo id := by
  obtain ⟨stream,hstream,-⟩ := recvHalf_eq_some_iff.mp hget
  exact h.high id (h.notMem_retiredIds hstream)

theorem Credits.change {g : Guard} (h : Credits s) (hc : Change g s s') : Credits s' := by
  have haccounted := h.accounted.change hc
  cases hc with
  | admin hcore =>
    exact h.of_map haccounted (congrArg Streams.map hcore :) (congrArg meter hcore :)
  | announceStreams dir =>
    apply h.of_map haccounted (map_setPeerStreams _ _ _)
    cases dir <;> rfl
  | @openLocal dir stream hfresh =>
    have hnew := h.accounted.localIds.get?_nextLocal dir
    have hnot := h.accounted.nextLocal_notMem_retiredIds dir
    have hmeter : (s.insertLocal dir stream).meter = s.meter := by cases dir <;> rfl
    apply h.keep haccounted (congrArg Meter.connRecvUsed hmeter) (congrArg Meter.accepted hmeter)
    intro _ hm
    exact (hm.insert hnew hnot hfresh).of_map (map_insertLocal s dir stream) hmeter
  | openRemote id hpeer hnew hopen hmax =>
    have hnot := h.accounted.notMem_retiredIds hopen
    have hmeter : (s.openRemote id).meter = s.meter := by
      unfold openRemote
      cases dirOf id <;> rfl
    apply h.keep haccounted (congrArg Meter.connRecvUsed hmeter) (congrArg Meter.accepted hmeter)
    intro _ hm
    exact (hm.insert hnew hnot (newRemote_isFresh s id)).of_map (map_openRemote s id) hmeter
  | wake id =>
    rw [enqueueReady_rest] at haccounted ⊢
    exact h.of_map haccounted rfl rfl
  | @send id send send' n hget hmove hready =>
    obtain ⟨stream,hstream,-⟩ := sendHalf_eq_some_iff.mp hget
    apply h.keep haccounted rfl rfl
    intro _ hm
    exact hm.congr (s.map.keys_modify id _) (fun j => recvHalf_setSend send')
      (Nat.add_right_cancel (total_setSend hstream rfl rfl)) rfl
  | raiseAll limit =>
    apply h.keep haccounted rfl rfl
    intro _ hm
    exact hm.congr (s.map.keys_mapVal _) (fun j => recvHalf_raiseAll limit)
      (total_raiseAll limit fun _ _ _ => rfl) rfl
  | recvFlag hget hmove hready =>
    apply h.keep haccounted rfl rfl
    intro _ hm
    apply hm.keep (hm.toRecorded.setRecv hget ((hm.credited _ _ hget).flag hmove)) hm.used_le _
      rfl rfl rfl
    apply Nat.add_right_cancel
    rw [total_creditedBytes_setRecv hget rfl rfl]
    cases hmove <;> rfl
  | @frame id offset data fin recv recv' n hget hguard hdata frameEnd newHigh hend hnew hroom =>
    have hframe : frameEnd = offset + data.length :=
      hend.trans (saturatingAdd_eq (RecvStream.onData_ok_lt hdata))
    apply h.charge haccounted (accepts_acceptFrame s id frameEnd newHigh recv').charged
    · intro hm hnew' hfits
      apply Metered.refreshReadable
      rw [hframe] at hnew' ⊢
      apply hm.frame hget hdata hnew' hfits
      by_cases hpos : 0 < newHigh
      · have hle := hroom hpos
        rwa [saturatingAdd_eq (hm.used ▸ hfits)] at hle
      · have hle := hm.used_le
        omega
    · intro hm
      rw [hnew,hm.newHigh_eq hget]
  | @peerReset id code finalSize recv recv' hget hguard hreset newHigh hhigh hnew hroom =>
    apply h.charge haccounted (accepts_acceptReset s id finalSize newHigh recv.isReset recv').charged
    · intro hm hnew' hfits
      apply Metered.refreshReadable
      rw [hm.newHigh_eq hget] at hhigh
      apply hm.peerReset hget hreset hhigh hnew' hfits
      rwa [saturatingAdd_eq (hm.used ▸ hfits)] at hroom
    · intro hm
      rw [hnew,hm.newHigh_eq hget]
  | @read id len recv recv' recv'' bytes fin hget hread hgrant hready =>
    subst hgrant
    have hcharged : (((s.setRecv id (replenishStream (credit recv' bytes.length))).consume
        bytes.length).refreshReadable id).charged = s.charged := by
      rw [charged_refreshReadable,charged_consume]
      rfl
    apply h.keep haccounted (congrArg Prod.fst hcharged)
      (congrArg (fun c => c.2.accepted) hcharged)
    intro hfits hm
    exact (hm.read hfits hget (RecvStream.afterRead hread)).refreshReadable id
  | @reap id stream hpeer hget hend =>
    apply h.keep haccounted (by rw [reap_rest]) (by rw [reap_rest])
    intro _ hm
    exact hm.reap hget
  | _ => exact h.of_map haccounted rfl rfl
end Records
theorem credits_new (role : Role) (our peer : TransportParameters) : Credits (Streams.new role our peer) := by
  refine ⟨Accounted.new role our peer,(by decide : 0 < u64Bound),?_⟩
  intro _
  refine ⟨⟨nodup_nil,?_,fun _ _ => rfl,fun _ _ _ => rfl,?_,rfl⟩,rfl,Nat.zero_le _,?_⟩
  · intro id recv hget
    cases hget
  · intro e he
    cases he
  · exact Nat.le_add_left _ _

/-- The connection's receive totals are exact, and the bytes buffered by all streams fit the window,
just as long as the highest offsets accepted on all streams add up to a `u64`. -/
theorem recv_accounting_iff (role : Role) (our peer : TransportParameters) (ops : List StreamsOp) :
    let s := Trace.run step (Streams.new role our peer) ops
    (s.connRecvUsed = s.history.accepted.sum (fun _ high => high) ∧
      s.connConsumed = s.map.sum (fun _ stream => creditedBytes stream) +
        (s.history.retired.map (fun e => creditedBytes e.2)).sum ∧
      s.connConsumed ≤ s.connRecvUsed ∧ s.connRecvUsed ≤ s.connRecvMax ∧
      s.connRecvMax ≤ s.connConsumed + s.connRecvWindow ∧
      s.map.sum (fun _ stream => bufferedBytes stream) ≤ s.connRecvWindow) ↔
    s.history.accepted.sum (fun _ high => high) < u64Bound := by
  intro s
  have h : Credits s :=
    invariant_run (fun _ _ hs hc => hs.change hc) (allows_any _ ops) (credits_new role our peer)
  constructor
  · rintro ⟨hused,-⟩
    exact hused ▸ h.used_lt
  · intro hfits
    have hm := h.metered hfits
    have htotal := hm.total_le
    have hconsumed := hm.consumed
    have hbuffered : s.map.sum (fun _ stream => bufferedBytes stream) ≤ total bufferedBytes s :=
      Nat.le_add_right _ _
    have hused := hm.used
    have hle := hm.used_le
    have hmax := hm.max_le
    exact ⟨hused,hconsumed,by omega,hle,hmax,by omega⟩

/-- Five streams reset at final sizes that add up to more than a `u64`: the charge saturates. -/
theorem recv_total_saturated :
    let s := Trace.run step (Streams.new .server (.uniform (2 ^ 62 - 1) 5) (.uniform 0 0))
      [.onReset 0 0 (2 ^ 62 - 1), .onReset 4 0 (2 ^ 62 - 1), .onReset 8 0 (2 ^ 62 - 1),
        .onReset 12 0 10, .onReset 16 0 (2 ^ 62 - 1)]
    s.connRecvUsed = 2 ^ 64 - 1 ∧ s.connConsumed = 2 ^ 64 - 1 ∧
      s.history.accepted.sum (fun _ high => high) = 2 ^ 64 + 6 := by
  decide
end Streams
end PureCrypto.Quic
