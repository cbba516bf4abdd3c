import PureCrypto.Framework.SlotLedger
import PureCrypto.Quic.StreamsSteps

/-!
# Streams of the peer

A used ordinal that is neither live nor implicitly open counts as retired. The ordinals of each
direction follow a `SlotLedger`.
-/
namespace PureCrypto.Quic
open CreditWindow
open Trace (run)
namespace Streams
structure Population where
  keys : List Nat
  role : Role
  retired : List (Nat × Stream)
  nextLocalBidi : Nat
  nextLocalUni : Nat
  bidi : PeerStreams
  uni : PeerStreams

def population (s : Streams) : Population where
  keys := s.map.keys
  role := s.role
  retired := s.history.retired
  nextLocalBidi := s.nextLocalBidi
  nextLocalUni := s.nextLocalUni
  bidi := { s.bidi with maxStreamsPending := false }
  uni := { s.uni with maxStreamsPending := false }
section Population
variable (s : Streams) (id n : Nat)
@[simp] theorem population_setSend (send : SendStream) : (s.setSend id send).population = s.population := by
  simp [population,setSend]

@[simp] theorem population_setRecv (recv : RecvStream) : (s.setRecv id recv).population = s.population := by
  simp [population,setRecv]
@[simp] theorem population_raiseAll (limit : Nat → Nat) : (s.raiseAll limit).population = s.population := by
  simp [population,raiseAll]
@[simp] theorem population_enqueueReady : (s.enqueueReady id).population = s.population := by
  rw [enqueueReady_rest]
  rfl

theorem population_of_offRecv {s s' : Streams} {id : Nat} {recv : RecvStream}
    (h : s'.offRecv = s.offRecv) (hmap : s'.map = (s.setRecv id recv).map) : s'.population = s.population := by
  have hkeys : s'.map.keys = s.map.keys := by rw [hmap,setRecv,s.map.keys_modify]
  change ({ s'.offRecv.population with keys := s'.map.keys }) = s.population
  rw [h,hkeys]
  rfl
end Population
/-- Only opening, retiring and announcing change the population. -/
inductive Populates (s s' : Streams) : Prop
  | keep (h : s'.population = s.population)
  | announce (dir : StreamDir) (h : s' = s.setPeerStreams dir
      { s.peerStreams dir with selfMaxAnnounced := (s.peerStreams dir).selfMax })
  | openLocal (dir : StreamDir) (stream : Stream) (h : s' = s.insertLocal dir stream)
  | openRemote (id : Nat) (hpeer : s.isPeerInitiated id = true) (hnew : s.map.get? id = none)
      (hopen : (s.peerStreams (dirOf id)).used ≤ id / 4 ∨
        id / 4 ∈ (s.peerStreams (dirOf id)).implicitOpen)
      (hmax : max (s.peerStreams (dirOf id)).used (id / 4 + 1) ≤
        (s.peerStreams (dirOf id)).selfMax) (h : s' = s.openRemote id)
  | reap (id : Nat) (stream : Stream) (hpeer : s.isPeerInitiated id = true)
      (hget : s.map.get? id = some stream)
      (h : s' = (s.retire id stream).maybeReplenishStreams (dirOf id))
variable {s s' : Streams}
theorem population_of_core (h : s'.core = s.core) : s'.population = s.population := by
  change s'.core.population = s.core.population
  rw [h]

theorem populates_of_change {g : Guard} (h : Change g s s') : Populates s s' := by
  cases h with
  | admin h => exact .keep (population_of_core h)
  | announceStreams dir => exact .announce dir rfl
  | openLocal dir h => exact .openLocal dir _ rfl
  | openRemote id hpeer hnew hopen hmax => exact .openRemote id hpeer hnew hopen hmax rfl
  | wake id => exact .keep (population_enqueueReady s id)
  | send hget hmove hready => exact .keep (population_setSend _ _ _)
  | raiseAll limit => exact .keep (population_raiseAll s limit)
  | recvFlag hget hmove hready => exact .keep (population_setRecv _ _ _)
  | @frame id _ _ _ _ recv' _ hget hguard hdata frameEnd newHigh hend hnew hroom =>
    obtain ⟨hoff,c,hmap⟩ := (accepts_acceptFrame s id frameEnd newHigh recv').refreshed
    exact .keep (population_of_offRecv hoff hmap)
  | @peerReset id _ finalSize recv recv' hget hguard hreset newHigh hhigh hnew hroom =>
    obtain ⟨hoff,c,hmap⟩ := (accepts_acceptReset s id finalSize newHigh recv.isReset recv').refreshed
    exact .keep (population_of_offRecv hoff hmap)
  | read => exact .keep (population_of_offRecv (by rw [offRecv_refreshReadable,offRecv_consume]; rfl)
      (by rw [map_refreshReadable,map_consume]))
  | reap hpeer hget hend => exact .reap _ _ hpeer hget rfl
  | _ => exact .keep rfl

def liveOrdinals (s : Streams) (dir : StreamDir) : Finset Nat :=
  ((s.map.keys.filter (fun id => s.isPeerInitiated id && dirOf id == dir)).map (· / 4)).toFinset
def retiredOrdinals (s : Streams) (dir : StreamDir) : Finset Nat :=
  (((s.history.retired.map Prod.fst).filter (fun id => dirOf id == dir)).map (· / 4)).toFinset
theorem mem_liveOrdinals {dir : StreamDir} {n : Nat} : n ∈ s.liveOrdinals dir ↔
      ∃ id ∈ s.map.keys, s.isPeerInitiated id = true ∧ dirOf id = dir ∧ id / 4 = n := by
  simp [liveOrdinals,and_assoc]
theorem mem_retiredOrdinals {dir : StreamDir} {n : Nat} :
    n ∈ s.retiredOrdinals dir ↔ ∃ e ∈ s.history.retired, dirOf e.1 = dir ∧ e.1 / 4 = n := by
  simp [retiredOrdinals,and_assoc]
theorem isBidi_of_dirOf (id : Nat) : (dirOf id = .bidi ↔ id / 2 % 2 = 0) ∧ (dirOf id = .uni ↔ id / 2 % 2 ≠ 0) := by
  by_cases h : id / 2 % 2 = 0 <;> simp [dirOf,StreamId.isBidi,h]

theorem eq_of_ordinal {id id' : Nat} (h : s.isPeerInitiated id = true)
    (h' : s.isPeerInitiated id' = true) (hdir : dirOf id = dirOf id') (hord : id / 4 = id' / 4) : id = id' := by
  have hparity : id % 2 = id' % 2 := by
    unfold isPeerInitiated at h h'
    cases hrole : s.role with
    | client =>
      simp only [hrole,StreamId.isServerInitiated,beq_iff_eq] at h h'
      rw [h,h']
    | server =>
      simp only [hrole,StreamId.isClientInitiated,beq_iff_eq] at h h'
      rw [h,h']
  have hbit : id / 2 % 2 = id' / 2 % 2 := by
    have hb := isBidi_of_dirOf id
    have hb' := isBidi_of_dirOf id'
    cases hd : dirOf id with
    | bidi =>
      rw [hb.1.mp hd,hb'.1.mp (hdir ▸ hd)]
    | uni =>
      have h1 := hb.2.mp hd
      have h2 := hb'.2.mp (hdir ▸ hd)
      omega
  omega
end Streams
/-- The limits of one direction are consistent. -/
structure PeerStreams.Bounded (p : PeerStreams) : Prop where
  used_le : p.used ≤ p.selfMax
  le_window : p.selfMax ≤ p.closed + p.window
  announced_le : p.selfMaxAnnounced ≤ p.selfMax
  granted : 2 ≤ p.window → p.closed < maxStreamsLimit → p.closed < p.selfMax

theorem PeerStreams.maybeReplenish_rest (p : PeerStreams) :
    p.maybeReplenish = { p with
      selfMax := grant p.window p.selfMaxAnnounced p.selfMax p.closed
        (min (p.closed + p.window) maxStreamsLimit)
      maxStreamsPending := p.maybeReplenish.maxStreamsPending } := by
  rw [grant_eq_ite]
  unfold maybeReplenish
  rw [replenishThreshold_eq]
  by_cases hzero : p.window = 0
  · simp only [if_pos hzero]
  simp only [if_neg hzero]
  by_cases hlow : p.closed + p.window / 2 ≤ p.selfMaxAnnounced
  · rw [if_neg (not_lt.mpr hlow),if_pos hlow]
  rw [if_pos (not_le.mp hlow)]
  split_ifs <;> rfl

theorem PeerStreams.Bounded.new (limit : Nat) : (PeerStreams.new limit).Bounded where
  used_le := Nat.zero_le limit
  le_window := by simp [PeerStreams.new]
  announced_le := le_refl limit
  granted := fun hwindow _ => lt_of_lt_of_le Nat.zero_lt_two hwindow

theorem PeerStreams.Bounded.close {p : PeerStreams} (h : p.Bounded) :
    ({ p with closed := p.closed + 1 } : PeerStreams).maybeReplenish.Bounded := by
  rw [maybeReplenish_rest]
  constructor
  · exact h.used_le.trans le_grant
  · apply grant_le
    · have := h.le_window
      simp only
      omega
    · exact min_le_left _ _
  · exact h.announced_le.trans le_grant
  · intro hwindow hceiling
    apply lt_grant hwindow h.announced_le
    apply lt_min _ hceiling
    simp only at hwindow ⊢
    omega
namespace Streams
/-- The ordinals of one direction follow the ledger. -/
structure Tally (s : Streams) (dir : StreamDir) (l : SlotLedger) : Prop where
  live : l.live = s.liveOrdinals dir
  reserved : l.reserved = (s.peerStreams dir).implicitOpen
  retired : l.retired = s.retiredOrdinals dir
  used : l.used = (s.peerStreams dir).used
  closed : (s.peerStreams dir).closed = l.retired.card

structure Books (s : Streams) (dir : StreamDir) : Prop where
  bounded : (s.peerStreams dir).Bounded
  ledger : ∃ l, Tally s dir l

/-- Local identifiers are handed out in order. -/
structure LocalIds (s : Streams) : Prop where
  nextLocal : ∀ dir, dirOf (s.nextLocal dir) = dir ∧ s.isPeerInitiated (s.nextLocal dir) = false
  lt : ∀ id ∈ s.map.keys, s.isPeerInitiated id = false → id < s.nextLocal (dirOf id)

/-- Every stream is accounted for. -/
structure Accounted (s : Streams) : Prop where
  localIds : LocalIds s
  retired_peer : ∀ e ∈ s.history.retired, s.isPeerInitiated e.1 = true
  books : ∀ dir, Books s dir
section Parts
variable {s s' : Streams} {dir : StreamDir}
theorem LocalIds.get?_nextLocal (h : LocalIds s) (dir : StreamDir) : s.map.get? (s.nextLocal dir) = none := by
  rw [← s.map.notMem_keys_iff]
  intro hmem
  have hlt := h.lt _ hmem (h.nextLocal dir).2
  rw [(h.nextLocal dir).1] at hlt
  exact lt_irrefl _ hlt

private theorem isPeerInitiated_congr (hrole : s'.role = s.role) (id : Nat) :
    s'.isPeerInitiated id = s.isPeerInitiated id := by
  unfold isPeerInitiated
  rw [hrole]

private theorem liveOrdinals_congr (hrole : s'.role = s.role) (hkeys : s'.map.keys = s.map.keys)
    (dir : StreamDir) : s'.liveOrdinals dir = s.liveOrdinals dir := by
  simp only [liveOrdinals,hkeys,isPeerInitiated_congr hrole]
private theorem retiredOrdinals_congr (h : s'.history.retired = s.history.retired)
    (dir : StreamDir) : s'.retiredOrdinals dir = s.retiredOrdinals dir := by
  simp only [retiredOrdinals,h]

private theorem LocalIds.mono (h : LocalIds s) (hrole : s'.role = s.role)
    (hkeys : ∀ id ∈ s'.map.keys, s.isPeerInitiated id = false → id ∈ s.map.keys)
    (hnext : ∀ dir, s'.nextLocal dir = s.nextLocal dir) : LocalIds s' := by
  constructor
  · intro dir
    rw [hnext,isPeerInitiated_congr hrole]
    exact h.nextLocal dir
  · intro id hmem hlocal
    rw [isPeerInitiated_congr hrole] at hlocal
    rw [hnext]
    exact h.lt id (hkeys id hmem hlocal) hlocal

private theorem Books.congr (h : Books s dir) (hlive : s'.liveOrdinals dir = s.liveOrdinals dir)
    (hretired : s'.retiredOrdinals dir = s.retiredOrdinals dir)
    (hused : (s'.peerStreams dir).used = (s.peerStreams dir).used)
    (hclosed : (s'.peerStreams dir).closed = (s.peerStreams dir).closed)
    (himplicit : (s'.peerStreams dir).implicitOpen = (s.peerStreams dir).implicitOpen)
    (hbounded : (s'.peerStreams dir).Bounded) : Books s' dir := by
  obtain ⟨l,hl⟩ := h.ledger
  exact ⟨hbounded,l,hl.live.trans hlive.symm,hl.reserved.trans himplicit.symm,
    hl.retired.trans hretired.symm,hl.used.trans hused.symm,hclosed.trans hl.closed⟩
end Parts
section Steps
variable {s s' : Streams} {id : Nat} {dir : StreamDir} {stream : Stream}
private theorem Accounted.retired_of (h : Accounted s) (hrole : s'.role = s.role)
    (hretired : s'.history.retired = s.history.retired) : ∀ e ∈ s'.history.retired, s'.isPeerInitiated e.1 = true := by
  simpa only [hretired,isPeerInitiated_congr hrole] using h.retired_peer

theorem Accounted.congr (h : Accounted s) (hpop : s'.population = s.population) : Accounted s' := by
  have hkeys : s'.map.keys = s.map.keys := congrArg Population.keys hpop
  have hrole : s'.role = s.role := congrArg Population.role hpop
  have hretired : s'.history.retired = s.history.retired := congrArg Population.retired hpop
  have hpeer : ∀ dir, { s'.peerStreams dir with maxStreamsPending := false } =
      { s.peerStreams dir with maxStreamsPending := false } := by
    intro dir
    cases dir
    · exact congrArg Population.bidi hpop
    · exact congrArg Population.uni hpop
  constructor
  · apply h.localIds.mono hrole
    · intro id hmem _
      rwa [hkeys] at hmem
    · intro dir
      cases dir
      · exact congrArg Population.nextLocalBidi hpop
      · exact congrArg Population.nextLocalUni hpop
  · exact h.retired_of hrole hretired
  · intro dir
    apply (h.books dir).congr (liveOrdinals_congr hrole hkeys dir)
      (retiredOrdinals_congr hretired dir) (congrArg PeerStreams.used (hpeer dir) :)
      (congrArg PeerStreams.closed (hpeer dir) :) (congrArg PeerStreams.implicitOpen (hpeer dir) :)
    obtain ⟨h1,h2,h3,h4⟩ := (h.books dir).bounded
    have hb : PeerStreams.Bounded { s'.peerStreams dir with maxStreamsPending := false } := by
      rw [hpeer dir]
      exact ⟨h1,h2,h3,h4⟩
    exact ⟨hb.used_le,hb.le_window,hb.announced_le,hb.granted⟩

theorem Accounted.announce (h : Accounted s) (dir : StreamDir) :
    Accounted (s.setPeerStreams dir
      { s.peerStreams dir with selfMaxAnnounced := (s.peerStreams dir).selfMax }) := by
  set p : PeerStreams := { s.peerStreams dir with
    selfMaxAnnounced := (s.peerStreams dir).selfMax } with hp
  have hrole := role_setPeerStreams s dir p
  have hkeys := congrArg SortedMap.keys (map_setPeerStreams s dir p)
  have hhistory := congrArg History.retired (history_setPeerStreams s dir p)
  constructor
  · apply h.localIds.mono hrole
    · intro id hmem _
      rwa [hkeys] at hmem
    · intro dir'
      cases dir <;> cases dir' <;> rfl
  · exact h.retired_of hrole hhistory
  · intro dir'
    have hlive := liveOrdinals_congr hrole hkeys dir'
    have hretired := retiredOrdinals_congr hhistory dir'
    have hb := (h.books dir').bounded
    by_cases hdir : dir' = dir
    · subst hdir
      apply (h.books dir').congr hlive hretired
      all_goals rw [peerStreams_setPeerStreams_self]
      exact ⟨hb.used_le,hb.le_window,le_refl _,hb.granted⟩
    · have hsame := peerStreams_setPeerStreams_ne s dir p hdir
      apply (h.books dir').congr hlive hretired
      all_goals rw [hsame]
      exact hb

private theorem isPeerInitiated_add_four (s : Streams) (id : Nat) :
    s.isPeerInitiated (id + 4) = s.isPeerInitiated id := by
  have hmod : (id + 4) % 2 = id % 2 := by omega
  unfold isPeerInitiated StreamId.isServerInitiated StreamId.isClientInitiated
  rw [hmod]

private theorem dirOf_add_four (id : Nat) : dirOf (id + 4) = dirOf id := by
  have hmod : (id + 4) / 2 % 2 = id / 2 % 2 := by omega
  unfold dirOf StreamId.isBidi
  rw [hmod]

theorem Accounted.openLocal (h : Accounted s) (dir : StreamDir) (stream : Stream) :
    Accounted (s.insertLocal dir stream) := by
  obtain ⟨hdir,hlocal⟩ := h.localIds.nextLocal dir
  have hrole : (s.insertLocal dir stream).role = s.role := by cases dir <;> rfl
  have hmap : (s.insertLocal dir stream).map = s.map.insert (s.nextLocal dir) stream := by
    cases dir <;> rfl
  have hpeer : ∀ dir', (s.insertLocal dir stream).peerStreams dir' = s.peerStreams dir' := by
    intro dir'
    cases dir <;> cases dir' <;> rfl
  have hhistory : (s.insertLocal dir stream).history = s.history := by cases dir <;> rfl
  have hnext : ∀ dir', (s.insertLocal dir stream).nextLocal dir' =
      if dir' = dir then s.nextLocal dir + 4 else s.nextLocal dir' := by
    intro dir'
    cases dir <;> cases dir' <;> rfl
  constructor
  · constructor
    · intro dir'
      rw [hnext,isPeerInitiated_congr hrole]
      split_ifs with heq
      · rw [dirOf_add_four,isPeerInitiated_add_four,heq]
        exact ⟨hdir,hlocal⟩
      · exact h.localIds.nextLocal dir'
    · intro id hmem hid
      rw [isPeerInitiated_congr hrole] at hid
      rw [hmap,s.map.mem_keys_insert] at hmem
      rw [hnext]
      rcases hmem with rfl | hmem
      · rw [if_pos hdir]
        omega
      · have hlt := h.localIds.lt id hmem hid
        split_ifs with heq
        · rw [heq] at hlt
          omega
        · exact hlt
  · exact h.retired_of hrole (congrArg History.retired hhistory)
  · intro dir'
    have hlive : (s.insertLocal dir stream).liveOrdinals dir' = s.liveOrdinals dir' := by
      ext n
      simp only [mem_liveOrdinals,hmap,s.map.mem_keys_insert,isPeerInitiated_congr hrole]
      constructor
      · rintro ⟨id,rfl | hmem,hid,hrest⟩
        · rw [hlocal] at hid
          cases hid
        · exact ⟨id,hmem,hid,hrest⟩
      · rintro ⟨id,hmem,hid,hrest⟩
        exact ⟨id,.inr hmem,hid,hrest⟩
    apply (h.books dir').congr hlive (retiredOrdinals_congr (congrArg History.retired hhistory) dir')
    all_goals rw [hpeer dir']
    exact (h.books dir').bounded

theorem Accounted.openRemote (h : Accounted s) (hpeer : s.isPeerInitiated id = true)
    (hopen : (s.peerStreams (dirOf id)).used ≤ id / 4 ∨ id / 4 ∈ (s.peerStreams (dirOf id)).implicitOpen)
    (hmax : max (s.peerStreams (dirOf id)).used (id / 4 + 1) ≤
      (s.peerStreams (dirOf id)).selfMax) : Accounted (s.openRemote id) := by
  have hrole : (s.openRemote id).role = s.role := by rw [Streams.openRemote,role_setPeerStreams]
  have hmap := map_openRemote s id
  have hhistory : (s.openRemote id).history = s.history := by
    rw [Streams.openRemote,history_setPeerStreams]
  have hlive : ∀ dir n, n ∈ (s.openRemote id).liveOrdinals dir ↔
      (dir = dirOf id ∧ n = id / 4) ∨ n ∈ s.liveOrdinals dir := by
    intro dir n
    simp only [mem_liveOrdinals,hmap,s.map.mem_keys_insert,isPeerInitiated_congr hrole]
    constructor
    · rintro ⟨j,rfl | hmem,hj,rfl,rfl⟩
      · exact .inl ⟨rfl,rfl⟩
      · exact .inr ⟨j,hmem,hj,rfl,rfl⟩
    · rintro (⟨rfl,rfl⟩ | ⟨j,hmem,hj,hrest⟩)
      · exact ⟨id,.inl rfl,hpeer,rfl,rfl⟩
      · exact ⟨j,.inr hmem,hj,hrest⟩
  constructor
  · apply h.localIds.mono hrole
    · intro j hmem hj
      rw [hmap,s.map.mem_keys_insert] at hmem
      rcases hmem with rfl | hmem
      · rw [hpeer] at hj
        cases hj
      · exact hmem
    · intro dir
      unfold Streams.openRemote
      cases dirOf id <;> cases dir <;> rfl
  · exact h.retired_of hrole (congrArg History.retired hhistory)
  · intro dir
    have hretired := retiredOrdinals_congr (congrArg History.retired hhistory) dir
    have hb := (h.books dir).bounded
    by_cases hdir : dir = dirOf id
    · subst hdir
      obtain ⟨l,hl⟩ := (h.books (dirOf id)).ledger
      rw [← hl.used,← hl.reserved] at hopen
      constructor
      · rw [Streams.openRemote,peerStreams_setPeerStreams_self]
        exact ⟨hmax,hb.le_window,hb.announced_le,hb.granted⟩
      · refine ⟨l.openSlot (id / 4) hopen,?_,?_,?_,?_,?_⟩
        · ext n
          rw [hlive,← hl.live]
          simp
        · rw [Streams.openRemote,peerStreams_setPeerStreams_self,l.reserved_openSlot,hl.used,hl.reserved]
        · exact hl.retired.trans hretired.symm
        · rw [Streams.openRemote,peerStreams_setPeerStreams_self,l.used_openSlot,hl.used]
        · rw [Streams.openRemote,peerStreams_setPeerStreams_self]
          exact hl.closed
    · have hsame : (s.openRemote id).peerStreams dir = s.peerStreams dir := by
        rw [Streams.openRemote,peerStreams_setPeerStreams_ne _ _ _ hdir]
        cases dir <;> rfl
      apply (h.books dir).congr _ hretired
      any_goals rw [hsame]
      · exact hb
      · ext n
        rw [hlive]
        simp [hdir]

private theorem peerStreams_reap (s : Streams) (id : Nat) (stream : Stream) (dir : StreamDir) :
    ((s.retire id stream).maybeReplenishStreams (dirOf id)).peerStreams dir =
      if dir = dirOf id then
        ({ s.peerStreams dir with closed := (s.peerStreams dir).closed + 1 } : PeerStreams).maybeReplenish
      else s.peerStreams dir := by
  unfold maybeReplenishStreams
  by_cases hdir : dir = dirOf id
  · subst hdir
    rw [if_pos rfl,peerStreams_setPeerStreams_self,Streams.retire,peerStreams_setPeerStreams_self]
  · rw [if_neg hdir,peerStreams_setPeerStreams_ne _ _ _ hdir,Streams.retire,peerStreams_setPeerStreams_ne _ _ _ hdir]
    cases dir <;> rfl

theorem Accounted.reap (h : Accounted s) (hpeer : s.isPeerInitiated id = true) (hget : s.map.get? id = some stream) :
    Accounted ((s.retire id stream).maybeReplenishStreams (dirOf id)) := by
  set s' := (s.retire id stream).maybeReplenishStreams (dirOf id) with hs'
  have hrole : s'.role = s.role := by
    rw [hs',reap_rest]
  have hmap : s'.map = s.map.erase id := map_reap s id stream
  have hhistory : s'.history.retired = (id, stream) :: s.history.retired := retired_reap s id stream
  have hpeers := peerStreams_reap s id stream
  have hkey : id ∈ s.map.keys := (s.map.mem_keys_iff id).mpr ⟨stream,hget⟩
  constructor
  · apply h.localIds.mono hrole
    · intro j hmem _
      rw [hmap,s.map.mem_keys_erase] at hmem
      exact hmem.2
    · intro dir
      rw [hs',reap_rest]
      cases dir <;> rfl
  · intro e he
    rw [isPeerInitiated_congr hrole]
    rw [hhistory] at he
    rcases List.mem_cons.mp he with rfl | he
    · exact hpeer
    · exact h.retired_peer e he
  · intro dir
    have hb := (h.books dir).bounded
    have hlive : ∀ n, n ∈ s'.liveOrdinals dir ↔
        n ∈ s.liveOrdinals dir ∧ ¬(dir = dirOf id ∧ n = id / 4) := by
      intro n
      simp only [mem_liveOrdinals,hmap,s.map.mem_keys_erase,isPeerInitiated_congr hrole]
      constructor
      · rintro ⟨j,⟨hne,hmem⟩,hj,rfl,rfl⟩
        refine ⟨⟨j,hmem,hj,rfl,rfl⟩,?_⟩
        rintro ⟨hdir,hord⟩
        exact hne (eq_of_ordinal hj hpeer hdir hord)
      · rintro ⟨⟨j,hmem,hj,rfl,rfl⟩,hnot⟩
        refine ⟨j,⟨?_,hmem⟩,hj,rfl,rfl⟩
        rintro rfl
        exact hnot ⟨rfl,rfl⟩
    have hretired : ∀ n, n ∈ s'.retiredOrdinals dir ↔
        (dir = dirOf id ∧ n = id / 4) ∨ n ∈ s.retiredOrdinals dir := by
      intro n
      simp only [mem_retiredOrdinals,hhistory,List.mem_cons]
      constructor
      · rintro ⟨e,rfl | he,rfl,rfl⟩
        · exact .inl ⟨rfl,rfl⟩
        · exact .inr ⟨e,he,rfl,rfl⟩
      · rintro (⟨rfl,rfl⟩ | ⟨e,he,hrest⟩)
        · exact ⟨(id, stream),.inl rfl,rfl,rfl⟩
        · exact ⟨e,.inr he,hrest⟩
    by_cases hdir : dir = dirOf id
    · subst hdir
      obtain ⟨l,hl⟩ := (h.books (dirOf id)).ledger
      have hmem : id / 4 ∈ l.live := by
        rw [hl.live,mem_liveOrdinals]
        exact ⟨id,hkey,hpeer,rfl,rfl⟩
      have hp := hpeers (dirOf id)
      rw [if_pos rfl] at hp
      constructor
      · rw [hp]
        exact hb.close
      · refine ⟨l.retire (id / 4) hmem,?_,?_,?_,?_,?_⟩
        · ext n
          rw [hlive,← hl.live,l.live_retire,Finset.mem_erase]
          tauto
        · rw [hp,PeerStreams.maybeReplenish_rest]
          exact hl.reserved
        · ext n
          rw [hretired,← hl.retired,l.retired_retire,Finset.mem_insert]
          tauto
        · rw [hp,PeerStreams.maybeReplenish_rest]
          exact hl.used
        · rw [hp,PeerStreams.maybeReplenish_rest,l.card_retired_retire,← hl.closed]
    · have hp := hpeers dir
      rw [if_neg hdir] at hp
      apply (h.books dir).congr
      any_goals rw [hp]
      · ext n
        rw [hlive]
        tauto
      · ext n
        rw [hretired]
        tauto
      · exact hb

theorem Accounted.change {g : Guard} (h : Accounted s) (hc : Change g s s') : Accounted s' := by
  cases populates_of_change hc with
  | keep hpop => exact h.congr hpop
  | announce dir heq => exact heq ▸ h.announce dir
  | openLocal dir stream heq => exact heq ▸ h.openLocal dir stream
  | openRemote id hpeer hnew hopen hmax heq => exact heq ▸ h.openRemote hpeer hopen hmax
  | reap id stream hpeer hget heq => exact heq ▸ h.reap hpeer hget

theorem Accounted.new (role : Role) (our peer : TransportParameters) : Accounted (Streams.new role our peer) := by
  constructor
  · constructor
    · intro dir
      cases role <;> cases dir <;>
        simp [Streams.new,nextLocal,dirOf,isPeerInitiated,StreamId.isBidi,
          StreamId.isServerInitiated,StreamId.isClientInitiated]
    · intro id hmem
      cases hmem
  · intro e he
    cases he
  · intro dir
    cases dir <;>
      exact ⟨.new _,.empty,rfl,rfl,rfl,rfl,rfl⟩
end Steps
theorem Accounted.run {s : Streams} (h : Accounted s) (ops : List StreamsOp) : Accounted (run step s ops) :=
  invariant_run (fun _ _ hs hc => hs.change hc) (allows_any s ops) h

theorem retired_suffix_of_change {g : Guard} {s s' : Streams} (h : Change g s s') :
    s.history.retired <:+ s'.history.retired := by
  cases populates_of_change h with
  | keep hpop =>
    have hsame : s'.history.retired = s.history.retired := congrArg Population.retired hpop
    rw [hsame]
  | announce dir heq =>
    rw [heq,history_setPeerStreams]
  | openLocal dir stream heq =>
    rw [heq]
    cases dir <;> exact List.suffix_refl _
  | openRemote id hpeer hnew hopen hmax heq =>
    rw [heq,Streams.openRemote,history_setPeerStreams]
  | reap id stream hpeer hget heq =>
    rw [heq,retired_reap]
    exact List.suffix_cons _ _

theorem retired_suffix_run (s : Streams) (ops : List StreamsOp) :
    s.history.retired <:+ (run step s ops).history.retired := by
  have hchange : ∀ t t', s.history.retired <:+ t.history.retired → Change .any t t' →
      s.history.retired <:+ t'.history.retired := by
    intro t t' ht hc
    exact ht.trans (retired_suffix_of_change hc)
  exact invariant_run hchange (allows_any s ops) (List.suffix_refl _)

theorem retiredOrdinals_subset_run (s : Streams) (ops : List StreamsOp) (dir : StreamDir) :
    s.retiredOrdinals dir ⊆ (run step s ops).retiredOrdinals dir := by
  intro n hn
  obtain ⟨e,he,hrest⟩ := mem_retiredOrdinals.mp hn
  exact mem_retiredOrdinals.mpr ⟨e,(retired_suffix_run s ops).subset he,hrest⟩

/-- In every state the ordinals of the peer's streams below `used` are live, implicitly open or
retired; `closed` counts the retired ones, the limits stay within the window, and whatever happens
later a retired ordinal is not live again. -/
theorem peerStreams_partition (role : Role) (our peer : TransportParameters)
    (ops later : List StreamsOp) (dir : StreamDir) :
    let s := run step (Streams.new role our peer) ops
    let p := s.peerStreams dir
    let s' := run step s later
    s.liveOrdinals dir ∪ p.implicitOpen ∪ s.retiredOrdinals dir = Finset.range p.used ∧
      Disjoint (s.liveOrdinals dir) p.implicitOpen ∧
      Disjoint (s.liveOrdinals dir) (s.retiredOrdinals dir) ∧
      Disjoint p.implicitOpen (s.retiredOrdinals dir) ∧
      p.closed = (s.retiredOrdinals dir).card ∧
      p.used ≤ p.selfMax ∧ p.selfMax ≤ p.closed + p.window ∧
      (s.liveOrdinals dir).card + p.implicitOpen.card ≤ p.window ∧
      s.retiredOrdinals dir ⊆ s'.retiredOrdinals dir ∧
      Disjoint (s.retiredOrdinals dir) (s'.liveOrdinals dir) := by
  intro s p s'
  have hs : Accounted s := (Accounted.new role our peer).run ops
  obtain ⟨hbounded,l,hl⟩ := hs.books dir
  obtain ⟨l',hl'⟩ := ((hs.run later).books dir).ledger
  have hcard := l.card_add_card_add_card
  have hwindow := hbounded.le_window
  have hused := hbounded.used_le
  have hgrow : s.retiredOrdinals dir ⊆ s'.retiredOrdinals dir :=
    retiredOrdinals_subset_run s later dir
  have hapart : Disjoint (s'.retiredOrdinals dir) (s'.liveOrdinals dir) := by
    rw [← hl'.retired,← hl'.live]
    exact l'.live_retired.symm
  rw [hl.used] at hcard
  rw [← hl.closed] at hcard
  rw [← hl.live,← hl.retired]
  have hreserved : p.implicitOpen = l.reserved := hl.reserved.symm
  rw [hreserved]
  refine ⟨?_,l.live_reserved,l.live_retired,l.reserved_retired,hl.closed,hused,hwindow,?_,?_,?_⟩
  · rw [l.cover,hl.used]
  · change l.live.card + l.reserved.card ≤ (s.peerStreams dir).window
    omega
  · rw [hl.retired]
    exact hgrow
  · rw [hl.retired]
    exact hapart.mono_left hgrow
end Streams
end PureCrypto.Quic
