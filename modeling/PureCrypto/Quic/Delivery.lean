import PureCrypto.Framework.Trace
import PureCrypto.Quic.Reassembly

/-! # Delivery on one receive stream -/
namespace PureCrypto.Quic
open Fragments Trace List
inductive RecvOp
  | data (offset : Nat) (bytes : List UInt8) (fin : Bool)
  | read (len : Nat)

/-- A frame carries the bytes of `S` at its offset. -/
def RecvOp.SliceOf (S : List UInt8) : RecvOp → Prop
  | .data offset bytes _ => bytes <+: S.drop offset
  | .read _ => True

structure RecvSession where
  recv : RecvStream
  readBytes : List UInt8
  accepted : List (Nat × Nat)
namespace RecvSession
def start (maxData : Nat) : RecvSession := ⟨.new maxData, [], []⟩

def step (s : RecvSession) : RecvOp → RecvSession
  | .data offset bytes fin =>
    match s.recv.onData offset bytes fin with
    | (.ok _, r) => { s with recv := r, accepted := (offset, offset + bytes.length) :: s.accepted }
    | (.error _, r) => { s with recv := r }
  | .read len =>
    let ((bytes, _), r) := s.recv.read len
    { s with recv := r, readBytes := s.readBytes ++ bytes }

def high (s : RecvSession) : Nat := (s.accepted.map Prod.snd).foldr max 0
def Accepted (s : RecvSession) (x : Nat) : Prop := ∃ p ∈ s.accepted, p.1 ≤ x ∧ x < p.2
instance (s : RecvSession) (x : Nat) : Decidable (s.Accepted x) :=
  inferInstanceAs (Decidable (∃ p ∈ s.accepted, p.1 ≤ x ∧ x < p.2))

/-- The fragment cap drops no byte of this step's frame. -/
def Roomy (s : RecvSession) : RecvOp → Prop
  | .data offset bytes _ => offset ≤ s.recv.nextOffset ∨ bytes = [] ∨ s.recv.HasRoom offset
  | .read _ => True

instance (s : RecvSession) (op : RecvOp) : Decidable (s.Roomy op) :=
  match op with
  | .data offset bytes _ =>
    inferInstanceAs (Decidable (offset ≤ s.recv.nextOffset ∨ bytes = [] ∨ s.recv.HasRoom offset))
  | .read _ => isTrue trivial

structure Sound (S : List UInt8) (s : RecvSession) : Prop where
  buffered : s.recv.Buffered s.high
  carries : RecvStream.Carries S s.readBytes s.recv
  credit : s.high ≤ s.recv.maxData
  reading : s.recv.stopSendingSent = false
  unreset : s.recv.isReset = false

theorem sound_start (S : List UInt8) (maxData : Nat) : Sound S (start maxData) where
  buffered :=
    { tidy := Tidy.empty
      above := fun x hx => absurd hx (not_held_empty x)
      below := fun x hx => absurd hx (not_held_empty x)
      next_le := le_refl 0
      bytes := (SortedMap.sum_empty _).symm
      few := Nat.zero_le _ }
  carries := ⟨by simp [start,RecvStream.new],Nat.zero_le _,SlicesOf.empty S⟩
  credit := Nat.zero_le _
  reading := rfl
  unreset := rfl

theorem high_cons (s : RecvSession) (r : RecvStream) (a b : Nat) :
    ({ s with recv := r, accepted := (a, b) :: s.accepted } : RecvSession).high = max s.high b :=
  max_comm _ _
variable {s : RecvSession} {offset n k : Nat} {bytes S : List UInt8}
/-- A frame keeps the invariant, and with room for it what was accepted stays held. -/
theorem data_step (h : Sound S s) (fin : Bool) (hd : bytes <+: S.drop offset) :
    Sound S (s.step (.data offset bytes fin)) ∧
      (s.Roomy (.data offset bytes fin) → (∀ x, s.Accepted x → s.recv.Has x) →
        ∀ x, (s.step (.data offset bytes fin)).Accepted x → (s.step (.data offset bytes fin)).recv.Has x) := by
  rcases s.recv.onData_cases offset bytes fin with ⟨e,heq⟩ | ⟨hreset,-,-⟩ | ⟨-,hacc,heq⟩
  · simp only [step,heq]
    exact ⟨h,fun _ hhas => hhas⟩
  · rw [h.unreset] at hreset
    cases hreset
  · have hmax := max_le h.credit hacc.credit
    have hnote := RecvStream.noteFin_rest s.recv fin (offset + bytes.length)
    simp only [step,heq]
    generalize s.recv.noteFin fin (offset + bytes.length) = r at hnote
    have hb : r.Buffered s.high := h.buffered.congr (by rw [hnote]) (by rw [hnote]) (by rw [hnote])
    have hc : RecvStream.Carries S s.readBytes r :=
      h.carries.congr (by rw [hnote]) (by rw [hnote]) (by rw [hnote])
    have hstop : r.stopSendingSent = false := by rw [hnote]; exact h.reading
    have hr : max s.high (offset + bytes.length) ≤ r.maxData := by rw [hnote]; exact hmax
    have hopen : r.isReset = false := by rw [hnote]; exact h.unreset
    obtain ⟨ho,hst⟩ := RecvStream.place_outline r offset bytes fin (offset + bytes.length)
    constructor
    · refine ⟨?_,RecvStream.place_carries fin hb hr hstop hc hd,?_,?_,?_⟩
      · rw [high_cons]
        exact (RecvStream.place_placed fin hb hr hstop).buffered
      · rw [high_cons]
        exact le_of_le_of_eq hr (congrArg RecvStream.maxData ho).symm
      · exact (congrArg RecvStream.stopSendingSent ho).trans hstop
      · simp only [RecvStream.isReset] at hopen ⊢
        rcases hst with hst | hst | hst <;> rw [hst]
        · exact hopen
        · rfl
        · rfl
    · rintro hroom hhas x ⟨p,hp,hlo,hhi⟩
      rcases List.mem_cons.mp hp with rfl | hp
      · have hroom' : offset ≤ r.nextOffset ∨ bytes = [] ∨ r.HasRoom offset := by
          rw [hnote]
          exact hroom
        exact RecvStream.place_complete fin hb hr hstop hroom' hlo hhi
      · apply (RecvStream.place_placed fin hb hr hstop).has
        rw [hnote]
        exact hhas x ⟨p,hp,hlo,hhi⟩

theorem sound_read (h : Sound S s) (len : Nat) : Sound S (s.step (.read len)) := by
  obtain ⟨st,hst,hbytes,hrest⟩ := s.recv.read_spec len
  have hstep : s.step (.read len) =
      { s with recv := (s.recv.read len).2, readBytes := s.readBytes ++ (s.recv.read len).1.1 } := rfl
  rw [hstep,hbytes,hrest]
  refine ⟨h.buffered.congr rfl rfl rfl,⟨?_,h.carries.next_le,h.carries.slices⟩,h.credit,h.reading,?_⟩
  · simp only [append_assoc,take_append_drop]
    exact h.carries.prefix_eq
  · have hopen := h.unreset
    rcases hst with hst | hst <;> rw [hst]
    · exact hopen
    · rfl

theorem sound_step (s : RecvSession) (op : RecvOp) (h : Sound S s) (hop : op.SliceOf S) : Sound S (s.step op) := by
  cases op with
  | data offset bytes fin => exact (data_step h fin hop).1
  | read len => exact sound_read h len

theorem sound_run (maxData : Nat) {ops : List RecvOp} (h : ∀ op ∈ ops, op.SliceOf S) :
    Sound S (run step (start maxData) ops) :=
  (Along.of_forall _ h).invariant sound_step (sound_start S maxData)

structure Reassembled (S : List UInt8) (s : RecvSession) : Prop where
  delivered : s.readBytes ++ s.recv.delivered = S.take s.recv.nextOffset
  released : s.recv.nextOffset ≤ S.length
  slices : ∀ e ∈ s.recv.pending.entries, e.2 <+: S.drop e.1
  disjoint : ∀ e ∈ s.recv.pending.entries, ∀ e' ∈ s.recv.pending.entries, e ≠ e' →
    e.1 + e.2.length ≤ e'.1 ∨ e'.1 + e'.2.length ≤ e.1
  above : ∀ e ∈ s.recv.pending.entries, s.recv.nextOffset < e.1
  bytes : s.recv.pendingBytes = (s.recv.pending.entries.map (fun e => e.2.length)).sum
  extent : s.recv.pendingBytes + s.recv.nextOffset ≤ s.high
  few : s.recv.pending.entries.length ≤ maxPendingFragments

theorem reassembled_run (S : List UInt8) (maxData : Nat) (ops : List RecvOp)
    (hops : ∀ op ∈ ops, op.SliceOf S) : Reassembled S (run step (start maxData) ops) := by
  have h := sound_run maxData hops
  have hb := h.buffered
  refine ⟨h.carries.prefix_eq,h.carries.next_le,h.carries.slices,?_,?_,hb.bytes,?_,hb.few⟩
  · intro e he e' he' hne
    exact hb.tidy.disjoint he he' hne
  · intro e he
    exact hb.above e.1 (hb.tidy.held_start he)
  · rw [hb.bytes]
    refine hb.tidy.totalLength_le hb.next_le ?_
    intro x hx
    exact ⟨le_of_lt (hb.above x hx),hb.below x hx⟩

/-- A frame behind a gap, one that overlaps it on both sides, a read and the missing prefix. -/
theorem reassembled_run_overlap : Reassembled [10, 11, 12, 13, 14, 15]
      (run step (start 100) [.data 3 [13] false, .data 2 [12, 13, 14] false, .read 4,
        .data 0 [10, 11] false, .read 2, .data 5 [15] true]) :=
  reassembled_run _ _ _ (by
    intro op hop
    simp only [List.mem_cons,not_mem_nil,or_false] at hop
    rcases hop with rfl | rfl | rfl | rfl | rfl | rfl <;> simp [RecvOp.SliceOf])

/-- The stream has every byte of every accepted frame. -/
structure Complete (S : List UInt8) (s : RecvSession) : Prop extends Sound S s where
  has : ∀ x, s.Accepted x → s.recv.Has x

theorem complete_step (s : RecvSession) (op : RecvOp) (h : Complete S s)
    (hop : op.SliceOf S ∧ s.Roomy op) : Complete S (s.step op) := by
  cases op with
  | data offset bytes fin =>
    obtain ⟨hsound,hhas⟩ := data_step h.toSound fin hop.1
    exact ⟨hsound,hhas hop.2 h.has⟩
  | read len =>
    refine ⟨sound_read h.toSound len,?_⟩
    obtain ⟨st,-,-,hrest⟩ := s.recv.read_spec len
    intro x hx
    change (s.recv.read len).2.Has x
    rw [hrest]
    exact h.has x hx

/-- A stream that has all of `[0, n)` has released it: a fragment starts past `nextOffset`. -/
theorem Complete.released (h : Complete S s) (hcov : ∀ x, x < n → s.Accepted x) : n ≤ s.recv.nextOffset := by
  by_contra hlt
  rcases h.has s.recv.nextOffset (hcov _ (by omega)) with hx | hx
  · exact absurd hx (lt_irrefl _)
  · exact absurd (h.buffered.above _ hx) (lt_irrefl _)

theorem accepted_prefix_delivered (S : List UInt8) (maxData : Nat) (ops : List RecvOp)
    (hops : ∀ op ∈ ops, op.SliceOf S) (hroom : Along step Roomy (start maxData) ops) (n : Nat)
    (hcov : ∀ x, x < n → (run step (start maxData) ops).Accepted x) :
    n ≤ (run step (start maxData) ops).recv.nextOffset ∧ ((run step (start maxData) ops).readBytes ++
        (run step (start maxData) ops).recv.delivered).take n = S.take n := by
  have h0 : Complete S (start maxData) :=
    ⟨sound_start S maxData,fun x hx => absurd hx (by simp [Accepted,start])⟩
  have h := ((Along.of_forall _ hops).and hroom).invariant complete_step h0
  have hn := h.released hcov
  refine ⟨hn,?_⟩
  rw [h.carries.prefix_eq,take_take,min_eq_left hn]

private def swappedTrace : List RecvOp :=
  [.data 2 [12, 13] false, .read 1, .data 0 [10, 11, 12] false]

theorem accepted_prefix_delivered_swapped : 4 ≤ (run step (start 100) swappedTrace).recv.nextOffset ∧
      ((run step (start 100) swappedTrace).readBytes ++
        (run step (start 100) swappedTrace).recv.delivered).take 4 = [10, 11, 12, 13] :=
  accepted_prefix_delivered [10, 11, 12, 13] 100 swappedTrace
    (by simp [swappedTrace,RecvOp.SliceOf]) (by decide +kernel) 4 (by decide +kernel)

private def oddFrame (i : Nat) : RecvOp := .data (2 * i + 1) [0] false
private def oddFragments : Nat → SortedMap Nat (List UInt8)
  | 0 => .empty
  | k + 1 => (oddFragments k).insert (2 * k + 1) [0]

private theorem oddFragments_ends (k : Nat) : ∀ e ∈ (oddFragments k).entries, e.1 + e.2.length < 2 * k + 1 := by
  induction k with
  | zero =>
    intro e he
    exact absurd he not_mem_nil
  | succ k ih =>
    intro e he
    rcases ((oddFragments k).mem_insert (2 * k + 1) [0] e).mp he with rfl | ⟨he,-⟩
    · simp only [length_singleton]
      omega
    · have := ih e he
      omega

private theorem oddFragments_length (k : Nat) : (oddFragments k).length = k := by
  induction k with
  | zero => rfl
  | succ k ih =>
    have hnew : (oddFragments k).get? (2 * k + 1) = none := by
      rw [SortedMap.get?_eq_none_iff]
      intro e he hkey
      have := oddFragments_ends k e he
      omega
    rw [oddFragments,SortedMap.length_insert_new _ _ hnew,ih]

/-- The stream once `k` odd frames have been buffered. -/
private def oddRecv (k : Nat) : RecvStream :=
  { RecvStream.new 1000 with pending := oddFragments k, pendingBytes := k }

private theorem oddRecv_store (hk : k ≤ maxPendingFragments) :
    (oddRecv k).storeOutOfOrder (2 * k + 1) [0] =
      if maxPendingFragments ≤ k then oddRecv k else oddRecv (k + 1) := by
  have hk : k ≤ 128 := hk
  rw [RecvStream.storeOutOfOrder_after (by simp) (oddFragments_ends k) ?_]
  · simp [oddRecv,oddFragments_length,oddFragments]
  · simp only [oddRecv,RecvStream.new,length_singleton]
    omega

private theorem oddRecv_place (offset : Nat) (data : List UInt8) (hle : offset + data.length ≤ 1000) :
    (oddRecv k).onData offset data false = (.ok ((oddRecv k).place offset data false (offset + data.length)).1,
        ((oddRecv k).place offset data false (offset + data.length)).2) :=
  RecvStream.onData_open (lt_of_le_of_lt hle (by decide)) rfl hle rfl

/-- The cap turns the last odd frame away, and the call still succeeds. -/
private theorem oddRecv_onData (hk : k ≤ maxPendingFragments) :
    (oddRecv k).onData (2 * k + 1) [0] false =
      (.ok 0, if maxPendingFragments ≤ k then oddRecv k else oddRecv (k + 1)) := by
  have hle : k ≤ 128 := hk
  have hsettle : ∀ j, (oddRecv j).settleFin = oddRecv j := fun j => rfl
  have hplace : (oddRecv k).place (2 * k + 1) [0] false (2 * k + 2) =
      (0, ((oddRecv k).storeOutOfOrder (2 * k + 1) [0]).settleFin) := by
    simp [RecvStream.place,oddRecv,RecvStream.new]
  rw [oddRecv_place _ _ (by simp only [length_singleton]; omega),length_singleton,hplace,oddRecv_store hk]
  by_cases hcap : maxPendingFragments ≤ k
  · simp [if_pos hcap,hsettle]
  · simp [if_neg hcap,hsettle]

private theorem oddFrames_run (hk : k ≤ maxPendingFragments) : run step (start 1000) ((List.range k).map oddFrame) =
      { recv := oddRecv k
        readBytes := []
        accepted := ((List.range k).map (fun i => (2 * i + 1, 2 * i + 2))).reverse } := by
  induction k with
  | zero => rfl
  | succ k ih =>
    have hcap : ¬ maxPendingFragments ≤ k := by omega
    rw [List.range_succ,map_append,run_append,ih (by omega)]
    simp [oddFrame,step,oddRecv_onData (show k ≤ maxPendingFragments by omega),if_neg hcap]

private theorem replicate_slice (len : Nat) (h : offset + len ≤ n) :
    List.replicate len (0 : UInt8) <+: (List.replicate n 0).drop offset := by
  rw [drop_replicate]
  exact ⟨List.replicate (n - offset - len) 0,by rw [replicate_append_replicate]; congr 1; omega⟩

private theorem oddFrames_slices (h : 2 * k ≤ n) :
    ∀ op ∈ (List.range k).map oddFrame, op.SliceOf (List.replicate n 0) := by
  intro op hop
  obtain ⟨i,hi,rfl⟩ := List.mem_map.mp hop
  have hi := List.mem_range.mp hi
  exact replicate_slice 1 (by omega)

/-- Filling every offset below the next odd one releases exactly those. -/
private theorem oddRecv_fill (hk : k ≤ maxPendingFragments) (data : List UInt8) (hlen : data.length = 2 * k + 1) :
    ∃ n r, (oddRecv k).onData 0 data false = (.ok n, r) ∧ r.nextOffset = 2 * k + 1 := by
  have hle : k ≤ 128 := hk
  have hb := (sound_run 1000 (oddFrames_slices (k := k) (le_refl _))).buffered
  rw [oddFrames_run hk] at hb
  obtain ⟨hb',hhas⟩ := RecvStream.appendInOrder_buffered _ data _ hb
  have hplace : ((oddRecv k).place 0 data false (0 + data.length)).2 =
      ((oddRecv k).appendInOrder data).settleFin := rfl
  refine ⟨_,_,oddRecv_place 0 data (by omega),?_⟩
  rw [hplace,RecvStream.settleFin_rest]
  refine hb'.next_eq ?_ ?_
  · intro x hx
    rw [hhas x]
    exact .inr ⟨Nat.zero_le x,by omega⟩
  · rw [hhas]
    intro h
    rcases h with (h | ⟨e,he,h⟩) | h
    · exact absurd h (Nat.not_lt_zero _)
    · have hend := oddFragments_ends k e he
      omega
    · simp only [oddRecv,RecvStream.new] at h
      omega

/-- One frame more than the list holds, then every offset below the dropped one. -/
private def cappedTrace : List RecvOp :=
  (List.range maxPendingFragments).map oddFrame ++
    [oddFrame maxPendingFragments, .data 0 (List.replicate (2 * maxPendingFragments + 1) 0) false]

theorem accepted_byte_lost : (∀ op ∈ cappedTrace, op.SliceOf (List.replicate 258 0)) ∧
      (run step (start 1000) cappedTrace).accepted.length = cappedTrace.length ∧
      (∀ x, x < 258 → (run step (start 1000) cappedTrace).Accepted x) ∧
      (run step (start 1000) cappedTrace).recv.nextOffset = 257 := by
  obtain ⟨n,r,hfill,hnext⟩ := oddRecv_fill (le_refl maxPendingFragments)
    (List.replicate (2 * maxPendingFragments + 1) 0) length_replicate
  have hrun : run step (start 1000) cappedTrace =
      { recv := r
        readBytes := []
        accepted := (0, 257) :: (257, 258) ::
          ((List.range maxPendingFragments).map (fun i => (2 * i + 1, 2 * i + 2))).reverse } := by
    rw [cappedTrace,run_append,oddFrames_run (le_refl _)]
    simp only [run_cons,run_nil,oddFrame,step,oddRecv_onData (le_refl _),if_pos (le_refl _),hfill,
      length_replicate,length_singleton]
    rfl
  rw [hrun]
  refine ⟨?_,?_,?_,hnext⟩
  · intro op hop
    rcases List.mem_append.mp hop with hop | hop
    · exact oddFrames_slices (by decide) op hop
    · rcases mem_pair.mp hop with rfl | rfl
      · exact replicate_slice 1 (by decide)
      · exact replicate_slice _ (by decide)
  · simp [cappedTrace,length_nil]
  · intro x hx
    by_cases h : x < 257
    · exact ⟨(0, 257),by simp,Nat.zero_le x,h⟩
    · exact ⟨(257, 258),by simp,by omega,hx⟩
end RecvSession
end PureCrypto.Quic
