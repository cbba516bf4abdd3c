import PureCrypto.Framework.Fragments
import PureCrypto.Quic.RecvStream

/-! # Reassembly in the receive half -/
namespace PureCrypto.Quic
open Fragments List
namespace RecvStream
/-- The stream has the byte at `x`, released or buffered. -/
def Has (r : RecvStream) (x : Nat) : Prop := x < r.nextOffset ∨ Held r.pending x

/-- The fragment bookkeeping; no accepted frame ended past `high`. -/
structure Buffered (r : RecvStream) (high : Nat) : Prop where
  tidy : Tidy r.pending
  above : ∀ x, Held r.pending x → r.nextOffset < x
  below : ∀ x, Held r.pending x → x < high
  next_le : r.nextOffset ≤ high
  bytes : r.pendingBytes = totalLength r.pending
  few : r.pending.length ≤ maxPendingFragments
variable {high pOff cursor x : Nat} {S past : List UInt8}
theorem Buffered.mono {r : RecvStream} {high' : Nat} (h : r.Buffered high) (hle : high ≤ high') : r.Buffered high' :=
  ⟨h.tidy,h.above,fun x hx => lt_of_lt_of_le (h.below x hx) hle,le_trans h.next_le hle,
    h.bytes,h.few⟩

theorem Buffered.next_eq {r : RecvStream} {n : Nat} (hb : r.Buffered high)
    (hhas : ∀ x, x < n → r.Has x) (hn : ¬ r.Has n) : r.nextOffset = n := by
  have hge : n ≤ r.nextOffset := by
    by_contra hlt
    rcases hhas r.nextOffset (by omega) with hx | hx
    · exact absurd hx (lt_irrefl _)
    · exact absurd (hb.above _ hx) (lt_irrefl _)
  by_contra hne
  exact hn (.inl (by omega))

/-- Everything received is the matching part of `S`; `past` are the bytes read before. -/
structure Carries (S past : List UInt8) (r : RecvStream) : Prop where
  prefix_eq : past ++ r.delivered = S.take r.nextOffset
  next_le : r.nextOffset ≤ S.length
  slices : SlicesOf S r.pending

/-- Everything but the reassembly buffer and the state. -/
def outline (r : RecvStream) : RecvStream :=
  { r with state := .recv, delivered := [], nextOffset := 0, pending := .empty, pendingBytes := 0 }

/-- A round of the loop drops a fragment, or releases the bytes it has past `nextOffset`. -/
theorem absorb_induction {P : RecvStream → Prop}
    (hdrop : ∀ r pOff frag, (pOff, frag) ∈ r.pending.entries → pOff + frag.length ≤ r.nextOffset →
      P r → P { r with
        pending := r.pending.erase pOff
        pendingBytes := r.pendingBytes - frag.length })
    (htake : ∀ r pOff frag, (pOff, frag) ∈ r.pending.entries → pOff ≤ r.nextOffset →
      r.nextOffset < pOff + frag.length → P r → P { r with
        pending := r.pending.erase pOff
        pendingBytes := r.pendingBytes - frag.length
        delivered := r.delivered ++ frag.drop (r.nextOffset - pOff)
        nextOffset := pOff + frag.length }) (r : RecvStream) (h : P r) :
    P (r.absorb r.pending.entries) := by
  generalize hl : r.pending.entries = l
  induction l generalizing r with
  | nil => exact h
  | cons e rest ih =>
    obtain ⟨pOff,frag⟩ := e
    have hmem : (pOff, frag) ∈ r.pending.entries := hl ▸ mem_cons_self
    have hrest : (r.pending.erase pOff).entries = rest := erase_head r.pending hl
    simp only [absorb]
    split_ifs with hle hcov
    · exact ih _ (hdrop r pOff frag hmem hcov h) hrest
    · exact ih _ (htake r pOff frag hmem hle (not_le.mp hcov) h) hrest
    · exact h
section
variable (r : RecvStream)
theorem absorb_above : ∀ e ∈ (r.absorb r.pending.entries).pending.entries,
    (r.absorb r.pending.entries).nextOffset < e.1 := by
  generalize hl : r.pending.entries = l
  induction l generalizing r with
  | nil =>
    intro e he
    rw [absorb,hl] at he
    cases he
  | cons e rest ih =>
    obtain ⟨pOff,frag⟩ := e
    have hrest : (r.pending.erase pOff).entries = rest := erase_head r.pending hl
    simp only [absorb]
    split_ifs with hle hcov
    · exact ih _ hrest
    · exact ih _ hrest
    · -- the first key is already past `nextOffset`, so every key is
      intro e he
      have hs := r.pending.sorted
      rw [hl] at hs he
      rcases List.mem_cons.mp he with rfl | he
      · exact not_le.mp hle
      · exact (not_le.mp hle).trans ((pairwise_cons.mp hs).1 e he)

theorem absorb_outline : (r.absorb r.pending.entries).outline = r.outline ∧
      (r.absorb r.pending.entries).state = r.state :=
  absorb_induction (P := fun q => q.outline = r.outline ∧ q.state = r.state)
    (fun _ _ _ _ _ h => h) (fun _ _ _ _ _ _ h => h) r ⟨rfl,rfl⟩

/-- The books of `r` while its fragments are absorbed. -/
private structure Absorbing (r : RecvStream) (high : Nat) (q : RecvStream) : Prop where
  tidy : Tidy q.pending
  below : ∀ x, Held q.pending x → x < high
  next_le : q.nextOffset ≤ high
  bytes : q.pendingBytes = totalLength q.pending
  few : q.pending.length ≤ maxPendingFragments
  has : ∀ x, q.Has x ↔ r.Has x

private theorem Absorbing.erase {r q : RecvStream} {next : Nat} {frag delivered : List UInt8}
    (h : Absorbing r high q) (hmem : (pOff, frag) ∈ q.pending.entries) (hle : pOff ≤ q.nextOffset)
    (hnext : max q.nextOffset (pOff + frag.length) = next) :
    Absorbing r high { q with
      pending := q.pending.erase pOff
      pendingBytes := q.pendingBytes - frag.length
      delivered := delivered
      nextOffset := next } := by
  have htot := totalLength_erase q.pending hmem
  have hlen := q.pending.length_erase_of_get? ((q.pending.get?_eq_some_iff pOff frag).mpr hmem)
  have hpos := h.tidy.length_pos hmem
  have hlast := h.below _ (h.tidy.held_last hmem)
  have hold := h.next_le
  have hbytes := h.bytes
  have hfew := h.few
  simp only at hpos hlast
  refine ⟨h.tidy.erase pOff,?_,?_,?_,?_,?_⟩
  · intro x hx
    exact h.below x ((Tidy.held_iff_erase hmem x).mpr (.inl hx))
  · simp only
    omega
  · simp only
    omega
  · simp only
    omega
  · intro x
    rw [← h.has x,← hnext]
    exact lt_max_or_held_erase hmem hle x

theorem absorb_buffered (high : Nat) (htidy : Tidy r.pending)
    (hbelow : ∀ x, Held r.pending x → x < high) (hnext : r.nextOffset ≤ high)
    (hbytes : r.pendingBytes = totalLength r.pending)
    (hfew : r.pending.length ≤ maxPendingFragments) : (r.absorb r.pending.entries).Buffered high ∧
      ∀ x, (r.absorb r.pending.entries).Has x ↔ r.Has x := by
  have h : Absorbing r high (r.absorb r.pending.entries) := by
    apply absorb_induction
    · intro q pOff frag hmem hcov h
      exact h.erase hmem (by omega) (max_eq_left hcov)
    · intro q pOff frag hmem hle hlt h
      exact h.erase hmem hle (max_eq_right (le_of_lt hlt))
    · exact ⟨htidy,hbelow,hnext,hbytes,hfew,fun x => Iff.rfl⟩
  refine ⟨⟨h.tidy,?_,h.below,h.next_le,h.bytes,h.few⟩,h.has⟩
  rintro x ⟨e,he,hx⟩
  exact (absorb_above r e he).trans_le hx.1

theorem absorb_carries (hc : Carries S past r) : Carries S past (r.absorb r.pending.entries) := by
  apply absorb_induction _ _ r hc
  · intro r pOff frag hmem hcov hc
    exact ⟨hc.prefix_eq,hc.next_le,hc.slices.erase pOff⟩
  · intro r pOff frag hmem hle hlt hc
    obtain ⟨htake,hend⟩ :=
      take_append_drop_slice hc.next_le (hc.slices _ hmem) hle (le_of_lt hlt)
    refine ⟨?_,hend,hc.slices.erase pOff⟩
    rw [← append_assoc,hc.prefix_eq]
    exact htake

theorem appendInOrder_buffered (data : List UInt8) (high : Nat) (hb : r.Buffered high) :
    (r.appendInOrder data).Buffered (max high (r.nextOffset + data.length)) ∧ ∀ x, (r.appendInOrder data).Has x ↔
        r.Has x ∨ (r.nextOffset ≤ x ∧ x < r.nextOffset + data.length) := by
  have hspec := absorb_buffered
    { r with
      delivered := r.delivered ++ data
      nextOffset := r.nextOffset + data.length }
    (max high (r.nextOffset + data.length)) hb.tidy
    (fun x hx => lt_of_lt_of_le (hb.below x hx) (le_max_left _ _)) (le_max_right _ _)
    hb.bytes hb.few
  refine ⟨hspec.1,fun x => (hspec.2 x).trans ?_⟩
  simp only [Has]
  rw [or_right_comm]
  apply or_congr_left
  omega
end
theorem appendInOrder_carries (S past : List UInt8) (r : RecvStream) (data : List UInt8)
    (hc : Carries S past r) (hd : data <+: S.drop r.nextOffset) : Carries S past (r.appendInOrder data) := by
  have happ := take_append_slice hc.next_le hd
  refine absorb_carries _ ⟨?_,happ.2,hc.slices⟩
  rw [← append_assoc,hc.prefix_eq]
  exact happ.1
variable {r r' : RecvStream} {high offset newEnd : Nat} {data : List UInt8} {p : Nat × Nat}
  {ps : List (Nat × Nat)} {l : List (Nat × List UInt8)}
private def heldBy (l : List (Nat × List UInt8)) (x : Nat) : Prop :=
  ∃ e ∈ l, e.1 ≤ x ∧ x < e.1 + e.2.length

private def inPieces (ps : List (Nat × Nat)) (x : Nat) : Prop := ∃ p ∈ ps, p.1 ≤ x ∧ x < p.2

/-- What the walk over the fragments of a frame relies on. -/
private structure Walkable (newEnd : Nat) (l : List (Nat × List UInt8)) : Prop where
  apart : l.Pairwise (fun a b => a.1 + a.2.length ≤ b.1)
  inside : ∀ e ∈ l, e.1 < newEnd

private theorem Walkable.tail {e : Nat × List UInt8} (h : Walkable newEnd (e :: l)) : Walkable newEnd l :=
  ⟨(pairwise_cons.mp h.apart).2,fun e he => h.inside e (mem_cons_of_mem _ he)⟩

/-- The early exit of the walk changes nothing: past `newEnd` no fragment is left. -/
private theorem uncovered_cons {pData : List UInt8} {rest : List (Nat × List UInt8)}
    (h : Walkable newEnd ((pOff, pData) :: rest)) :
    uncovered newEnd cursor ((pOff, pData) :: rest) =
      if pOff + pData.length ≤ cursor then uncovered newEnd cursor rest
      else (if cursor < pOff then [(cursor, pOff)] else []) ++
        uncovered newEnd (pOff + pData.length) rest := by
  have hlater : (if newEnd ≤ pOff + pData.length then []
      else uncovered newEnd (pOff + pData.length) rest) =
        uncovered newEnd (pOff + pData.length) rest := by
    by_cases hstop : newEnd ≤ pOff + pData.length
    · cases rest with
      | nil => simp [uncovered,hstop]
      | cons e rest =>
        have hle := (pairwise_cons.mp h.apart).1 e (by simp)
        have hlt := h.inside e (by simp)
        simp only at hle
        omega
    · rw [if_neg hstop]
  simp only [uncovered]
  rw [hlater]
  split_ifs <;> rfl

/-- The uncovered pieces are the gaps between the fragments. -/
private theorem uncovered_mem (cursor : Nat) (hl : Walkable newEnd l) (x : Nat) :
    inPieces (uncovered newEnd cursor l) x ↔ cursor ≤ x ∧ x < newEnd ∧ ¬ heldBy l x := by
  induction l generalizing cursor with
  | nil =>
    by_cases h : cursor < newEnd
    · simp [uncovered,h,inPieces,heldBy]
    · simp only [uncovered,h,inPieces,heldBy,if_false,not_mem_nil,false_and,
        exists_false,not_false_eq_true,and_true,false_iff]
      omega
  | cons e rest ih =>
    obtain ⟨pOff,pData⟩ := e
    have hoff : pOff < newEnd := hl.inside (pOff, pData) (by simp)
    have hheld : heldBy ((pOff, pData) :: rest) x ↔
        (pOff ≤ x ∧ x < pOff + pData.length) ∨ heldBy rest x := by
      simp [heldBy]
    have hafter : heldBy rest x → pOff + pData.length ≤ x := by
      intro h
      obtain ⟨e,he,hx⟩ := h
      exact le_trans ((pairwise_cons.mp hl.apart).1 e he) hx.1
    rw [uncovered_cons hl,hheld]
    by_cases hskip : pOff + pData.length ≤ cursor
    · rw [if_pos hskip,ih cursor hl.tail]
      constructor
      · intro h
        exact ⟨h.1,h.2.1,fun hx => hx.elim (by omega) h.2.2⟩
      · intro h
        exact ⟨h.1,h.2.1,fun hx => h.2.2 (.inr hx)⟩
    · have hsplit : inPieces ((if cursor < pOff then [(cursor, pOff)] else []) ++
          uncovered newEnd (pOff + pData.length) rest) x ↔ (cursor ≤ x ∧ x < pOff) ∨
            inPieces (uncovered newEnd (pOff + pData.length) rest) x := by
        by_cases hgap : cursor < pOff
        · simp [hgap,inPieces]
        · simp only [hgap,if_false,nil_append]
          exact (or_iff_right (by omega)).symm
      rw [if_neg hskip,hsplit,ih _ hl.tail]
      constructor
      · intro h
        rcases h with h | h
        · exact ⟨h.1,by omega,fun hx => hx.elim (by omega)
            (fun hr => by have := hafter hr; omega)⟩
        · exact ⟨by omega,h.2.1,fun hx => hx.elim (by omega) h.2.2⟩
      · intro h
        by_cases hx : x < pOff
        · exact .inl ⟨h.1,hx⟩
        · refine .inr ⟨?_,h.2.1,fun hr => h.2.2 (.inr hr)⟩
          by_contra hlt
          exact h.2.2 (.inl ⟨by omega,by omega⟩)

private theorem uncovered_ordered (cursor : Nat) (hl : Walkable newEnd l) :
    (uncovered newEnd cursor l).Pairwise (fun p q => p.2 ≤ q.1) ∧
      ∀ p ∈ uncovered newEnd cursor l, cursor ≤ p.1 ∧ p.1 < p.2 ∧ p.2 ≤ newEnd := by
  induction l generalizing cursor with
  | nil =>
    by_cases h : cursor < newEnd
    · simp [uncovered,h]
    · simp [uncovered,h]
  | cons e rest ih =>
    obtain ⟨pOff,pData⟩ := e
    have hoff : pOff < newEnd := hl.inside (pOff, pData) (by simp)
    rw [uncovered_cons hl]
    by_cases hskip : pOff + pData.length ≤ cursor
    · rw [if_pos hskip]
      exact ih cursor hl.tail
    · rw [if_neg hskip]
      obtain ⟨hord,hbnd⟩ := ih (pOff + pData.length) hl.tail
      by_cases hgap : cursor < pOff
      · rw [if_pos hgap]
        refine ⟨pairwise_cons.mpr ⟨?_,hord⟩,?_⟩
        · intro p hp
          have hb := hbnd p hp
          omega
        · refine forall_mem_cons.mpr ⟨⟨le_refl _,hgap,le_of_lt hoff⟩,fun p hp => ?_⟩
          have hb := hbnd p hp
          exact ⟨by omega,hb.2⟩
      · rw [if_neg hgap]
        refine ⟨hord,fun p hp => ?_⟩
        have hb := hbnd p hp
        exact ⟨by omega,hb.2⟩

/-- Past the first piece, every piece starts where a fragment ends. -/
private theorem uncovered_adjacent (cursor : Nat) (hl : Walkable newEnd l) :
    ∀ p ∈ uncovered newEnd cursor l, p.1 = cursor ∨ ∃ e ∈ l, e.1 + e.2.length = p.1 := by
  induction l generalizing cursor with
  | nil =>
    intro p hp
    by_cases h : cursor < newEnd
    · simp only [uncovered,h,if_true,List.mem_singleton] at hp
      exact .inl (by rw [hp])
    · simp [uncovered,h] at hp
  | cons e rest ih =>
    obtain ⟨pOff,pData⟩ := e
    intro p hp
    have hlift : ∀ c, p ∈ uncovered newEnd c rest →
        p.1 = c ∨ ∃ e ∈ (pOff, pData) :: rest, e.1 + e.2.length = p.1 := by
      intro c hc
      rcases ih c hl.tail p hc with h | ⟨e,he,h⟩
      · exact .inl h
      · exact .inr ⟨e,mem_cons_of_mem _ he,h⟩
    rw [uncovered_cons hl] at hp
    by_cases hskip : pOff + pData.length ≤ cursor
    · rw [if_pos hskip] at hp
      exact hlift cursor hp
    · rw [if_neg hskip] at hp
      rcases List.mem_append.mp hp with hp | hp
      · by_cases hgap : cursor < pOff
        · rw [if_pos hgap,List.mem_singleton] at hp
          exact .inl (by rw [hp])
        · simp [hgap] at hp
      · rcases hlift _ hp with h | h
        · exact .inr ⟨(pOff, pData),by simp,h.symm⟩
        · exact .inr h

private theorem walk_walkable (r : RecvStream) (hm : Tidy r.pending) (offset newEnd : Nat) :
    Walkable newEnd (r.walk offset newEnd) := by
  refine ⟨(r.pending.range_sorted _ _).imp_of_mem ?_,?_⟩
  · intro a b ha hb hab
    exact hm.apart a ((r.pending.mem_range _ _ a).mp ha).1 b ((r.pending.mem_range _ _ b).mp hb).1 hab
  · intro e he
    exact ((r.pending.mem_range _ _ e).mp he).2.2

/-- The walk misses no fragment that holds an offset of the frame. -/
private theorem walk_heldBy (r : RecvStream) (hm : Tidy r.pending) (hlo : offset ≤ x)
    (hhi : x < newEnd) : heldBy (r.walk offset newEnd) x ↔ Held r.pending x := by
  constructor
  · intro h
    obtain ⟨e,he,hx⟩ := h
    exact ⟨e,((r.pending.mem_range _ _ e).mp he).1,hx⟩
  · intro h
    obtain ⟨e,he,hx⟩ := h
    refine ⟨e,(r.pending.mem_range _ _ e).mpr ⟨he,?_,by omega⟩,hx⟩
    cases hlast : r.pending.lastLE offset with
    | none =>
      have hafter := (r.pending.lastLE_eq_none_iff offset).mp hlast e he
      simp only
      omega
    | some f =>
      obtain ⟨hf,hfle,-⟩ := (r.pending.lastLE_eq_some_iff offset f).mp hlast
      simp only
      by_contra hlt
      have hapart := hm.apart e he f hf (by omega)
      omega

private def pieceBytes (offset : Nat) (data : List UInt8) (p : Nat × Nat) : List UInt8 :=
  (data.drop (p.1 - offset)).take (p.2 - p.1)

private theorem pieceBytes_slice (hlo : offset ≤ p.1) (hd : data <+: S.drop offset) :
    pieceBytes offset data p <+: S.drop p.1 := by
  have h := slice_drop (p.1 - offset) hd
  rw [Nat.add_sub_cancel' hlo] at h
  exact (List.take_prefix _ _).trans h

/-- A piece that can be stored: inside the frame, past `nextOffset`, on free offsets. -/
private structure Fits (r : RecvStream) (high offset : Nat) (data : List UInt8) (p : Nat × Nat) :
    Prop where
  start : offset ≤ p.1
  pos : p.1 < p.2
  stop : p.2 ≤ offset + data.length
  free : ∀ x, p.1 ≤ x → x < p.2 → ¬ Held r.pending x
  ahead : r.nextOffset < offset
  below : offset + data.length ≤ high

private theorem Fits.length (h : Fits r high offset data p) : p.1 + (pieceBytes offset data p).length = p.2 := by
  have h1 := h.start
  have h2 := h.pos
  have h3 := h.stop
  simp only [pieceBytes,length_take,length_drop]
  omega

/-- `r'` is `r` with one more piece, extending a fragment or as a new one. -/
private structure Stored (r r' : RecvStream) (p : Nat × Nat) (bs : List UInt8) : Prop where
  adds : Adds r.pending r'.pending p.1 bs
  rest : r' = { r with pending := r'.pending, pendingBytes := r.pendingBytes + bs.length }
  few : r'.pending.length ≤ maxPendingFragments

/-- Whatever way a piece is added, the fragments stay within the extent `high`. -/
private theorem Fits.total_le (h : Fits r high offset data p) (hb : r.Buffered high)
    {m : SortedMap Nat (List UInt8)} (ha : Adds r.pending m p.1 (pieceBytes offset data p)) :
    (∀ x, Held m x → r.nextOffset < x ∧ x < high) ∧ totalLength m + r.nextOffset ≤ high := by
  have hbound : ∀ x, Held m x → r.nextOffset < x ∧ x < high := by
    intro x hx
    rcases (ha.held x).mp hx with hx | hx
    · exact ⟨hb.above x hx,hb.below x hx⟩
    · rw [h.length] at hx
      have h1 := h.start
      have h2 := h.stop
      have h3 := h.ahead
      have h4 := h.below
      omega
  refine ⟨hbound,ha.tidy.totalLength_le hb.next_le ?_⟩
  intro x hx
  have hx := hbound x hx
  omega

private theorem Stored.buffered (hs : Stored r r' p (pieceBytes offset data p))
    (h : Fits r high offset data p) (hb : r.Buffered high) : r'.Buffered high := by
  have hbound := (h.total_le hb hs.adds).1
  have hnext : r'.nextOffset = r.nextOffset := by rw [hs.rest]
  have hbytes : r'.pendingBytes = r.pendingBytes + (pieceBytes offset data p).length := by
    rw [hs.rest]
  refine ⟨hs.adds.tidy,?_,fun x hx => (hbound x hx).2,?_,?_,hs.few⟩
  · rw [hnext]
    exact fun x hx => (hbound x hx).1
  · rw [hnext]
    exact hb.next_le
  · rw [hbytes,hb.bytes,hs.adds.total]

/-- Storing a piece fails at the fragment cap only, where no fragment ends at its start. -/
private theorem storePiece_cases (hb : r.Buffered high) (hmax : high ≤ r.maxData) (h : Fits r high offset data p) :
    (∃ r', storePiece offset data r p = some r' ∧ Stored r r' p (pieceBytes offset data p)) ∨
      (storePiece offset data r p = none ∧ maxPendingFragments ≤ r.pending.length ∧
        ∀ e ∈ r.pending.entries, e.1 + e.2.length ≠ p.1) := by
  have hlen := h.length
  have hpos := h.pos
  have hfree : ∀ x, p.1 ≤ x → x < p.1 + (pieceBytes offset data p).length → ¬ Held r.pending x := by
    rw [hlen]
    exact h.free
  have hne : pieceBytes offset data p ≠ [] := length_pos_iff.mp (by omega)
  have hins := hb.tidy.adds_insert hne hfree
  have hbudget : ¬ (r.maxData - r.nextOffset < r.pendingBytes + (pieceBytes offset data p).length) := by
    have htot := (h.total_le hb hins).2
    rw [hins.total,← hb.bytes] at htot
    omega
  obtain ⟨pStart,pEnd⟩ := p
  simp only [pieceBytes] at *
  simp only [storePiece]
  rw [if_neg hbudget]
  cases hadj : (r.pending.lastLT pStart).filter (fun e => e.1 + e.2.length == pStart) with
  | some e =>
    obtain ⟨hlast,hend⟩ := Option.filter_eq_some_iff.mp hadj
    have he := ((r.pending.lastLT_eq_some_iff pStart e).mp hlast).1
    have hend : e.1 + e.2.length = pStart := by simpa using hend
    have hadds := hb.tidy.adds_extend he ((data.drop (pStart - offset)).take (pEnd - pStart))
      (by rw [hend]; exact hfree)
    rw [hend] at hadds
    refine .inl ⟨_,rfl,hadds,rfl,?_⟩
    simp only [SortedMap.length_modify]
    exact hb.few
  | none =>
    by_cases hcap : maxPendingFragments ≤ r.pending.length
    · refine .inr ⟨by simp [hcap],hcap,?_⟩
      intro e he hend
      have hlast := hb.tidy.lastLT_of_end he hend
      rw [hlast] at hadj
      simp [Option.filter,hend] at hadj
    · refine .inl ⟨_,if_neg hcap,hins,rfl,?_⟩
      have hle := r.pending.length_insert_le pStart ((data.drop (pStart - offset)).take (pEnd - pStart))
      simp only
      omega

theorem storePiece_rest (h : storePiece offset data r p = some r') :
    r' = { r with pending := r'.pending, pendingBytes := r'.pendingBytes } := by
  simp only [storePiece] at h
  by_cases hbudget : r.maxData - r.nextOffset <
      r.pendingBytes + ((data.drop (p.1 - offset)).take (p.2 - p.1)).length
  · rw [if_pos hbudget] at h
    cases h
  rw [if_neg hbudget] at h
  cases hadj : (r.pending.lastLT p.1).filter (fun e => e.1 + e.2.length == p.1) with
  | some e =>
    rw [hadj] at h
    cases h
    rfl
  | none =>
    rw [hadj] at h
    by_cases hcap : maxPendingFragments ≤ r.pending.length
    · rw [if_pos hcap] at h
      cases h
    · rw [if_neg hcap] at h
      cases h
      rfl

theorem storePieces_rest (offset : Nat) (data : List UInt8) (r : RecvStream)
    (ps : List (Nat × Nat)) :
    storePieces offset data r ps =
      { r with
        pending := (storePieces offset data r ps).pending
        pendingBytes := (storePieces offset data r ps).pendingBytes } := by
  induction ps generalizing r with
  | nil => rfl
  | cons p ps ih =>
    cases hp : storePiece offset data r p with
    | none =>
      simp [storePieces,hp]
    | some r' =>
      simp only [storePieces,hp]
      rw [ih r',storePiece_rest hp]

theorem storeOutOfOrder_rest (r : RecvStream) (offset : Nat) (data : List UInt8) :
    r.storeOutOfOrder offset data =
      { r with
        pending := (r.storeOutOfOrder offset data).pending
        pendingBytes := (r.storeOutOfOrder offset data).pendingBytes } :=
  storePieces_rest offset data r _

/-- The pieces of one frame, as the walk lists them. -/
private structure Placeable (r : RecvStream) (high offset : Nat) (data : List UInt8)
    (ps : List (Nat × Nat)) : Prop where
  ordered : ps.Pairwise (fun p q => p.2 ≤ q.1)
  fits : ∀ p ∈ ps, Fits r high offset data p

private theorem Placeable.step (h : Placeable r high offset data (p :: ps))
    (hs : Stored r r' p (pieceBytes offset data p)) : Placeable r' high offset data ps := by
  have hp := h.fits p (by simp)
  obtain ⟨hafter,htail⟩ := pairwise_cons.mp h.ordered
  have hnext : r'.nextOffset = r.nextOffset := by rw [hs.rest]
  refine ⟨htail,?_⟩
  intro q hq
  have hq' := h.fits q (by simp [hq])
  refine ⟨hq'.start,hq'.pos,hq'.stop,?_,hnext ▸ hq'.ahead,hq'.below⟩
  intro x hlo hhi hheld
  rcases (hs.adds.held x).mp hheld with hx | hx
  · exact hq'.free x hlo hhi hx
  · rw [hp.length] at hx
    have hle := hafter q hq
    omega

/-- What storing the pieces of a frame guarantees, whether or not the cap drops some. -/
private structure Kept (r r' : RecvStream) (high : Nat) : Prop where
  buffered : r'.Buffered high
  held : ∀ x, Held r.pending x → Held r'.pending x

private theorem storePieces_kept (ps : List (Nat × Nat)) (r : RecvStream) (hb : r.Buffered high)
    (hmax : high ≤ r.maxData) (h : Placeable r high offset data ps) : Kept r (storePieces offset data r ps) high ∧
      ∀ S, SlicesOf S r.pending → data <+: S.drop offset → SlicesOf S (storePieces offset data r ps).pending := by
  induction ps generalizing r with
  | nil => exact ⟨⟨hb,fun x hx => hx⟩,fun S hS _ => hS⟩
  | cons p ps ih =>
    have hp := h.fits p (by simp)
    rcases storePiece_cases hb hmax hp with ⟨r',heq,hs⟩ | ⟨heq,-,-⟩
    · have hmax' : high ≤ r'.maxData := by
        rw [hs.rest]
        exact hmax
      obtain ⟨hk,hS'⟩ := ih r' (hs.buffered hp hb) hmax' (h.step hs)
      simp only [storePieces,heq]
      refine ⟨⟨hk.buffered,fun x hx => hk.held x ((hs.adds.held x).mpr (.inl hx))⟩,?_⟩
      intro S hS hd
      exact hS' S (hs.adds.slices S hS (pieceBytes_slice hp.start hd)) hd
    · simp only [storePieces,heq]
      exact ⟨⟨hb,fun x hx => hx⟩,fun S hS _ => hS⟩

/-- A frame at `offset` continues a fragment, or there is a slot for a new one. -/
def HasRoom (r : RecvStream) (offset : Nat) : Prop :=
  r.pending.length < maxPendingFragments ∨
    ∃ e ∈ r.pending.entries, e.1 ≤ offset ∧ offset ≤ e.1 + e.2.length

instance (r : RecvStream) (offset : Nat) : Decidable (r.HasRoom offset) :=
  inferInstanceAs (Decidable (_ ∨ ∃ e ∈ r.pending.entries, e.1 ≤ offset ∧ offset ≤ e.1 + e.2.length))

private theorem uncovered_placeable (hb : r.Buffered high) (hoff : r.nextOffset < offset)
    (hle : offset + data.length ≤ high) : Placeable r high offset data
      (uncovered (offset + data.length) offset (r.walk offset (offset + data.length))) := by
  have hwalk := walk_walkable r hb.tidy offset (offset + data.length)
  obtain ⟨hord,hbnd⟩ := uncovered_ordered offset hwalk
  refine ⟨hord,?_⟩
  intro p hp
  obtain ⟨hstart,hpos,hstop⟩ := hbnd p hp
  refine ⟨hstart,hpos,hstop,?_,hoff,hle⟩
  intro x hlo hhi hheld
  obtain ⟨hx,hx',hfree⟩ := (uncovered_mem offset hwalk x).mp ⟨p,hp,hlo,hhi⟩
  exact hfree ((walk_heldBy r hb.tidy hx hx').mpr hheld)

/-- With room, only the first piece can need a new fragment, and it gets one. -/
private theorem storePieces_complete (ps : List (Nat × Nat)) (r : RecvStream) (hb : r.Buffered high)
    (hmax : high ≤ r.maxData) (h : Placeable r high offset data ps)
    (hadj : ∀ p ∈ ps, p.1 = offset ∨ ∃ e ∈ r.pending.entries, e.1 + e.2.length = p.1)
    (hroom : r.HasRoom offset ∨ ∀ p ∈ ps, p.1 ≠ offset) (x : Nat) (hx : inPieces ps x) :
    Held (storePieces offset data r ps).pending x := by
  induction ps generalizing r with
  | nil =>
    obtain ⟨p,hp,-⟩ := hx
    cases hp
  | cons p ps ih =>
    have hp := h.fits p (by simp)
    have hpos := hp.pos
    have hstart := hp.start
    have hlater := (pairwise_cons.mp h.ordered).1
    rcases storePiece_cases hb hmax hp with ⟨r',heq,hs⟩ | ⟨-,hcap,hnone⟩
    · have hmax' : high ≤ r'.maxData := by
        rw [hs.rest]
        exact hmax
      have hb' := hs.buffered hp hb
      simp only [storePieces,heq]
      obtain ⟨q,hq,hxq⟩ := hx
      rcases List.mem_cons.mp hq with rfl | hq
      · apply (storePieces_kept ps r' hb' hmax' (h.step hs)).1.held
        rw [hs.adds.held,hp.length]
        exact .inr hxq
      · -- the fragment that a later piece continues is still there when its turn comes
        refine ih r' hb' hmax' (h.step hs) ?_ (.inr ?_) ⟨q,hq,hxq⟩
        · intro q hq
          have hafter := hlater q hq
          rcases hadj q (by simp [hq]) with h0 | ⟨e,he,hend⟩
          · omega
          · exact .inr ⟨e,hs.adds.ends e he (by omega),hend⟩
        · intro q hq
          have hafter := hlater q hq
          omega
    · -- no slot: the fragment at `offset` would have to hold the start of the piece
      exfalso
      rcases hadj p (by simp) with h0 | ⟨e,he,hend⟩
      · rcases hroom with (hlt | ⟨e,he,hlo,hhi⟩) | hne
        · omega
        · have hne := hnone e he
          exact hp.free p.1 (le_refl _) hpos ⟨e,he,by omega,by omega⟩
        · exact hne p (by simp) h0
      · exact hnone e he hend
section
variable (hb : r.Buffered high) (hoff : r.nextOffset < offset) (hle : offset + data.length ≤ high)
  (hmax : high ≤ r.maxData)
include hb hoff hle hmax
theorem storeOutOfOrder_buffered : (r.storeOutOfOrder offset data).Buffered high ∧
      ∀ x, r.Has x → (r.storeOutOfOrder offset data).Has x := by
  have hk := (storePieces_kept _ r hb hmax (uncovered_placeable hb hoff hle)).1
  refine ⟨hk.buffered,?_⟩
  intro x hx
  rcases hx with hx | hx
  · exact .inl (by rw [storeOutOfOrder_rest]; exact hx)
  · exact .inr (hk.held x hx)

theorem storeOutOfOrder_slices (hS : SlicesOf S r.pending) (hd : data <+: S.drop offset) :
    SlicesOf S (r.storeOutOfOrder offset data).pending :=
  (storePieces_kept _ r hb hmax (uncovered_placeable hb hoff hle)).2 S hS hd

theorem storeOutOfOrder_complete (hroom : r.HasRoom offset) (hlo : offset ≤ x) (hhi : x < offset + data.length) :
    (r.storeOutOfOrder offset data).Has x := by
  have hplace : Placeable r high offset data _ := uncovered_placeable hb hoff hle
  have hwalk := walk_walkable r hb.tidy offset (offset + data.length)
  refine .inr ?_
  by_cases hheld : Held r.pending x
  · exact (storePieces_kept _ r hb hmax hplace).1.held x hheld
  · refine storePieces_complete _ r hb hmax hplace ?_ (.inl hroom) x ?_
    · intro p hp
      rcases uncovered_adjacent offset hwalk p hp with h0 | ⟨e,he,hend⟩
      · exact .inl h0
      · exact .inr ⟨e,((r.pending.mem_range _ _ e).mp he).1,hend⟩
    · apply (uncovered_mem offset hwalk x).mpr
      exact ⟨hlo,hhi,fun h => hheld ((walk_heldBy r hb.tidy hlo hhi).mp h)⟩
end
private theorem uncovered_after (hlt : cursor < newEnd) (hl : ∀ e ∈ l, e.1 + e.2.length ≤ cursor) :
    uncovered newEnd cursor l = [(cursor, newEnd)] := by
  induction l with
  | nil => simp [uncovered,hlt]
  | cons e rest ih =>
    obtain ⟨pOff,pData⟩ := e
    have hskip : pOff + pData.length ≤ cursor := hl (pOff, pData) (by simp)
    simp only [uncovered,if_pos hskip]
    exact ih (fun e he => hl e (by simp [he]))

theorem storeOutOfOrder_after (hne : data ≠ [])
    (hends : ∀ e ∈ r.pending.entries, e.1 + e.2.length < offset)
    (hbudget : r.pendingBytes + data.length ≤ r.maxData - r.nextOffset) :
    r.storeOutOfOrder offset data =
      if maxPendingFragments ≤ r.pending.length then r
      else { r with
        pendingBytes := r.pendingBytes + data.length
        pending := r.pending.insert offset data } := by
  have hpos := length_pos_iff.mpr hne
  have hpieces : uncovered (offset + data.length) offset (r.walk offset (offset + data.length)) =
      [(offset, offset + data.length)] := by
    apply uncovered_after (by omega)
    intro e he
    exact le_of_lt (hends e ((r.pending.mem_range _ _ e).mp he).1)
  have hbytes : (data.drop (offset - offset)).take (offset + data.length - offset) = data := by
    simp
  have hadj : (r.pending.lastLT offset).filter (fun e => e.1 + e.2.length == offset) = none := by
    cases hlast : r.pending.lastLT offset with
    | none => rfl
    | some e =>
      have hend := hends e ((r.pending.lastLT_eq_some_iff offset e).mp hlast).1
      simp [ne_of_lt hend]
  simp only [storeOutOfOrder,hpieces,storePieces,storePiece,hbytes,hadj]
  rw [if_neg (by omega)]
  by_cases hcap : maxPendingFragments ≤ r.pending.length
  · simp [if_pos hcap]
  · simp [if_neg hcap]

theorem settleFin_rest (r : RecvStream) : r.settleFin = { r with state := r.settleFin.state } := by
  simp only [settleFin]
  split_ifs <;> rfl

/-- A frame brings nothing new, continues the released prefix, or leaves a gap. -/
theorem place_cases (offset : Nat) (data : List UInt8) (fin : Bool) (frameEnd : Nat)
    (hstop : r.stopSendingSent = false) :
    (offset + data.length ≤ r.nextOffset ∧ (r.place offset data fin frameEnd).2 =
      { r with state := (r.place offset data fin frameEnd).2.state }) ∨
    (offset ≤ r.nextOffset ∧ r.nextOffset ≤ offset + data.length ∧
      (r.place offset data fin frameEnd).2 =
        (r.appendInOrder (data.drop (r.nextOffset - offset))).settleFin) ∨
    (r.nextOffset < offset ∧
      (r.place offset data fin frameEnd).2 = (r.storeOutOfOrder offset data).settleFin) := by
  have hread : ¬ r.stopSendingSent = true := by simp [hstop]
  by_cases hcov : offset < r.nextOffset ∧ data.length ≤ r.nextOffset - offset
  · refine .inl ⟨by omega,?_⟩
    simp only [place,if_neg hread,if_pos hcov]
    split_ifs <;> rfl
  · rcases Nat.lt_trichotomy offset r.nextOffset with hlt | heq | hgt
    · refine .inr (.inl ⟨by omega,by omega,?_⟩)
      simp [place,if_neg hread,if_neg hcov,if_pos hlt]
    · refine .inr (.inl ⟨by omega,by omega,?_⟩)
      simp [place,if_neg hread,heq]
    · refine .inr (.inr ⟨hgt,?_⟩)
      have hnlt : ¬ offset < r.nextOffset := by omega
      have hne : offset ≠ r.nextOffset := by omega
      simp [place,if_neg hread,hnlt,if_neg hne]

theorem settleFin_state (r : RecvStream) : r.settleFin.state = r.state ∨ r.settleFin.state = .dataRecvd ∨
      r.settleFin.state = .sizeKnown := by
  simp only [settleFin]
  split_ifs <;> simp

/-- Placing a frame changes the buffer and the state only, and never resets the stream. -/
theorem place_outline (r : RecvStream) (offset : Nat) (data : List UInt8) (fin : Bool)
    (frameEnd : Nat) : (r.place offset data fin frameEnd).2.outline = r.outline ∧
      ((r.place offset data fin frameEnd).2.state = r.state ∨
        (r.place offset data fin frameEnd).2.state = .dataRecvd ∨
        (r.place offset data fin frameEnd).2.state = .sizeKnown) := by
  have hsettle : ∀ r' : RecvStream, r'.outline = r.outline → r'.state = r.state →
      r'.settleFin.outline = r.outline ∧ (r'.settleFin.state = r.state ∨
        r'.settleFin.state = .dataRecvd ∨ r'.settleFin.state = .sizeKnown) := by
    intro r' ho hst
    refine ⟨?_,hst ▸ settleFin_state r'⟩
    rw [settleFin_rest,← ho]
    rfl
  have happ := fun d => absorb_outline { r with
    delivered := r.delivered ++ d
    nextOffset := r.nextOffset + d.length }
  simp only [place]
  split_ifs
  · exact ⟨rfl,.inl rfl⟩
  · exact ⟨rfl,.inr (.inl rfl)⟩
  · exact ⟨rfl,.inl rfl⟩
  · exact hsettle _ (happ _).1 (happ _).2
  · exact hsettle _ (by rw [storeOutOfOrder_rest]; rfl) (by rw [storeOutOfOrder_rest])
  · exact hsettle _ (happ _).1 (happ _).2
  · exact hsettle _ (by rw [storeOutOfOrder_rest]; rfl) (by rw [storeOutOfOrder_rest])

structure Placed (r r' : RecvStream) (high : Nat) : Prop where
  buffered : r'.Buffered high
  has : ∀ x, r.Has x → r'.Has x

theorem Buffered.congr (h : r.Buffered high) (hn : r'.nextOffset = r.nextOffset)
    (hp : r'.pending = r.pending) (hb : r'.pendingBytes = r.pendingBytes) : r'.Buffered high := by
  refine ⟨hp ▸ h.tidy,?_,?_,hn ▸ h.next_le,?_,hp ▸ h.few⟩
  · rw [hp,hn]
    exact h.above
  · rw [hp]
    exact h.below
  · rw [hb,hp]
    exact h.bytes

theorem Placed.settle (hb : r'.Buffered high) (hhas : ∀ x, r.Has x → r'.Has x) : Placed r r'.settleFin high := by
  have hset := settleFin_rest r'
  refine ⟨hb.congr (by rw [hset]) (by rw [hset]) (by rw [hset]),?_⟩
  rw [hset]
  exact hhas

theorem Carries.congr (h : Carries S past r) (hd : r'.delivered = r.delivered)
    (hn : r'.nextOffset = r.nextOffset) (hp : r'.pending = r.pending) : Carries S past r' :=
  ⟨by rw [hd,hn]; exact h.prefix_eq,by rw [hn]; exact h.next_le,by rw [hp]; exact h.slices⟩

theorem Carries.settleFin (h : Carries S past r) : Carries S past r.settleFin := by
  have hset := settleFin_rest r
  exact h.congr (by rw [hset]) (by rw [hset]) (by rw [hset])
variable (fin : Bool) (hb : r.Buffered high) (hmax : max high (offset + data.length) ≤ r.maxData)
  (hstop : r.stopSendingSent = false)
include hb hmax hstop
theorem place_placed : Placed r (r.place offset data fin (offset + data.length)).2
      (max high (offset + data.length)) := by
  have hle : high ≤ max high (offset + data.length) := le_max_left _ _
  rcases place_cases offset data fin (offset + data.length) hstop with
    ⟨-,heq⟩ | ⟨hoff,hend,heq⟩ | ⟨hoff,heq⟩ <;> rw [heq]
  · exact ⟨(hb.mono hle).congr rfl rfl rfl,fun x hx => hx⟩
  · obtain ⟨hb',hhas⟩ := appendInOrder_buffered r (data.drop (r.nextOffset - offset)) high hb
    have hlen : r.nextOffset + (data.drop (r.nextOffset - offset)).length =
        offset + data.length := by
      rw [length_drop]
      omega
    rw [hlen] at hb'
    exact Placed.settle hb' (fun x hx => (hhas x).mpr (.inl hx))
  · obtain ⟨hb',hhas⟩ := storeOutOfOrder_buffered (hb.mono hle) hoff (le_max_right _ _) hmax
    exact Placed.settle hb' hhas

theorem place_carries (hc : Carries S past r) (hd : data <+: S.drop offset) :
    Carries S past (r.place offset data fin (offset + data.length)).2 := by
  rcases place_cases offset data fin (offset + data.length) hstop with
    ⟨-,heq⟩ | ⟨hoff,hend,heq⟩ | ⟨hoff,heq⟩ <;> rw [heq]
  · exact hc.congr rfl rfl rfl
  · have hslice := slice_drop (r.nextOffset - offset) hd
    rw [Nat.add_sub_cancel' hoff] at hslice
    exact (appendInOrder_carries S past r _ hc hslice).settleFin
  · have hb' := hb.mono (le_max_left high (offset + data.length))
    refine Carries.settleFin ⟨?_,?_,?_⟩
    · rw [storeOutOfOrder_rest]
      exact hc.prefix_eq
    · rw [storeOutOfOrder_rest]
      exact hc.next_le
    · exact storeOutOfOrder_slices hb' hoff (le_max_right _ _) hmax hc.slices hd

/-- A frame that starts in the released prefix, or has room, loses no byte. -/
theorem place_complete (hroom : offset ≤ r.nextOffset ∨ data = [] ∨ r.HasRoom offset) (hlo : offset ≤ x)
    (hhi : x < offset + data.length) : (r.place offset data fin (offset + data.length)).2.Has x := by
  have hsettle : ∀ r' : RecvStream, r'.settleFin.Has x ↔ r'.Has x := by
    intro r'
    rw [settleFin_rest r']
    exact Iff.rfl
  rcases place_cases offset data fin (offset + data.length) hstop with
    ⟨hcov,heq⟩ | ⟨hoff,hend,heq⟩ | ⟨hoff,heq⟩
  · rw [heq]
    exact .inl (by simp only; omega)
  · rw [heq,hsettle,(appendInOrder_buffered r _ high hb).2 x,length_drop]
    by_cases hx : x < r.nextOffset
    · exact .inl (.inl hx)
    · exact .inr ⟨by omega,by omega⟩
  · rw [heq,hsettle]
    rcases hroom with hle | hnil | hroom
    · omega
    · simp only [hnil,length_nil] at hhi
      omega
    · exact storeOutOfOrder_complete (hb.mono (le_max_left _ _)) hoff (le_max_right _ _) hmax hroom
        hlo hhi
end RecvStream
end PureCrypto.Quic
