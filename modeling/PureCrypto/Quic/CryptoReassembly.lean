import PureCrypto.Framework.Trace
import PureCrypto.Quic.CryptoBuf

/-! # CRYPTO reassembly -/
namespace PureCrypto.Quic
open Fragments List
namespace CryptoBuf
def Has (b : CryptoBuf) (x : Nat) : Prop := x < b.nextOffset ∨ Held b.pending x

structure Bounded (b : CryptoBuf) : Prop where
  bytes : b.totalPendingBytes ≤ maxPendingCryptoBytes
  fragments : b.pending.length ≤ maxPendingFragments

/-- Pending fragments are slices of `S` behind a gap. -/
structure Ahead (S : List UInt8) (b : CryptoBuf) : Prop where
  slices : SlicesOf S b.pending
  gap : ∀ e ∈ b.pending.entries, b.nextOffset < e.1
  next_le : b.nextOffset ≤ S.length
section Drain
variable {S : List UInt8} {b : CryptoBuf}
theorem Bounded.erase (h : b.Bounded) {k : Nat} {v : List UInt8} (hk : b.pending.get? k = some v)
    (next : Nat) : Bounded { b with nextOffset := next, pending := b.pending.erase k } where
  bytes := by
    have hsum := b.pending.sum_eq_add_erase (fun _ v => v.length) hk
    have hbytes := h.bytes
    simp only [totalPendingBytes,totalLength] at hbytes ⊢
    omega
  fragments := by
    have hlen := b.pending.length_erase_of_get? hk
    have hfew := h.fragments
    simp only
    omega

theorem drain_bounded (b : CryptoBuf) (released : List UInt8) (l : List (Nat × List UInt8))
    (hl : b.pending.entries = l) (h : b.Bounded) : (b.drain released l).2.Bounded := by
  induction l generalizing b released with
  | nil => exact h
  | cons e rest ih =>
    obtain ⟨pOff,frag⟩ := e
    have hget : b.pending.get? pOff = some frag :=
      (b.pending.get?_eq_some_iff pOff frag).mpr (hl ▸ mem_cons_self)
    have hrest : (b.pending.erase pOff).entries = rest := erase_head b.pending hl
    simp only [drain]
    split_ifs
    · exact ih _ _ hrest (h.erase hget b.nextOffset)
    · exact ih _ _ hrest (h.erase hget (pOff + frag.length))
    · exact h

/-- The loop releases the bytes of `S` up to the new `nextOffset`. -/
theorem drain_ahead (b : CryptoBuf) (l : List (Nat × List UInt8)) (start : Nat)
    (hl : b.pending.entries = l) (hslices : SlicesOf S b.pending) (hnext : b.nextOffset ≤ S.length)
    (released : List UInt8) (hreleased : S.take start ++ released = S.take b.nextOffset) :
    (b.drain released l).2.Ahead S ∧
      S.take start ++ (b.drain released l).1 = S.take (b.drain released l).2.nextOffset ∧
      ∀ x, (b.drain released l).2.Has x ↔ b.Has x := by
  induction l generalizing b released with
  | nil =>
    rw [drain]
    refine ⟨⟨hslices,?_,hnext⟩,hreleased,fun x => Iff.rfl⟩
    intro e he
    rw [hl] at he
    cases he
  | cons e rest ih =>
    obtain ⟨pOff,frag⟩ := e
    have hmem : (pOff, frag) ∈ b.pending.entries := hl ▸ mem_cons_self
    have hrest : (b.pending.erase pOff).entries = rest := erase_head b.pending hl
    simp only [drain]
    split_ifs with hle hstop
    · obtain ⟨hahead,hbytes,hhas⟩ := ih { b with pending := b.pending.erase pOff } hrest
        (hslices.erase pOff) hnext released hreleased
      refine ⟨hahead,hbytes,fun x => (hhas x).trans ?_⟩
      have hsame := lt_max_or_held_erase hmem hle x
      rwa [Nat.max_eq_left hstop] at hsame
    · obtain ⟨htake,hfit⟩ := take_append_drop_slice hnext (hslices _ hmem) hle
        (le_of_lt (not_le.mp hstop))
      have hreleased' : S.take start ++ (released ++ frag.drop (b.nextOffset - pOff)) =
          S.take (pOff + frag.length) := by
        rw [← append_assoc,hreleased,htake]
      obtain ⟨hahead,hbytes,hhas⟩ := ih
        { b with pending := b.pending.erase pOff, nextOffset := pOff + frag.length } hrest
        (hslices.erase pOff) hfit _ hreleased'
      refine ⟨hahead,hbytes,fun x => (hhas x).trans ?_⟩
      have hsame := lt_max_or_held_erase hmem hle x
      rwa [Nat.max_eq_right (by omega)] at hsame
    · refine ⟨⟨hslices,?_,hnext⟩,hreleased,fun x => Iff.rfl⟩
      intro e he
      have hsorted := b.pending.sorted
      rw [hl] at he hsorted
      rcases List.mem_cons.mp he with rfl | he
      · exact not_le.mp hle
      · exact (not_le.mp hle).trans ((pairwise_cons.mp hsorted).1 e he)
end Drain
section OneFragment
variable {S : List UInt8} {b : CryptoBuf} {offset : Nat} {data : List UInt8}
theorem onCrypto_error (b : CryptoBuf) (offset : Nat) (data : List UInt8) {e : Tls.Error}
    (h : (b.onCrypto offset data).1 = .error e) : (b.onCrypto offset data).2 = b := by
  simp only [onCrypto,store] at h ⊢
  split_ifs at h ⊢ <;> rfl

/-- Storing replaces a shorter fragment at the same offset, or adds one within the budget. -/
theorem store_bounded (h : b.Bounded) : (b.store offset data).2.Bounded := by
  simp only [store]
  split_ifs with hprev hlong hbytes hfew
  · exact h
  · exact h
  · exact h
  · exact h
  · have hsum := b.pending.sum_insert offset data (fun _ v => v.length)
    cases hget : b.pending.get? offset with
    | none =>
      have hlen := b.pending.length_insert_new data hget
      have herase := b.pending.sum_erase_of_get?_none (fun _ v => v.length) hget
      simp only [hget,Option.map_none,Option.getD_none,true_and] at hbytes hfew
      constructor
      · simp only [totalPendingBytes,totalLength] at hbytes ⊢
        omega
      · simp only
        omega
    | some v =>
      have hsplit := b.pending.sum_eq_add_erase (fun _ v => v.length) hget
      simp only [hget,Option.map_some,Option.getD_some] at hbytes hlong
      constructor
      · simp only [totalPendingBytes,totalLength] at hbytes ⊢
        omega
      · have hsame := b.pending.length_insert_of_get? data hget
        have hcount := h.fragments
        simp only
        omega

theorem onCrypto_bounded (b : CryptoBuf) (offset : Nat) (data : List UInt8) (h : b.Bounded) :
    (b.onCrypto offset data).2.Bounded := by
  simp only [onCrypto]
  split_ifs
  · exact h
  · exact h
  · exact drain_bounded _ _ _ rfl ⟨h.bytes,h.fragments⟩
  · exact store_bounded h

/-- A fragment that is not stored is held already. -/
theorem store_ahead (h : b.Ahead S) (hdata : data <+: S.drop offset) (hne : data ≠ [])
    (hgap : b.nextOffset < offset) {bytes : List UInt8} (hok : (b.store offset data).1 = .ok bytes) :
    bytes = [] ∧ (b.store offset data).2.Ahead S ∧ (b.store offset data).2.nextOffset = b.nextOffset ∧
      ∀ x, (b.store offset data).2.Has x ↔ b.Has x ∨ (offset ≤ x ∧ x < offset + data.length) := by
  simp only [store] at hok ⊢
  split_ifs at hok ⊢ with hprev hlong hbytes hfew <;> cases hok
  · refine ⟨rfl,h,rfl,?_⟩
    intro x
    obtain ⟨prev,hlast,hcover⟩ := (Option.any_eq_true _ _).mp hprev
    obtain ⟨hmem,hlt,-⟩ := (b.pending.lastLT_eq_some_iff offset prev).mp hlast
    have hstop : offset + data.length ≤ prev.1 + prev.2.length := by simpa using hcover
    exact ⟨.inl,fun hx => hx.elim id fun hin =>
      .inr ⟨prev,hmem,by omega,by omega⟩⟩
  · refine ⟨rfl,h,rfl,?_⟩
    intro x
    refine ⟨.inl,fun hx => hx.elim id fun hin => ?_⟩
    cases hget : b.pending.get? offset with
    | none =>
      simp only [hget,Option.map_none,Option.getD_none,Nat.le_zero] at hlong
      exact absurd (length_eq_zero_iff.mp hlong) hne
    | some v =>
      simp only [hget,Option.map_some,Option.getD_some] at hlong
      exact .inr ⟨(offset, v),(b.pending.get?_eq_some_iff offset v).mp hget,hin.1,by
        simp only
        omega⟩
  · refine ⟨rfl,⟨h.slices.insert hdata,?_,h.next_le⟩,rfl,?_⟩
    · intro e he
      rcases (b.pending.mem_insert offset data e).mp he with rfl | ⟨he,-⟩
      · exact hgap
      · exact h.gap e he
    · intro x
      have hheld : Held (b.pending.insert offset data) x ↔
          Held b.pending x ∨ (offset ≤ x ∧ x < offset + data.length) := by
        apply held_insert_of_longer
        intro v hget
        simp only [hget,Option.map_some,Option.getD_some] at hlong
        omega
      show x < b.nextOffset ∨ Held (b.pending.insert offset data) x ↔ _
      rw [hheld]
      exact or_assoc.symm

theorem onCrypto_ahead (h : b.Ahead S) (hdata : data <+: S.drop offset) {bytes : List UInt8}
    (hok : (b.onCrypto offset data).1 = .ok bytes) : (b.onCrypto offset data).2.Ahead S ∧
      S.take b.nextOffset ++ bytes = S.take (b.onCrypto offset data).2.nextOffset ∧
      ∀ x, (b.onCrypto offset data).2.Has x ↔ b.Has x ∨ (offset ≤ x ∧ x < offset + data.length) := by
  have hold : data.length ≤ b.nextOffset - offset → b.Ahead S ∧ S.take b.nextOffset ++ [] = S.take b.nextOffset ∧
      ∀ x, b.Has x ↔ b.Has x ∨ (offset ≤ x ∧ x < offset + data.length) := fun hlen =>
    ⟨h,append_nil _,fun x => ⟨.inl,fun hx => hx.elim id fun hin => .inl (by omega)⟩⟩
  simp only [onCrypto] at hok ⊢
  by_cases hstale : offset < b.nextOffset ∧ data.length ≤ b.nextOffset - offset
  · rw [if_pos hstale] at hok ⊢
    cases hok
    exact hold hstale.2
  rw [if_neg hstale] at hok ⊢
  by_cases hempty : (data.drop (b.nextOffset - offset)).isEmpty = true
  · have hlen : data.length ≤ b.nextOffset - offset := by
      rwa [List.isEmpty_iff,drop_eq_nil_iff] at hempty
    rw [if_pos hempty] at hok ⊢
    cases hok
    exact hold hlen
  rw [if_neg hempty] at hok ⊢
  have hstart : max offset b.nextOffset = offset + (b.nextOffset - offset) := by omega
  have hrest : data.drop (b.nextOffset - offset) <+: S.drop (max offset b.nextOffset) := by
    rw [hstart]
    exact slice_drop _ hdata
  have hlen : (data.drop (b.nextOffset - offset)).length =
      data.length - (b.nextOffset - offset) := length_drop
  have hne : data.drop (b.nextOffset - offset) ≠ [] := fun hnil =>
    hempty (List.isEmpty_iff.mpr hnil)
  by_cases horder : max offset b.nextOffset = b.nextOffset
  · rw [if_pos horder] at hok ⊢
    cases hok
    rw [horder] at hrest
    obtain ⟨htake,hnext⟩ := take_append_slice h.next_le hrest
    obtain ⟨hahead,hbytes,hhas⟩ := drain_ahead
      { b with nextOffset := b.nextOffset + (data.drop (b.nextOffset - offset)).length }
      b.pending.entries b.nextOffset rfl h.slices hnext _ htake
    refine ⟨hahead,hbytes,fun x => (hhas x).trans ?_⟩
    simp only [Has]
    rw [or_right_comm]
    apply or_congr_left
    omega
  · rw [if_neg horder] at hok ⊢
    have hsame : max offset b.nextOffset = offset ∧ b.nextOffset - offset = 0 := by omega
    rw [hsame.1,hsame.2] at hrest hok ⊢
    rw [hsame.2] at hne
    obtain ⟨rfl,hahead,hnext,hhas⟩ := store_ahead h hrest hne (by omega) hok
    refine ⟨hahead,?_,hhas⟩
    rw [append_nil,hnext]
end OneFragment
end CryptoBuf
/-- A buffer, what it released so far, and the fragments it accepted. -/
structure CryptoSession where
  buf : CryptoBuf
  released : List UInt8
  accepted : List (Nat × Nat)
namespace CryptoSession
def start : CryptoSession := ⟨.new, [], []⟩

def feed (s : CryptoSession) (frag : Nat × List UInt8) : CryptoSession :=
  match s.buf.onCrypto frag.1 frag.2 with
  | (.ok bytes, buf) => ⟨buf, s.released ++ bytes, (frag.1, frag.2.length) :: s.accepted⟩
  | (.error _, buf) => { s with buf }

def slice (S : List UInt8) (frag : Nat × Nat) : Nat × List UInt8 :=
  (frag.1, (S.drop frag.1).take frag.2)

/-- The union of the accepted fragments. -/
def Covered (s : CryptoSession) (x : Nat) : Prop := ∃ f ∈ s.accepted, f.1 ≤ x ∧ x < f.1 + f.2

structure Reassembled (S : List UInt8) (s : CryptoSession) : Prop where
  ahead : s.buf.Ahead S
  released_eq : s.released = S.take s.buf.nextOffset
  covered : ∀ x, s.buf.Has x ↔ s.Covered x

theorem bounded_start : start.buf.Bounded := ⟨by decide,by decide⟩

theorem bounded_feed (s : CryptoSession) (frag : Nat × List UInt8) (h : s.buf.Bounded) :
    (s.feed frag).buf.Bounded := by
  have hstep := s.buf.onCrypto_bounded frag.1 frag.2 h
  unfold feed
  cases hr : s.buf.onCrypto frag.1 frag.2 with
  | mk result buf =>
    rw [hr] at hstep
    cases result with
    | error e => exact hstep
    | ok bytes => exact hstep

theorem reassembled_start (S : List UInt8) : Reassembled S start where
  ahead := ⟨SlicesOf.empty S,nofun,Nat.zero_le _⟩
  released_eq := rfl
  covered := fun x => by
    constructor
    · rintro (hx | hx)
      · exact absurd hx (Nat.not_lt_zero x)
      · exact absurd hx (not_held_empty x)
    · rintro ⟨f,hf,-⟩
      cases hf

theorem reassembled_feed {S : List UInt8} (s : CryptoSession) (frag : Nat × Nat)
    (h : Reassembled S s) (hfrag : frag.1 + frag.2 ≤ S.length) : Reassembled S (s.feed (slice S frag)) := by
  have hlen : ((S.drop frag.1).take frag.2).length = frag.2 := by
    rw [length_take,length_drop]
    omega
  have hprefix : (S.drop frag.1).take frag.2 <+: S.drop frag.1 := take_prefix _ _
  unfold feed
  simp only [slice]
  cases hr : s.buf.onCrypto frag.1 ((S.drop frag.1).take frag.2) with
  | mk result buf =>
    cases result with
    | error e =>
      have herror : (s.buf.onCrypto frag.1 ((S.drop frag.1).take frag.2)).1 = .error e := by
        rw [hr]
      have hsame := s.buf.onCrypto_error frag.1 _ herror
      rw [hr] at hsame
      subst hsame
      exact h
    | ok bytes =>
      have hok : (s.buf.onCrypto frag.1 ((S.drop frag.1).take frag.2)).1 = .ok bytes := by
        rw [hr]
      obtain ⟨hahead,hbytes,hhas⟩ := CryptoBuf.onCrypto_ahead h.ahead hprefix hok
      rw [hr] at hahead hbytes hhas
      refine ⟨hahead,?_,fun x => (hhas x).trans ?_⟩
      · show s.released ++ bytes = _
        rw [h.released_eq,hbytes]
      · rw [h.covered x]
        unfold Covered
        simp only [List.mem_cons,exists_eq_or_imp]
        exact or_comm

theorem Reassembled.longest {S : List UInt8} {s : CryptoSession} (h : Reassembled S s) (n : Nat) :
    n ≤ s.buf.nextOffset ↔ ∀ x < n, s.Covered x := by
  constructor
  · intro hn x hx
    exact (h.covered x).mp (.inl (by omega))
  · intro hall
    by_contra hlt
    rcases (h.covered s.buf.nextOffset).mpr (hall _ (not_le.mp hlt)) with hx | ⟨e,he,hle,-⟩
    · exact lt_irrefl _ hx
    · exact absurd (h.ahead.gap e he) (not_lt.mpr hle)

/-- Fragments of `S` in any order: what is released is the longest prefix of `S` that the accepted
ones cover.  Whatever is fed, the out-of-order budget is kept, and a rejected fragment changes
nothing. -/
theorem crypto_reassembly (S : List UInt8) :
    (∀ frags : List (Nat × Nat), (∀ f ∈ frags, f.1 + f.2 ≤ S.length) →
      let s := Trace.run (fun s frag => s.feed (slice S frag)) start frags
      s.released = S.take s.buf.nextOffset ∧
        ∀ n, n ≤ s.buf.nextOffset ↔ ∀ x < n, s.Covered x) ∧
    (∀ frags : List (Nat × List UInt8),
      let s := Trace.run feed start frags
      s.buf.totalPendingBytes ≤ CryptoBuf.maxPendingCryptoBytes ∧
        s.buf.pending.length ≤ CryptoBuf.maxPendingFragments) ∧
    ∀ (b : CryptoBuf) (offset : Nat) (data : List UInt8) (e : Tls.Error),
      (b.onCrypto offset data).1 = .error e → (b.onCrypto offset data).2 = b := by
  refine ⟨?_,?_,fun b offset data e h => b.onCrypto_error offset data h⟩
  · intro frags hfrags s
    have h : Reassembled S s :=
      (Trace.Along.of_forall start hfrags).invariant
        (fun s frag hs hfrag => reassembled_feed s frag hs hfrag) (reassembled_start S)
    exact ⟨h.released_eq,h.longest⟩
  · intro frags s
    have h : s.buf.Bounded :=
      (Trace.Along.of_forall (p := fun _ => True) start (fun _ _ => trivial)).invariant
        (fun s frag hs _ => bounded_feed s frag hs) bounded_start
    exact ⟨h.bytes,h.fragments⟩

/-- Two overlapping fragments, the later one first. -/
theorem crypto_reassembly_swapped :
    let s := Trace.run (fun s frag => s.feed (slice [7, 8, 9] frag)) start [(1, 2), (0, 2)]
    s.released = [7, 8, 9].take s.buf.nextOffset ∧
      ∀ n, n ≤ s.buf.nextOffset ↔ ∀ x < n, s.Covered x :=
  (crypto_reassembly [7, 8, 9]).1 [(1, 2), (0, 2)] (by decide)
end CryptoSession
end PureCrypto.Quic
