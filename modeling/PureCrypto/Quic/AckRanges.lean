import Mathlib.Data.List.Basic
import Mathlib.Data.List.Induction
import PureCrypto.Framework.PartitionPoint

/-!
# Received packet numbers

`AckRanges` of `quic/pn.rs`: inclusive ranges from the largest down, at most 32 of them.  Packet numbers are below
`2 ^ 62`, so that no successor overflows.
-/
namespace PureCrypto.Quic
open List
def maxAckRanges : Nat := 32

structure AckRange where
  start : Nat
  stop : Nat
deriving DecidableEq
namespace AckRanges
def insert (ranges : List AckRange) (pn : Nat) : List AckRange :=
  if ranges.any fun r => r.start ≤ pn ∧ pn ≤ r.stop then ranges
  else
    let insertIdx := ranges.findIdx fun r => r.start ≤ pn
    let extendedAbove := 0 < insertIdx ∧ (ranges[insertIdx - 1]?).any fun r => r.start == pn + 1
    let extendedBelow := (ranges[insertIdx]?).any fun r => r.stop + 1 == pn
    let above := ranges.modify (insertIdx - 1) fun r => { r with start := pn }
    if extendedAbove ∧ extendedBelow then
      -- the two ranges touch now
      let lowest := ((above[insertIdx]?).map AckRange.start).getD pn
      (above.eraseIdx insertIdx).modify (insertIdx - 1) fun r => { r with start := lowest }
    else if extendedAbove then above
    else if extendedBelow then ranges.modify insertIdx fun r => { r with stop := pn }
    else if maxAckRanges ≤ ranges.length ∧ ranges.length ≤ insertIdx then ranges
    else (ranges.insertIdx insertIdx ⟨pn, pn⟩).take maxAckRanges

/-- The packet number is in a stored range. -/
def Mem (ranges : List AckRange) (x : Nat) : Prop := ∃ r ∈ ranges, r.start ≤ x ∧ x ≤ r.stop

instance (ranges : List AckRange) (x : Nat) : Decidable (Mem ranges x) :=
  inferInstanceAs (Decidable (∃ r ∈ ranges, r.start ≤ x ∧ x ≤ r.stop))

/-- Descending, disjoint, and with a number missing between two ranges. -/
structure Sorted (ranges : List AckRange) : Prop where
  apart : ranges.Pairwise fun r s => s.stop + 1 < r.start
  nonempty : ∀ r ∈ ranges, r.start ≤ r.stop
variable {ranges upper lower : List AckRange} {pn : Nat}
theorem Sorted.sublist (h : Sorted ranges) (hs : upper.Sublist ranges) : Sorted upper :=
  ⟨h.apart.sublist hs,fun r hr => h.nonempty r (hs.subset hr)⟩
variable {m : AckRange}
theorem Sorted.middle (h : Sorted (upper ++ lower)) (hm : m.start ≤ m.stop)
    (hupper : ∀ r ∈ upper, m.stop + 1 < r.start) (hlower : ∀ r ∈ lower, r.stop + 1 < m.start) :
    Sorted (upper ++ m :: lower) := by
  obtain ⟨hu,hl,hul⟩ := pairwise_append.mp h.apart
  refine ⟨pairwise_append.mpr ⟨hu,pairwise_cons.mpr ⟨hlower,hl⟩,fun r hr s hs => ?_⟩,fun r hr => ?_⟩
  · rcases List.mem_cons.mp hs with rfl | hs
    · exact hupper r hr
    · exact hul r hr s hs
  · rcases List.mem_append.mp hr with hr | hr
    · exact h.nonempty r (mem_append_left _ hr)
    · rcases List.mem_cons.mp hr with rfl | hr
      · exact hm
      · exact h.nonempty r (mem_append_right _ hr)
variable {x : Nat} {pns : List Nat}
theorem mem_append : Mem (upper ++ lower) x ↔ Mem upper x ∨ Mem lower x := by
  simp [Mem,or_and_right,exists_or]

theorem mem_singleton : Mem [m] x ↔ m.start ≤ x ∧ x ≤ m.stop := by
  simp [Mem]

theorem mem_cons : Mem (m :: lower) x ↔ (m.start ≤ x ∧ x ≤ m.stop) ∨ Mem lower x := by
  simp [Mem]
section Middle
variable {α : Type*} (u t : List α) (x : α)
private theorem modify_middle (f : α → α) : (u ++ x :: t).modify u.length f = u ++ f x :: t := by
  induction u with
  | nil => rfl
  | cons y u ih => simpa using ih

private theorem eraseIdx_middle : (u ++ x :: t).eraseIdx u.length = u ++ t := by
  induction u with
  | nil => rfl
  | cons y u ih => simpa using ih
end Middle
section
variable (h : Sorted ranges)
include h
private theorem exists_split (hpn : ¬ Mem ranges pn) :
    ∃ upper lower, ranges = upper ++ lower ∧ (ranges.findIdx fun r => r.start ≤ pn) = upper.length ∧
      (∀ r ∈ upper, pn < r.start) ∧ ∀ r ∈ lower, r.stop < pn := by
  induction ranges with
  | nil => exact ⟨[],[],rfl,rfl,by simp,by simp⟩
  | cons r rest ih =>
    obtain ⟨hr,hrest⟩ := pairwise_cons.mp h.apart
    by_cases hle : r.start ≤ pn
    · have hstop : r.stop < pn := Nat.lt_of_not_le fun hge => hpn ⟨r,by simp,hle,hge⟩
      refine ⟨[],r :: rest,rfl,by simp [findIdx_cons,hle],by simp,fun s hs => ?_⟩
      rcases List.mem_cons.mp hs with rfl | hs
      · exact hstop
      · have := hr s hs
        omega
    · obtain ⟨upper,lower,hsplit,hidx,hupper,hlower⟩ := ih (h.sublist (sublist_cons_self r rest))
        fun ⟨s,hs,hmem⟩ => hpn ⟨s,by simp [hs],hmem⟩
      refine ⟨r :: upper,lower,by rw [hsplit,cons_append],?_,?_,hlower⟩
      · simp [findIdx_cons,hle,hidx]
      · intro s hs
        rcases List.mem_cons.mp hs with rfl | hs
        · omega
        · exact hupper s hs

private theorem above_cases (hupper : ∀ r ∈ ranges, pn < r.start) :
    (∃ rest a, ranges = rest ++ [a] ∧ a.start = pn + 1 ∧ ∀ r ∈ rest, a.stop + 1 < r.start) ∨
      (∀ r ∈ ranges, pn + 1 < r.start) ∧ ¬ (ranges.getLast?).any (fun r => r.start == pn + 1) = true := by
  rcases eq_nil_or_concat ranges with rfl | ⟨rest,a,rfl⟩
  · exact .inr (by simp)
  · rw [concat_eq_append] at *
    obtain ⟨-,-,hall⟩ := pairwise_append.mp h.apart
    have ha := hupper a (by simp)
    have hne := h.nonempty a (by simp)
    have hrest : ∀ r ∈ rest, a.stop + 1 < r.start := fun r hr => hall r hr a (by simp)
    by_cases hstart : a.start = pn + 1
    · exact .inl ⟨rest,a,rfl,hstart,hrest⟩
    · refine .inr ⟨fun r hr => ?_,by simp [hstart]⟩
      rcases List.mem_append.mp hr with hr | hr
      · have := hrest r hr
        omega
      · obtain rfl := List.mem_singleton.mp hr
        omega

private theorem below_cases (hlower : ∀ r ∈ ranges, r.stop < pn) :
    (∃ b rest, ranges = b :: rest ∧ b.stop + 1 = pn ∧ ∀ r ∈ rest, r.stop + 1 < b.start) ∨
      (∀ r ∈ ranges, r.stop + 1 < pn) ∧ ¬ (ranges.head?).any (fun r => r.stop + 1 == pn) = true := by
  cases ranges with
  | nil => exact .inr (by simp)
  | cons b rest =>
    obtain ⟨hrest,-⟩ := pairwise_cons.mp h.apart
    have hb := hlower b (by simp)
    have hne := h.nonempty b (by simp)
    by_cases hstop : b.stop + 1 = pn
    · exact .inl ⟨b,rest,rfl,hstop,hrest⟩
    · refine .inr ⟨fun r hr => ?_,by simp [hstop]⟩
      rcases List.mem_cons.mp hr with rfl | hr
      · omega
      · have := hrest r hr
        omega

/-- The number joins the set, and the lowest range goes if there is no room for it. -/
theorem insert_spec (hlen : ranges.length ≤ maxAckRanges) (pn : Nat) :
    ∃ full, Sorted full ∧ (∀ x, Mem full x ↔ Mem ranges x ∨ x = pn) ∧ insert ranges pn = full.take maxAckRanges := by
  by_cases hpn : Mem ranges pn
  · refine ⟨ranges,h,fun x => ⟨.inl,fun hx => hx.elim id (by rintro rfl; exact hpn)⟩,?_⟩
    rw [insert,if_pos (by simpa [Mem] using hpn),take_of_length_le hlen]
  obtain ⟨upper,lower,rfl,hidx,hupper,hlower⟩ := exists_split h hpn
  have hany : ¬ ((upper ++ lower).any fun r => decide (r.start ≤ pn ∧ pn ≤ r.stop)) = true := by
    rw [List.any_eq_true]
    rintro ⟨r,hr,hmem⟩
    exact hpn ⟨r,hr,of_decide_eq_true hmem⟩
  have hu := h.sublist (sublist_append_left upper lower)
  have hl := h.sublist (sublist_append_right upper lower)
  have habove : (0 < upper.length ∧ ((upper ++ lower)[upper.length - 1]?).any (fun r => r.start == pn + 1) = true) ↔
      (upper.getLast?).any (fun r => r.start == pn + 1) = true := by
    rcases eq_nil_or_concat upper with rfl | ⟨rest,a,rfl⟩ <;> simp
  have hbelow : (upper ++ lower)[upper.length]? = lower.head? := by
    rw [getElem?_append_right (Nat.le_refl _),Nat.sub_self, head?_eq_getElem?]
  rw [insert,if_neg hany]
  simp only [hidx,habove,hbelow]
  rcases above_cases hu hupper with ⟨rest,a,rfl,ha,hrest⟩ | ⟨hfar,hno⟩ <;>
    rcases below_cases hl hlower with ⟨b,rest',rfl,hb,hrest'⟩ | ⟨hfar',hno'⟩
  · -- the number joins two ranges
    have hane := hu.nonempty a (by simp)
    have hbne := hl.nonempty b (by simp)
    refine ⟨rest ++ ⟨b.start,a.stop⟩ :: rest',?_,fun x => ?_,?_⟩
    · refine Sorted.middle (h.sublist ?_) (by dsimp only; omega) hrest hrest'
      exact (sublist_append_left rest [a]).append (sublist_cons_self b rest')
    · simp only [mem_append,mem_cons,append_assoc,singleton_append]
      grind
    · have hlen' : (rest ++ ⟨b.start,a.stop⟩ :: rest').length ≤ maxAckRanges := by
        simp only [length_append,length_cons,length_nil] at hlen ⊢
        omega
      have hmod : ∀ f, (rest ++ [a] ++ b :: rest').modify rest.length f = rest ++ [f a] ++ b :: rest' := fun f => by
        rw [append_assoc,singleton_append,modify_middle,append_assoc,singleton_append]
      have herase := eraseIdx_middle (rest ++ [⟨pn,a.stop⟩]) rest' b
      rw [length_append,length_singleton] at herase
      rw [if_pos (by simp [ha,hb]),take_of_length_le hlen',length_append,length_singleton,Nat.add_sub_cancel,
        hmod,herase,append_assoc,singleton_append,modify_middle]
      simp
  · have hane := hu.nonempty a (by simp)
    refine ⟨rest ++ ⟨pn,a.stop⟩ :: lower,?_,fun x => ?_,?_⟩
    · exact Sorted.middle (h.sublist ((sublist_append_left rest [a]).append_right lower)) (by dsimp only; omega) hrest hfar'
    · simp only [mem_append,mem_cons,append_assoc,singleton_append]
      grind
    · have hlen' : (rest ++ ⟨pn,a.stop⟩ :: lower).length ≤ maxAckRanges := by
        simp only [length_append,length_cons,length_nil] at hlen ⊢
        omega
      rw [if_neg fun hboth => hno' hboth.2,if_pos (by simp [ha]),take_of_length_le hlen',length_append,
        length_singleton,Nat.add_sub_cancel,append_assoc,singleton_append,modify_middle]
  · have hbne := hl.nonempty b (by simp)
    refine ⟨upper ++ ⟨b.start,pn⟩ :: rest',?_,fun x => ?_,?_⟩
    · exact Sorted.middle (h.sublist ((sublist_cons_self b rest').append_left upper)) (by dsimp only; omega) hfar hrest'
    · simp only [mem_append,mem_cons]
      grind
    · have hlen' : (upper ++ ⟨b.start,pn⟩ :: rest').length ≤ maxAckRanges := by
        simpa using hlen
      rw [if_neg fun hboth => hno hboth.1,if_neg hno,if_pos (by simp [hb]),take_of_length_le hlen',modify_middle]
  · refine ⟨upper ++ ⟨pn,pn⟩ :: lower,Sorted.middle h (Nat.le_refl pn) hfar hfar',fun x => ?_,?_⟩
    · simp only [mem_append,mem_cons]
      grind
    · rw [if_neg fun hboth => hno hboth.1,insertIdx_middle]
      split_ifs with hfull
      · -- the new range would be the one to go
        obtain ⟨hcap,hlow⟩ := hfull
        rw [length_append] at hlen hcap hlow
        obtain rfl : lower = [] := length_eq_zero_iff.mp (by omega)
        rw [append_nil,show maxAckRanges = upper.length by omega,take_left]
      · rfl
end
def run (pns : List Nat) : List AckRange := pns.foldl insert []

private theorem run_concat (pns : List Nat) (pn : Nat) : run (pns ++ [pn]) = insert (run pns) pn := by
  rw [run,foldl_append]
  rfl

/-- What the cap drops lies below what it leaves, which is as much as the cap allows. -/
private theorem Sorted.mem_take (h : Sorted ranges) (n : Nat) (hx : Mem ranges x) :
    Mem (ranges.take n) x ∨ (ranges.take n).length = n ∧ ∀ y, Mem (ranges.take n) y → x < y := by
  rw [← take_append_drop n ranges,mem_append] at hx
  refine hx.imp id fun ⟨r,hr,hrx⟩ => ⟨?_,fun y hy => ?_⟩
  · have := length_pos_of_mem hr
    rw [length_drop] at this
    exact length_take_of_le (by omega)
  obtain ⟨q,hq,hqy⟩ := hy
  have hapart := h.apart
  rw [← take_append_drop n ranges] at hapart
  have := (pairwise_append.mp hapart).2.2 q hq r hr
  omega

theorem run_sorted (pns : List Nat) : Sorted (run pns) ∧ (run pns).length ≤ maxAckRanges := by
  induction pns using List.reverseRecOn with
  | nil => exact ⟨⟨.nil,by simp [run]⟩,Nat.zero_le _⟩
  | append_singleton pns pn ih =>
    obtain ⟨full,hfull,-,heq⟩ := insert_spec ih.1 ih.2 pn
    rw [run_concat,heq]
    exact ⟨hfull.sublist (take_sublist _ _),length_take_le _ _⟩

private theorem mem_run_concat (pns : List Nat) (pn : Nat) : (Mem (run (pns ++ [pn])) x → Mem (run pns) x ∨ x = pn) ∧
      (Mem (run pns) x ∨ x = pn → Mem (run (pns ++ [pn])) x ∨
        (run (pns ++ [pn])).length = maxAckRanges ∧ ∀ y, Mem (run (pns ++ [pn])) y → x < y) := by
  obtain ⟨full,hfull,hmem,heq⟩ := insert_spec (run_sorted pns).1 (run_sorted pns).2 pn
  rw [run_concat,heq]
  refine ⟨fun ⟨r,hr,hx⟩ => (hmem x).mp ⟨r,(take_sublist _ _).subset hr,hx⟩,fun hx => ?_⟩
  exact hfull.mem_take _ ((hmem x).mpr hx)

theorem mem_of_mem_run (hx : Mem (run pns) x) : x ∈ pns := by
  induction pns using List.reverseRecOn with
  | nil => simp [run,Mem] at hx
  | append_singleton pns pn ih =>
    rcases (mem_run_concat pns pn).1 hx with hx | rfl
    · exact mem_append_left _ (ih hx)
    · simp

theorem run_ne_nil (hne : pns ≠ []) : ∃ y, Mem (run pns) y := by
  rcases eq_nil_or_concat pns with rfl | ⟨pns,pn,rfl⟩
  · exact absurd rfl hne
  · rw [concat_eq_append,run_concat]
    obtain ⟨full,hfull,hmem,heq⟩ := insert_spec (run_sorted pns).1 (run_sorted pns).2 pn
    obtain ⟨r,hr,-⟩ := (hmem pn).mpr (.inr rfl)
    obtain ⟨r,rest,rfl⟩ := exists_cons_of_ne_nil (ne_nil_of_mem hr)
    rw [heq]
    exact ⟨r.start,r,by simp [maxAckRanges],Nat.le_refl _,hfull.nonempty r (by simp)⟩

/-- The ranges are in order and few, hold nothing but what was inserted and the largest of it, and whatever is
missing was below everything held when the cap dropped it. -/
theorem insert_representation (pns : List Nat) :
    Sorted (run pns) ∧ (run pns).length ≤ maxAckRanges ∧ (∀ x, Mem (run pns) x → x ∈ pns) ∧
      (∀ x ∈ pns, ∃ y, Mem (run pns) y ∧ x ≤ y) ∧ ∀ x ∈ pns, Mem (run pns) x ∨
        ∃ before pn after, pns = before ++ pn :: after ∧ x ∈ before ++ [pn] ∧
          (run (before ++ [pn])).length = maxAckRanges ∧ ∀ y, Mem (run (before ++ [pn])) y → x < y := by
  refine ⟨(run_sorted pns).1,(run_sorted pns).2,fun x => mem_of_mem_run,?_⟩
  induction pns using List.reverseRecOn with
  | nil => simp [run,Mem]
  | append_singleton pns pn ih =>
    obtain ⟨hle,hdropped⟩ := ih
    have hkeeps : ∀ {x}, Mem (run pns) x ∨ x = pn → ∃ y, Mem (run (pns ++ [pn])) y ∧ x ≤ y := by
      intro x hx
      rcases (mem_run_concat pns pn).2 hx with hmem | ⟨-,hbelow⟩
      · exact ⟨x,hmem,Nat.le_refl x⟩
      · obtain ⟨y,hy⟩ := @run_ne_nil (pns ++ [pn]) (by simp)
        exact ⟨y,hy,Nat.le_of_lt (hbelow y hy)⟩
    refine ⟨fun x hx => ?_,fun x hx => ?_⟩
    · rcases List.mem_append.mp hx with hx | hx
      · obtain ⟨y,hy,hxy⟩ := hle x hx
        obtain ⟨z,hz,hyz⟩ := hkeeps (.inl hy)
        exact ⟨z,hz,Nat.le_trans hxy hyz⟩
      · exact hkeeps (.inr (List.mem_singleton.mp hx))
    · have hnow : Mem (run pns) x ∨ x = pn → Mem (run (pns ++ [pn])) x ∨ ∃ before q after,
          pns ++ [pn] = before ++ q :: after ∧ x ∈ before ++ [q] ∧ (run (before ++ [q])).length = maxAckRanges ∧
            ∀ y, Mem (run (before ++ [q])) y → x < y := fun h =>
        ((mem_run_concat pns pn).2 h).imp id fun hbelow => ⟨pns,pn,[],rfl,hx,hbelow⟩
      rcases List.mem_append.mp hx with hx' | hx'
      · rcases hdropped x hx' with hmem | ⟨before,q,after,rfl,hmem,hbelow⟩
        · exact hnow (.inl hmem)
        · exact .inr ⟨before,q,after ++ [pn],by simp,hmem,hbelow⟩
      · exact hnow (.inr (List.mem_singleton.mp hx'))

/-- Even numbers from 100 on until the first is dropped, one that joins two ranges, and one below all of them. -/
theorem dropped_above_retained :
    let pns := (List.range 33).map (100 + 2 * ·) ++ [163, 50]
    100 ∈ pns ∧ ¬ Mem (run pns) 100 ∧ Mem (run pns) 50 := by
  decide +kernel
end AckRanges
end PureCrypto.Quic
