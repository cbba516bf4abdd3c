import Mathlib.Order.Interval.Finset.Nat
import Mathlib.Order.Lattice

/-!
# Slots that are opened once, and the credit for them

Slots are opened in any order, and opening one reserves every unused slot below it. A slot is never opened
again after it is retired. A receiver grants a limit, announces it with a delay, and raises it to `target`
once what was consumed comes within half a window of what was announced.
-/
namespace PureCrypto
open Finset (disjoint_empty_left disjoint_left erase_subset mem_Ico mem_union mem_erase mem_insert)
/-- The slots below `used`, partitioned. -/
structure SlotLedger where
  used : Nat
  live : Finset Nat
  reserved : Finset Nat
  retired : Finset Nat
  cover : live ∪ reserved ∪ retired = Finset.range used
  live_reserved : Disjoint live reserved
  live_retired : Disjoint live retired
  reserved_retired : Disjoint reserved retired
namespace SlotLedger
def empty : SlotLedger where
  used := 0
  live := ∅
  reserved := ∅
  retired := ∅
  cover := rfl
  live_reserved := disjoint_empty_left _
  live_retired := disjoint_empty_left _
  reserved_retired := disjoint_empty_left _
variable (l : SlotLedger) {n : Nat}
theorem lt_used_iff : n < l.used ↔ n ∈ l.live ∨ n ∈ l.reserved ∨ n ∈ l.retired := by
  rw [← Finset.mem_range,← l.cover]
  simp

theorem notMem_retired_of_openable (h : l.used ≤ n ∨ n ∈ l.reserved) : n ∉ l.retired := by
  intro hretired
  rcases h with h | h
  · exact absurd (l.lt_used_iff.mpr (.inr (.inr hretired))) (not_lt.mpr h)
  · exact disjoint_left.mp l.reserved_retired h hretired

theorem card_add_card_add_card : l.live.card + l.reserved.card + l.retired.card = l.used := by
  have hdisj : Disjoint (l.live ∪ l.reserved) l.retired :=
    Finset.disjoint_union_left.mpr ⟨l.live_retired,l.reserved_retired⟩
  rw [← Finset.card_union_of_disjoint l.live_reserved,← Finset.card_union_of_disjoint hdisj,l.cover,Finset.card_range]

private theorem lt_opened_iff (n m : Nat) : m < max l.used (n + 1) ↔
    (m = n ∨ m ∈ l.live) ∨ (m ≠ n ∧ (m ∈ l.reserved ∨ min l.used n ≤ m ∧ m < n)) ∨ m ∈ l.retired := by
  by_cases hmn : m = n
  · exact iff_of_true (by omega) (.inl (.inl hmn))
  constructor
  · intro hlt
    by_cases hused : m < l.used
    · rcases l.lt_used_iff.mp hused with h | h | h
      · exact .inl (.inr h)
      · exact .inr (.inl ⟨hmn,.inl h⟩)
      · exact .inr (.inr h)
    · exact .inr (.inl ⟨hmn,.inr ⟨by omega,by omega⟩⟩)
  · rintro ((h | h) | ⟨-,h | ⟨-,h⟩⟩ | h)
    · exact absurd h hmn
    · exact lt_max_of_lt_left (l.lt_used_iff.mpr (.inl h))
    · exact lt_max_of_lt_left (l.lt_used_iff.mpr (.inr (.inl h)))
    · exact lt_max_of_lt_right (by omega)
    · exact lt_max_of_lt_left (l.lt_used_iff.mpr (.inr (.inr h)))

private theorem used_le_of_reserved {used m n : Nat} (h : min used n ≤ m ∧ m < n) : used ≤ m := by
  omega

def openSlot (n : Nat) (h : l.used ≤ n ∨ n ∈ l.reserved) : SlotLedger where
  used := max l.used (n + 1)
  live := insert n l.live
  reserved := (l.reserved ∪ Finset.Ico (min l.used n) n).erase n
  retired := l.retired
  cover := by
    ext m
    simp only [mem_union, mem_insert, mem_erase, mem_Ico, Finset.mem_range, l.lt_opened_iff, or_assoc]
  live_reserved := by
    rw [disjoint_left]
    intro m hlive hres
    simp only [mem_insert, mem_erase, mem_union, mem_Ico] at hlive hres
    rcases hlive with hlive | hlive
    · exact hres.1 hlive
    · rcases hres.2 with hres | hres
      · exact disjoint_left.mp l.live_reserved hlive hres
      · exact absurd (l.lt_used_iff.mpr (.inl hlive)) (not_lt.mpr (used_le_of_reserved hres))
  live_retired := by
    rw [Finset.disjoint_insert_left]
    exact ⟨l.notMem_retired_of_openable h, l.live_retired⟩
  reserved_retired := by
    rw [disjoint_left]
    intro m hres hretired
    simp only [mem_erase, mem_union, mem_Ico] at hres
    rcases hres.2 with hres | hres
    · exact disjoint_left.mp l.reserved_retired hres hretired
    · exact absurd (l.lt_used_iff.mpr (.inr (.inr hretired)))
        (not_lt.mpr (used_le_of_reserved hres))
section
variable (h : l.used ≤ n ∨ n ∈ l.reserved)
include h
@[simp] theorem live_openSlot : (l.openSlot n h).live = insert n l.live := rfl

@[simp] theorem reserved_openSlot :
    (l.openSlot n h).reserved = (l.reserved ∪ Finset.Ico (min l.used n) n).erase n := rfl

@[simp] theorem used_openSlot : (l.openSlot n h).used = max l.used (n + 1) := rfl
end
def retire (n : Nat) (h : n ∈ l.live) : SlotLedger where
  used := l.used
  live := l.live.erase n
  reserved := l.reserved
  retired := insert n l.retired
  cover := by
    rw [← l.cover]
    ext m
    simp only [mem_union, mem_erase, mem_insert]
    by_cases hmn : m = n
    · subst hmn
      simp [h]
    · simp [hmn]
  live_reserved := l.live_reserved.mono_left (erase_subset n l.live)
  live_retired := by
    rw [Finset.disjoint_insert_right]
    exact ⟨Finset.notMem_erase n l.live, l.live_retired.mono_left (erase_subset n l.live)⟩
  reserved_retired := by
    rw [Finset.disjoint_insert_right]
    exact ⟨disjoint_left.mp l.live_reserved h, l.reserved_retired⟩

@[simp] theorem live_retire (h : n ∈ l.live) : (l.retire n h).live = l.live.erase n := rfl
@[simp] theorem retired_retire (h : n ∈ l.live) : (l.retire n h).retired = insert n l.retired := rfl

theorem card_retired_retire (h : n ∈ l.live) : (l.retire n h).retired.card = l.retired.card + 1 :=
  Finset.card_insert_of_notMem (disjoint_left.mp l.live_retired h)
end SlotLedger
end PureCrypto
namespace PureCrypto.CreditWindow
variable {window announced limit consumed target : Nat}
/-- The limit after a replenishment check. -/
def grant (window announced limit consumed target : Nat) : Nat :=
  if window = 0 then limit
  else if announced < consumed + window / 2 then max limit target
  else limit

theorem grant_eq_ite : grant window announced limit consumed target = if window = 0 then limit
    else if announced < consumed + window / 2 then if limit < target then target else limit
    else limit := by
  unfold grant
  by_cases hraise : limit < target
  · rw [if_pos hraise,max_eq_right (le_of_lt hraise)]
  · rw [if_neg hraise,max_eq_left (not_lt.mp hraise)]

theorem le_grant : limit ≤ grant window announced limit consumed target := by
  unfold grant
  split_ifs
  · exact le_refl limit
  · exact le_max_left limit target
  · exact le_refl limit

theorem grant_le {bound : Nat} (hlimit : limit ≤ bound) (htarget : target ≤ bound) :
    grant window announced limit consumed target ≤ bound := by
  unfold grant
  split_ifs
  · exact hlimit
  · exact max_le hlimit htarget
  · exact hlimit

/-- With a window of at least two units the limit stays ahead of what was consumed. -/
theorem lt_grant (hwindow : 2 ≤ window) (hannounced : announced ≤ limit) (htarget : consumed < target) :
    consumed < grant window announced limit consumed target := by
  unfold grant
  split_ifs with hzero hlow
  · omega
  · exact lt_of_lt_of_le htarget (le_max_right limit target)
  · omega
end PureCrypto.CreditWindow
