import Mathlib.Data.List.Basic

/-! # Text by its bytes -/
namespace PureCrypto.AsciiText
open List
section Case
def lowerByte (b : UInt8) : UInt8 := if 65 ≤ b ∧ b ≤ 90 then b + 32 else b

def lower (s : List UInt8) : List UInt8 := s.map lowerByte
def eqIgnoreCase (s t : List UInt8) : Bool := lower s == lower t

/-- Folding leaves everything below the letters alone, and maps nothing there. -/
theorem lowerByte_eq_iff {b c : UInt8} (hc : c.toNat < 65) : lowerByte b = c ↔ b = c := by
  unfold lowerByte
  split_ifs with hb
  · have hlow : 65 ≤ b.toNat := UInt8.le_iff_toNat_le.mp hb.1
    have hhigh : b.toNat ≤ 90 := UInt8.le_iff_toNat_le.mp hb.2
    rw [← UInt8.toNat_inj,← UInt8.toNat_inj]
    change (b.toNat + 32) % 256 = c.toNat ↔ _
    omega
  · rfl

@[simp] theorem lower_nil : lower [] = [] := rfl
@[simp] theorem lower_cons (b : UInt8) (s : List UInt8) : lower (b :: s) = lowerByte b :: lower s := rfl
@[simp] theorem lower_append (s t : List UInt8) : lower (s ++ t) = lower s ++ lower t :=
  map_append
theorem lower_eq_nil {s : List UInt8} : lower s = [] ↔ s = [] := map_eq_nil_iff

theorem mem_lower {c : UInt8} (hc : c.toNat < 65) {s : List UInt8} : c ∈ lower s ↔ c ∈ s := by
  rw [lower,List.mem_map]
  constructor
  · rintro ⟨b,hb,heq⟩
    rwa [← (lowerByte_eq_iff hc).mp heq]
  · exact fun h => ⟨c,h,(lowerByte_eq_iff hc).mpr rfl⟩
end Case
section Split
variable {α : Type} [DecidableEq α]
/-- What stands before and behind the first `sep`. -/
def splitOnce (sep : α) : List α → Option (List α × List α)
  | [] => none
  | b :: s => if b = sep then some ([], s) else (splitOnce sep s).map fun p => (b :: p.1, p.2)

/-- What stands before and behind the last `sep`. -/
def rsplitOnce (sep : α) (s : List α) : Option (List α × List α) :=
  (splitOnce sep s.reverse).map fun p => (p.2.reverse, p.1.reverse)

theorem splitOnce_eq_some {sep : α} {s before after : List α}
    (h : splitOnce sep s = some (before, after)) : s = before ++ sep :: after ∧ sep ∉ before := by
  induction s generalizing before with
  | nil => cases h
  | cons b s ih =>
    unfold splitOnce at h
    split_ifs at h with hb
    · cases h
      exact ⟨by rw [hb]; rfl,not_mem_nil⟩
    · obtain ⟨p,hp,heq⟩ := Option.map_eq_some_iff.mp h
      cases heq
      obtain ⟨rfl,hnone⟩ := ih hp
      refine ⟨rfl,fun hmem => ?_⟩
      rcases List.mem_cons.mp hmem with heq | hmem
      · exact hb heq.symm
      · exact hnone hmem

omit [DecidableEq α] in
/-- A suffix that starts with `sep` starts behind everything without `sep`. -/
theorem cons_suffix_append {sep : α} {x before after : List α} (hbefore : sep ∉ before) :
    sep :: x <:+ before ++ after ↔ sep :: x <:+ after := by
  induction before with
  | nil => rfl
  | cons b before ih =>
    rw [List.mem_cons,not_or] at hbefore
    rw [cons_append,suffix_cons_iff,ih hbefore.2]
    constructor
    · rintro (heq | h)
      · exact absurd (List.cons.inj heq).1 hbefore.1
      · exact h
    · exact .inr
end Split
end PureCrypto.AsciiText
