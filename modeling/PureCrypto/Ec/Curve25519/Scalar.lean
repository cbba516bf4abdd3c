import PureCrypto.Bignum.UintArithmetic
import PureCrypto.Framework.ModularArithmetic
import PureCrypto.Framework.Blocks

/-!
# Scalars modulo the group order of edwards25519

`ec/curve25519/scalar.rs`.  The reduction works on five limbs, modulo `2 ^ 320`; the intermediate values
are wiped by the source and have no other use.
-/
namespace PureCrypto.Bignum.Uint
open Limbs LittleEndian List
/-- Limbs past the end of the bytes stay zero. -/
def fromLeBytes {LIMBS : Nat} (bytes : List UInt8) : Option (Uint LIMBS) :=
  if bytes.length ≤ LIMBS * 8 then
    some ⟨(Blocks.blocks 8 LIMBS bytes).map fun buf => BitVec.ofNat 64 (leNat buf), by simp⟩
  else none

theorem fromLeBytes_spec {LIMBS : Nat} {bytes : List UInt8} (h : bytes.length ≤ LIMBS * 8) :
    ∃ x : Uint LIMBS, fromLeBytes bytes = some x ∧ x.toNat = leNat bytes := by
  refine ⟨_,if_pos h,?_⟩
  rw [toNat]
  induction LIMBS generalizing bytes with
  | zero =>
    rw [zero_mul,Nat.le_zero,length_eq_zero_iff] at h
    rw [h]
    rfl
  | succ k ih =>
    simp only [Blocks.blocks,map_cons,value_cons]
    rw [ih (by rw [length_drop]; omega),BitVec.toNat_ofNat,← leNat_mod,
      ← leNat_div,show 256 ^ 8 = 2 ^ 64 from rfl,Nat.mod_mod,Nat.mod_add_div]
end PureCrypto.Bignum.Uint
namespace PureCrypto.Ec.Curve25519
open Bignum Limbs LittleEndian
def groupOrder : Nat := 2 ^ 252 + 27742317777372353535851937790883648493

def l5 : Uint 5 := ⟨[0x5812631a5cf5d3ed, 0x14def9dea2f79cd6, 0, 0x1000000000000000, 0], rfl⟩
def mu : Uint 5 :=
  ⟨[0xed9ce5a30a2c131b, 0x2106215d086329a7, 0xffffffffffffffeb, 0xffffffffffffffff, 0xf], rfl⟩
def subLIfGe (r : Uint 5) : Uint 5 :=
  let (d, borrow) := r.sbb l5 0#64
  Uint.conditionalSelect d r (borrow ^^^ 1#64 != 0#64)

/-- The `q3` of `reduce512`. -/
def quotient (x : Uint 8) : Uint 5 :=
  let q1 : Uint 5 := ⟨x.limbs.drop 3, by rw [List.length_drop, x.length_limbs]⟩
  (q1.mulWide mu).2

/-- The `r3` of `reduce512`. -/
def remainder (x : Uint 8) : Uint 5 :=
  let r1 : Uint 5 := ⟨x.limbs.take 5, by rw [List.length_take, x.length_limbs]; rfl⟩
  r1.wrappingSub ((quotient x).mulWide l5).1

def reduce512 (x : Uint 8) : Uint 4 :=
  let r := subLIfGe (subLIfGe (remainder x))
  ⟨r.limbs.take 4, by rw [List.length_take, r.length_limbs]; rfl⟩
def join (lo hi : Uint 4) : Uint 8 :=
  ⟨lo.limbs ++ hi.limbs, by rw [List.length_append, lo.length_limbs, hi.length_limbs]⟩
def widen (a : Uint 4) : Uint 8 := join a Uint.zero
def scalarReduceWide (bytes : List UInt8) : Option (Uint 4) := (Uint.fromLeBytes bytes).map reduce512
def scalarMuladd (r k a : Uint 4) : Uint 4 :=
  let (lo, hi) := k.mulWide a
  reduce512 ((join lo hi).adc (widen r) 0#64).1
theorem toNat_l5 : l5.toNat = groupOrder := by decide
theorem toNat_mu : mu.toNat = (2 ^ 64) ^ 3 * (2 ^ 64) ^ 5 / groupOrder := by decide +kernel

theorem toNat_subLIfGe (r : Uint 5) :
    (subLIfGe r).toNat = if r.toNat < groupOrder then r.toNat else r.toNat - groupOrder := by
  rw [subLIfGe]
  dsimp only
  rw [Uint.conditionalSelect_eq,Uint.sbb_borrow,toNat_l5]
  by_cases hlt : r.toNat < groupOrder
  · rw [if_pos hlt,if_pos hlt]
    rfl
  · rw [if_neg hlt,if_neg hlt,← toNat_l5]
    exact Uint.toNat_wrappingSub (toNat_l5 ▸ not_lt.mp hlt)

theorem toNat_quotient (x : Uint 8) :
    (quotient x).toNat = Barrett.estimate ((2 ^ 64) ^ 3) ((2 ^ 64) ^ 5) groupOrder x.toNat := by
  let q1 : Uint 5 := ⟨x.limbs.drop 3,by rw [List.length_drop,x.length_limbs]⟩
  have hsplit : value (x.limbs.take 3) + (2 ^ 64) ^ 3 * q1.toNat = x.toNat :=
    value_take_add_drop x.limbs (by rw [x.length_limbs]; decide)
  have hlow := value_lt (x.limbs.take 3)
  rw [List.length_take,x.length_limbs,min_eq_left (by decide)] at hlow
  have hproduct := q1.mulWide_eq mu
  have hrest := (q1.mulWide mu).1.toNat_lt
  have hq1 : x.toNat / (2 ^ 64) ^ 3 = q1.toNat := by
    rw [← hsplit,Nat.add_mul_div_left _ _ (by decide),Nat.div_eq_of_lt hlow,zero_add]
  rw [Barrett.estimate,← toNat_mu,hq1,← hproduct,Nat.add_mul_div_left _ _ (by decide),Nat.div_eq_of_lt hrest,zero_add]
  rfl

/-- Modulo `2 ^ 320` the remainder has only one value in range. -/
theorem remainder_spec (x : Uint 8) : (remainder x).toNat + (quotient x).toNat * groupOrder = x.toNat ∧
      (remainder x).toNat < 3 * groupOrder := by
  let r1 : Uint 5 := ⟨x.limbs.take 5,by rw [List.length_take,x.length_limbs]; rfl⟩
  have hsplit : r1.toNat + (2 ^ 64) ^ 5 * value (x.limbs.drop 5) = x.toNat :=
    value_take_add_drop x.limbs (by rw [x.length_limbs]; decide)
  have hx : x.toNat < (2 ^ 64) ^ 3 * (2 ^ 64) ^ 5 := x.toNat_lt
  have hle := Barrett.estimate_mul_le (n := groupOrder) hx
  have hlt := Barrett.lt_estimate_add_mul (n := groupOrder) (by decide) hx
  rw [← toNat_quotient] at hle hlt
  have hproduct := (quotient x).mulWide_eq l5
  rw [toNat_l5] at hproduct
  obtain ⟨-,hsub⟩ := r1.sbb_eq ((quotient x).mulWide l5).1
  have hbelow : (remainder x).toNat < (2 ^ 64) ^ 5 := (remainder x).toNat_lt
  change (remainder x).toNat + _ = _ at hsub
  rw [add_mul] at hlt
  generalize (quotient x).toNat * groupOrder = multiple at *
  rw [groupOrder] at *
  omega

theorem toNat_reduce512 (x : Uint 8) : (reduce512 x).toNat = x.toNat % groupOrder := by
  obtain ⟨hvalue,hlt⟩ := remainder_spec x
  set r := subLIfGe (subLIfGe (remainder x)) with hr
  have hsplit : (reduce512 x).toNat + (2 ^ 64) ^ 4 * value (r.limbs.drop 4) = r.toNat :=
    value_take_add_drop r.limbs (by rw [r.length_limbs]; decide)
  have hmod : r.toNat = (remainder x).toNat % groupOrder := by
    rw [hr,toNat_subLIfGe,toNat_subLIfGe]
    rw [groupOrder] at *
    split_ifs <;> omega
  rw [← hvalue,Nat.add_mul_mod_self_right,← hmod]
  have hsmall : r.toNat < groupOrder := hmod ▸ Nat.mod_lt _ (by decide)
  rw [groupOrder] at hsmall
  omega

theorem toNat_join (lo hi : Uint 4) : (join lo hi).toNat = lo.toNat + (2 ^ 64) ^ 4 * hi.toNat := by
  rw [Uint.toNat,join,value_append,lo.length_limbs]
  rfl
theorem toNat_widen (a : Uint 4) : (widen a).toNat = a.toNat := by
  rw [widen,toNat_join,Uint.toNat_zero,mul_zero,add_zero]

/-- The product and the sum fit into 512 bits. -/
theorem muladd_sum (r k a : Uint 4) :
    let sum := (join (k.mulWide a).1 (k.mulWide a).2).adc (widen r) 0#64
    sum.2 = 0#64 ∧ sum.1.toNat = r.toNat + k.toNat * a.toNat := by
  intro sum
  have hr := r.toNat_lt
  have hproduct : k.toNat * a.toNat ≤ ((2 ^ 64) ^ 4 - 1) * ((2 ^ 64) ^ 4 - 1) :=
    Nat.mul_le_mul (Nat.le_pred_of_lt k.toNat_lt) (Nat.le_pred_of_lt a.toNat_lt)
  obtain ⟨-,hsum⟩ : _ ∧ sum.1.toNat + (2 ^ 64) ^ 8 * sum.2.toNat = _ := Uint.adc_eq _ _
  rw [toNat_join,k.mulWide_eq,toNat_widen] at hsum
  exact ⟨BitVec.eq_of_toNat_eq (show sum.2.toNat = 0 by omega),by omega⟩

/-- The quotient estimate is at most two too small, so that two conditional subtractions reduce every input;
sums of the multiply-add lose no carry. -/
theorem barrett_reduction_exact : (∀ x : Uint 8, (remainder x).toNat + (quotient x).toNat * groupOrder = x.toNat ∧
      (remainder x).toNat < 3 * groupOrder ∧ (reduce512 x).toNat = x.toNat % groupOrder) ∧
    (∀ bytes : List UInt8, bytes.length = 64 →
      ∃ s, scalarReduceWide bytes = some s ∧ s.toNat = leNat bytes % groupOrder) ∧
    ∀ r k a : Uint 4, ((join (k.mulWide a).1 (k.mulWide a).2).adc (widen r) 0#64).2 = 0#64 ∧
      (scalarMuladd r k a).toNat = (r.toNat + k.toNat * a.toNat) % groupOrder := by
  refine ⟨fun x => ?_,fun bytes h => ?_,fun r k a => ?_⟩
  · obtain ⟨hvalue,hlt⟩ := remainder_spec x
    exact ⟨hvalue,hlt,toNat_reduce512 x⟩
  · obtain ⟨x,hx,hvalue⟩ := @Uint.fromLeBytes_spec 8 bytes h.le
    refine ⟨reduce512 x,?_,by rw [toNat_reduce512,hvalue]⟩
    rw [scalarReduceWide,hx]
    rfl
  · obtain ⟨hcarry,hsum⟩ := muladd_sum r k a
    refine ⟨hcarry,?_⟩
    rw [← hsum,← toNat_reduce512]
    rfl
end PureCrypto.Ec.Curve25519
