import PureCrypto.Bignum.Arithmetic
import PureCrypto.Bignum.Uint

/-! # The numbers that fixed-width integers compute -/
namespace PureCrypto.Bignum
open Limbs List
open BitVec (eq_of_toNat_eq getLsbD_or toNat_ofNat)
open Nat (size zero_mod)
theorem adcLimbs_spec {as bs : List Limb} (hlength : as.length = bs.length) (c : Limb) (hc : c.toNat ≤ 1) :
    (adcLimbs as bs c).2.toNat ≤ 1 ∧ value (adcLimbs as bs c).1 + (2 ^ 64) ^ as.length * (adcLimbs as bs c).2.toNat =
        value as + value bs + c.toNat := by
  induction as generalizing bs c with
  | nil =>
    cases bs with
    | nil => simp [adcLimbs,hc]
    | cons b bs => cases hlength
  | cons a as ih =>
    cases bs with
    | nil => cases hlength
    | cons b bs =>
      obtain ⟨hdigit,hcarry⟩ := adc_spec a b c hc
      obtain ⟨hle,hrest⟩ := ih (Nat.succ.inj hlength) (adc a b c).2 hcarry
      rw [adcLimbs]
      rw [length_cons,pow_succ' (2 ^ 64) as.length,mul_assoc]
      simp only [value_cons]
      omega

theorem toNat_limbAt (l : List Limb) (i : Nat) : (limbAt l i).toNat = value l / (2 ^ 64) ^ i % 2 ^ 64 := by
  induction l generalizing i with
  | nil => simp [limbAt]
  | cons x l ih =>
    cases i with
    | zero =>
      rw [limbAt,getD_cons_zero,value_cons,pow_zero]
      omega
    | succ i =>
      rw [limbAt,getD_cons_succ,← limbAt,ih,value_cons,pow_succ' (2 ^ 64) i,← Nat.div_div_eq_div_mul]
      congr 2
      omega

theorem getLsbD_limbAt (l : List Limb) (i : Nat) {j : Nat} (hj : j < 64) :
    (limbAt l i).getLsbD j = (value l).testBit (64 * i + j) := by
  rw [← BitVec.testBit_toNat,toNat_limbAt,Nat.testBit_mod_two_pow,← pow_mul,Nat.testBit_div_two_pow]
  simp [hj,add_comm]

namespace Uint
variable {LIMBS : Nat}
theorem toNat_lt (x : Uint LIMBS) : x.toNat < (2 ^ 64) ^ LIMBS := by
  have h := value_lt x.limbs
  rwa [x.length_limbs] at h

theorem limbs_pos {x : Uint LIMBS} (h : 0 < x.toNat) : 0 < LIMBS := by
  rcases Nat.eq_zero_or_pos LIMBS with rfl | hpos
  · exact absurd x.toNat_lt (by omega)
  · exact hpos
variable {x y : Uint LIMBS}
theorem toNat_inj : x.toNat = y.toNat ↔ x = y := by
  refine ⟨fun h => ?_,fun h => by rw [h]⟩
  obtain ⟨l,hl⟩ := x
  obtain ⟨m,hm⟩ := y
  obtain rfl := value_inj (hl.trans hm.symm) h
  rfl

@[simp] theorem toNat_zero : (zero : Uint LIMBS).toNat = 0 := value_replicate_zero _
theorem toNat_fromSlice {src : List Limb} (h : src.length ≤ LIMBS) : (fromSlice src : Uint LIMBS).toNat = value src := by
  change value ((src ++ List.replicate LIMBS 0#64).take LIMBS) = value src
  rw [take_append,take_of_length_le h,take_replicate,value_append_zeros]
theorem toNat_fromU64 (v : Limb) (h : 0 < LIMBS) : (fromU64 v : Uint LIMBS).toNat = v.toNat := by
  rw [fromU64,toNat_fromSlice h]
  simp
theorem toNat_one (h : 0 < LIMBS) : (one : Uint LIMBS).toNat = 1 := toNat_fromU64 1#64 h

theorem adc_eq (x y : Uint LIMBS) : (x.adc y 0#64).2.toNat ≤ 1 ∧
      (x.adc y 0#64).1.toNat + (2 ^ 64) ^ LIMBS * (x.adc y 0#64).2.toNat = x.toNat + y.toNat := by
  have h := adcLimbs_spec (x.length_limbs.trans y.length_limbs.symm) 0#64 (Nat.zero_le _)
  rw [x.length_limbs] at h
  exact h

theorem sbb_eq (x y : Uint LIMBS) : (x.sbb y 0#64).2.toNat ≤ 1 ∧
      (x.sbb y 0#64).1.toNat + y.toNat = x.toNat + (2 ^ 64) ^ LIMBS * (x.sbb y 0#64).2.toNat := by
  obtain ⟨-,hle,h⟩ := sbbLimbs_spec (x.length_limbs.trans y.length_limbs.symm) 0#64 (Nat.zero_le _)
  rw [x.length_limbs] at h
  exact ⟨hle,h⟩

theorem toNat_wrappingAdd (h : x.toNat + y.toNat < (2 ^ 64) ^ LIMBS) :
    (x.wrappingAdd y).toNat = x.toNat + y.toNat := by
  obtain ⟨hle,hsum⟩ := x.adc_eq y
  rw [← hsum,wrappingAdd]
  rcases bit_cases hle with hc | hc
  · simp [hc]
  · rw [hc] at hsum
    simp only [toNat_ofNat,Nat.reducePow,Nat.reduceMod,mul_one] at hsum h
    omega

theorem sbb_borrow (x y : Uint LIMBS) : (x.sbb y 0#64).2 = if x.toNat < y.toNat then 1#64 else 0#64 := by
  obtain ⟨hle,hsub⟩ := x.sbb_eq y
  have hd := (x.sbb y 0#64).1.toNat_lt
  generalize (2 ^ 64) ^ LIMBS = width at *
  rcases bit_cases hle with hb | hb <;> rw [hb] at hsub ⊢
  · simp only [toNat_ofNat,zero_mod,mul_zero,add_zero] at hsub
    rw [if_neg (by omega)]
  · simp only [toNat_ofNat,Nat.reducePow,Nat.reduceMod,mul_one] at hsub
    rw [if_pos (by omega)]

theorem toNat_wrappingSub (h : y.toNat ≤ x.toNat) : (x.wrappingSub y).toNat = x.toNat - y.toNat := by
  obtain ⟨-,hsub⟩ := x.sbb_eq y
  rw [sbb_borrow,if_neg (by omega)] at hsub
  simp only [toNat_ofNat,zero_mod,mul_zero,add_zero] at hsub
  rw [wrappingSub]
  omega

theorem ctLt_eq (x y : Uint LIMBS) : x.ctLt y = decide (x.toNat < y.toNat) := by
  rw [ctLt,ctGt,sbb_borrow]
  split_ifs with h <;> simp [h]

theorem ctEq_eq (x y : Uint LIMBS) : x.ctEq y = decide (x = y) := by
  have hfold : ∀ (l m : List Limb) (acc : Bool), l.length = m.length →
      (l.zip m).foldl (fun acc ab => acc && Ct.ctEq ab.1 ab.2) acc = (acc && decide (l = m)) := by
    intro l
    induction l with
    | nil =>
      intro m acc h
      simp [length_eq_zero_iff.mp h.symm]
    | cons a l ih =>
      intro m acc h
      obtain ⟨b,m,rfl⟩ := exists_cons_of_length_pos (show 0 < m.length by simp [← h])
      rw [zip_cons_cons,foldl_cons,ih m _ (Nat.succ.inj h)]
      simp [Bool.and_assoc,Bool.decide_and]
  rw [ctEq,hfold _ _ _ (x.length_limbs.trans y.length_limbs.symm)]
  refine decide_eq_decide.mpr ⟨fun h => ?_,fun h => by rw [h]⟩
  obtain ⟨l,hl⟩ := x
  obtain rfl : l = y.limbs := h
  rfl

theorem isZero_eq (x : Uint LIMBS) : x.isZero = decide (x.toNat = 0) := by
  rw [isZero,ctEq_eq]
  exact decide_eq_decide.mpr (by rw [← toNat_inj,toNat_zero])

theorem isOdd_eq (x : Uint LIMBS) : x.isOdd = decide (x.toNat % 2 = 1) := by
  have hlimb := toNat_limbAt x.limbs 0
  rw [pow_zero,Nat.div_one] at hlimb
  have hbit : (limbAt x.limbs 0 &&& 1#64).toNat = x.toNat % 2 := by
    rw [BitVec.toNat_and,hlimb,toNat]
    change value x.limbs % 2 ^ 64 &&& 1 = _
    rw [Nat.and_one_is_mod]
    omega
  rw [isOdd]
  by_cases h : x.toNat % 2 = 1
  · have hne : limbAt x.limbs 0 &&& 1#64 ≠ 0#64 := by
      intro hzero
      rw [hzero] at hbit
      simp only [toNat_ofNat,zero_mod] at hbit
      omega
    simp [h,hne]
  · have hzero : limbAt x.limbs 0 &&& 1#64 = 0#64 := by
      apply eq_of_toNat_eq
      simp only [toNat_ofNat,zero_mod]
      omega
    simp [h,hzero]

theorem and_one_of_odd (hodd : x.toNat % 2 = 1) : limbAt x.limbs 0 &&& 1#64 = 1#64 := by
  have h := x.isOdd_eq
  rw [decide_eq_true hodd,Uint.isOdd,bne_iff_ne] at h
  refine (bit_cases ?_).resolve_left h
  exact Nat.and_le_right

theorem conditionalSelect_eq (a b : Uint LIMBS) (choice : Bool) :
    conditionalSelect a b choice = if choice then a else b := by
  have hzip : ∀ l m : List Limb, l.length = m.length →
      List.zipWith (fun a b => Ct.conditionalSelect a b choice) l m = if choice then l else m := by
    intro l
    induction l with
    | nil =>
      intro m h
      simp [length_eq_zero_iff.mp h.symm]
    | cons x l ih =>
      intro m h
      obtain ⟨y,m,rfl⟩ := exists_cons_of_length_pos (show 0 < m.length by simp [← h])
      rw [zipWith_cons_cons,ih m (Nat.succ.inj h),Ct.conditionalSelect_eq]
      cases choice <;> rfl
  obtain ⟨l,hl⟩ := a
  obtain ⟨m,hm⟩ := b
  have h := hzip l m (hl.trans hm.symm)
  cases choice <;> simpa [conditionalSelect] using h

theorem bitLen_eq (x : Uint LIMBS) : x.bitLen = size x.toNat := by
  rw [bitLen,BoxedUint.bitLenFrom_eq,toNat,take_of_length_le (Nat.le_of_eq x.length_limbs)]

theorem mulWide_eq (x y : Uint LIMBS) :
    (x.mulWide y).1.toNat + (2 ^ 64) ^ LIMBS * (x.mulWide y).2.toNat = x.toNat * y.toNat := by
  rcases Nat.eq_zero_or_pos LIMBS with rfl | hpos
  · have hx := x.toNat_lt
    have hlo := (x.mulWide y).1.toNat_lt
    have hhi := (x.mulWide y).2.toNat_lt
    rw [pow_zero,Nat.lt_one_iff] at hx hlo hhi
    rw [hx,hlo,hhi,Nat.zero_mul,Nat.mul_zero]
  · obtain ⟨hlo,hhi,hvalue⟩ := @mulRowsWide_spec x.limbs y.limbs (List.replicate LIMBS 0#64)
      (ne_nil_of_length_pos (by rw [y.length_limbs]; exact hpos)) (by rw [y.length_limbs,length_replicate])
    rw [x.length_limbs] at hlo hvalue
    rw [y.length_limbs] at hhi
    rw [value_replicate_zero,Nat.cast_zero,zero_add,← toNat_fromSlice (le_of_eq hlo),
      ← toNat_fromSlice (le_of_eq hhi)] at hvalue
    exact_mod_cast hvalue

theorem toNat_mulWide (h : x.toNat * y.toNat < (2 ^ 64) ^ LIMBS) : (x.mulWide y).1.toNat = x.toNat * y.toNat := by
  have hvalue := x.mulWide_eq y
  rcases Nat.eq_zero_or_pos (x.mulWide y).2.toNat with hzero | hpos
  · rwa [hzero,mul_zero] at hvalue
  · have hle := Nat.le_mul_of_pos_right ((2 ^ 64) ^ LIMBS) hpos
    omega
variable (x : Uint LIMBS)
theorem limbAt_shrBits (shift i : Nat) {j : Nat} (hj : j < 64) :
    (limbAt (x.shrBits shift).limbs i).getLsbD j = x.toNat.testBit (64 * i + j + shift) := by
  have hshift := Nat.div_add_mod shift 64
  have hbit := Nat.mod_lt shift (show 0 < 64 by decide)
  -- past the width the number has no bits
  have hpast : ∀ k, 64 * LIMBS ≤ k → x.toNat.testBit k = false := by
    intro k hk
    apply Nat.testBit_lt_two_pow
    have hlt := x.toNat_lt
    rw [← pow_mul] at hlt
    exact lt_of_lt_of_le hlt (Nat.pow_le_pow_right (by decide) hk)
  by_cases hi : i < LIMBS
  · have hget : limbAt (x.shrBits shift).limbs i =
        if i + shift / 64 < LIMBS then
          (if 0 < shift % 64 ∧ i + shift / 64 + 1 < LIMBS then
            limbAt x.limbs (i + shift / 64) >>> (shift % 64) |||
              limbAt x.limbs (i + shift / 64 + 1) <<< (64 - shift % 64)
          else limbAt x.limbs (i + shift / 64) >>> (shift % 64)) else 0#64 := by
      simp [limbAt,shrBits,hi]
    rw [hget]
    generalize shift / 64 = limbShift at *
    generalize shift % 64 = bitShift at *
    by_cases hsrc : i + limbShift < LIMBS
    · rw [if_pos hsrc]
      -- the bit comes from the limb itself or from the one above it
      by_cases hlow : bitShift + j < 64
      · have hfirst : (limbAt x.limbs (i + limbShift) >>> bitShift).getLsbD j = x.toNat.testBit (64 * i + j + shift) := by
          rw [BitVec.getLsbD_ushiftRight,getLsbD_limbAt _ _ hlow]
          congr 1
          omega
        split_ifs with hnext
        · rw [getLsbD_or,hfirst]
          simp [show j < 64 - bitShift by omega]
        · exact hfirst
      · have hfirst : (limbAt x.limbs (i + limbShift) >>> bitShift).getLsbD j = false := by
          rw [BitVec.getLsbD_ushiftRight]
          exact BitVec.getLsbD_of_ge _ _ (by omega)
        split_ifs with hnext
        · rw [getLsbD_or,hfirst,BitVec.getLsbD_shiftLeft,getLsbD_limbAt _ _ (by omega),toNat,
            show 64 * (i + limbShift + 1) + (j - (64 - bitShift)) = 64 * i + j + shift by omega]
          simp [hj,show ¬ j < 64 - bitShift by omega]
        · rw [hfirst,hpast _ (by omega)]
    · rw [if_neg hsrc,BitVec.getLsbD_zero,hpast _ (by omega)]
  · rw [hpast _ (by omega)]
    simp [limbAt,shrBits,hi]

theorem toNat_shrBits (shift : Nat) : (x.shrBits shift).toNat = x.toNat / 2 ^ shift := by
  refine Nat.eq_of_testBit_eq fun k => ?_
  have h := limbAt_shrBits x shift (k / 64) (Nat.mod_lt k (show 0 < 64 by decide))
  rw [getLsbD_limbAt _ _ (Nat.mod_lt k (by decide)),Nat.div_add_mod] at h
  rw [toNat,h,Nat.testBit_div_two_pow]

theorem toNat_or_bit {w bit : Limb} (hw : w.toNat % 2 = 0) (hbit : bit.toNat ≤ 1) :
    (w ||| bit).toNat = w.toNat + bit.toNat := by
  have heven : w.toNat = (w.toNat / 2) <<< 1 := by
    omega
  rw [BitVec.toNat_or,heven,← Nat.shiftLeft_add_eq_or_of_lt (by omega)]

theorem shiftIn_eq (r : Uint LIMBS) {bit : Limb} (hL : 0 < LIMBS) (hbit : bit.toNat ≤ 1) : shiftIn r.limbs bit =
      ((r.adc r 0#64).1.limbs.set 0 (limbAt (r.adc r 0#64).1.limbs 0 ||| bit), (r.adc r 0#64).2) := by
  obtain ⟨hcarry,hsum⟩ := r.adc_eq r
  obtain ⟨hlen,hout,hshift⟩ := shiftIn_spec r.limbs bit hbit
  have hdlen := (r.adc r 0#64).1.length_limbs
  have hdoubled := (r.adc r 0#64).1.toNat_lt
  rw [toNat] at hsum hdoubled
  rw [r.length_limbs] at hlen hshift
  have hbelow := value_lt (shiftIn r.limbs bit).1
  rw [hlen] at hbelow
  generalize (r.adc r 0#64).2 = carry at *
  generalize (r.adc r 0#64).1.limbs = doubled at *
  obtain ⟨w,doubled,rfl⟩ := exists_cons_of_length_pos (show 0 < doubled.length by omega)
  have hwidth : (2 ^ 64) ^ LIMBS = 2 * (2 ^ 63 * (2 ^ 64) ^ (LIMBS - 1)) := by
    rw [← mul_assoc,show 2 * 2 ^ 63 = 2 ^ 64 by rfl,← pow_succ' (2 ^ 64) (LIMBS - 1),Nat.sub_add_cancel hL]
  have hvalue : value (List.set (w :: doubled) 0 (limbAt (w :: doubled) 0 ||| bit)) =
      value (w :: doubled) + bit.toNat := by
    have heven : w.toNat % 2 = 0 := by
      rw [hwidth,value_cons,mul_assoc] at hsum
      omega
    rw [limbAt,getD_cons_zero,set_cons_zero,value_cons,toNat_or_bit heven hbit,value_cons]
    omega
  have hnext : value (w :: doubled) + bit.toNat < (2 ^ 64) ^ LIMBS := by
    rw [hwidth] at hsum hdoubled ⊢
    rw [mul_assoc] at hsum
    omega
  have hparts := carry_unique hnext hbelow (c := carry.toNat) (d := (shiftIn r.limbs bit).2.toNat) (by
    rw [toNat] at hsum
    omega)
  rw [Prod.ext_iff]
  refine ⟨value_inj ?_ ?_,eq_of_toNat_eq hparts.2.symm⟩
  · rw [hlen,length_set,hdlen]
  · rw [hvalue,hparts.1]

theorem limbs_reduceBit (modulus r : Uint LIMBS) {bit : Limb} (hL : 0 < LIMBS) (hbit : bit.toNat ≤ 1) :
    (reduceBit modulus r bit).limbs = divideBit modulus.limbs r.limbs bit := by
  have hlen : (sbbLimbs (shiftIn r.limbs bit).1 modulus.limbs 0#64).1.length = (shiftIn r.limbs bit).1.length := by
    obtain ⟨h,-,-⟩ := shiftIn_spec r.limbs bit hbit
    rw [length_sbbLimbs,h,r.length_limbs,modulus.length_limbs,Nat.min_self]
  have hdivide : divideBit modulus.limbs r.limbs bit = assignLimbs (shiftIn r.limbs bit).1
      (sbbLimbs (shiftIn r.limbs bit).1 modulus.limbs 0#64).1
      ((shiftIn r.limbs bit).2 ||| ((sbbLimbs (shiftIn r.limbs bit).1 modulus.limbs 0#64).2 ^^^ 1#64) != 0#64) := rfl
  rw [hdivide,assignLimbs_eq hlen.symm,shiftIn_eq r hL hbit]
  dsimp only [reduceBit]
  rw [conditionalSelect_eq,apply_ite Uint.limbs]
  rfl

theorem toNat_reduce {modulus : Uint LIMBS} (h : 0 < modulus.toNat) :
    ∃ r, x.reduce modulus = some r ∧ r.toNat = x.toNat % modulus.toNat := by
  have hL := limbs_pos h
  have hbits : ∀ (limb : Limb) (r : Uint LIMBS),
      ((List.range 64).reverse.foldl (fun r bit => reduceBit modulus r (limb >>> bit &&& 1#64)) r).limbs =
        divideLimb modulus.limbs r.limbs limb := by
    intro limb r
    refine (foldl_hom Uint.limbs fun r bit => ?_).symm
    refine (limbs_reduceBit modulus r hL ?_).symm
    exact Nat.and_le_right
  refine ⟨_,if_neg (by rw [isZero_eq]; simp; omega),?_⟩
  obtain ⟨-,hvalue⟩ := @divideLimbs_spec modulus.limbs zero.limbs x.limbs
    (zero.length_limbs.trans modulus.length_limbs.symm) (by rw [← toNat,toNat_zero]; exact h)
  rw [← toNat,toNat_zero,zero_mul,zero_add] at hvalue
  rw [toNat,← foldl_hom Uint.limbs fun r limb => (hbits limb r).symm]
  exact hvalue
end Uint
end PureCrypto.Bignum
