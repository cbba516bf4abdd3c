import PureCrypto.Bignum.Montgomery
import PureCrypto.Bignum.MontgomerySquare
import PureCrypto.Bignum.UintArithmetic
import PureCrypto.Framework.PowerLadder

/-! # The Montgomery form -/
namespace PureCrypto.Bignum
open Limbs List
open BitVec (toNat_ofNat)
open Nat (mod_eq_of_lt mul_zero zero_mod size)
variable {LIMBS : Nat}
theorem select_eq (a b : Uint LIMBS) {bit : Limb} (hbit : bit.toNat ≤ 1) :
    select a b bit = if bit = 1#64 then a else b := by
  have h := Uint.conditionalSelect_eq a b (bit == 1#64)
  rcases bit_cases hbit with rfl | rfl
  · exact h
  · exact h
variable {n a b : Uint LIMBS}
theorem toNat_addMod (ha : a.toNat ≤ n.toNat) (hb : b.toNat ≤ n.toNat) :
    (addMod n a b).toNat = if a.toNat + b.toNat < n.toNat then a.toNat + b.toNat else a.toNat + b.toNat - n.toNat := by
  obtain ⟨hcarry,hsum⟩ := a.adc_eq b
  have heq : addMod n a b = select ((a.adc b 0#64).1.sbb n 0#64).1 (a.adc b 0#64).1
      ((a.adc b 0#64).2 ||| (((a.adc b 0#64).1.sbb n 0#64).2 ^^^ 1#64)) := rfl
  generalize (a.adc b 0#64).2 = carry at *
  generalize (a.adc b 0#64).1 = sum at *
  obtain ⟨-,hdiff⟩ := sum.sbb_eq n
  have hn := n.toNat_lt
  rw [sum.sbb_borrow n] at heq hdiff
  rw [heq]
  generalize (2 ^ 64) ^ LIMBS = width at *
  rcases bit_cases hcarry with rfl | rfl <;> by_cases hlt : sum.toNat < n.toNat
  · rw [if_pos hlt,select_eq _ _ (by decide),if_neg (by decide)]
    simp only [toNat_ofNat,zero_mod,mul_zero,add_zero] at hsum
    rw [← hsum,if_pos hlt]
  · rw [if_neg hlt,select_eq _ _ (by decide),if_pos (by decide)]
    rw [if_neg hlt] at hdiff
    simp only [toNat_ofNat,zero_mod,mul_zero,add_zero] at hsum hdiff
    rw [← hsum,if_neg hlt]
    omega
  · rw [if_pos hlt,select_eq _ _ (by decide),if_pos (by decide)]
    rw [if_pos hlt] at hdiff
    rw [if_neg (by omega)]
    omega
  · -- the carry alone is above the modulus
    simp only [toNat_ofNat,Nat.reducePow,Nat.reduceMod,mul_one] at hsum
    omega

theorem toNat_addMod_of_lt (ha : a.toNat < n.toNat) (hb : b.toNat < n.toNat) :
    (addMod n a b).toNat = (a.toNat + b.toNat) % n.toNat := by
  rw [toNat_addMod ha.le hb.le]
  split_ifs with h
  · exact (mod_eq_of_lt h).symm
  · rw [Nat.mod_eq_sub_mod (Nat.le_of_not_lt h),mod_eq_of_lt (by omega)]

theorem toNat_subMod (ha : a.toNat < n.toNat) (hb : b.toNat < n.toNat) :
    (subMod n a b).toNat = (a.toNat + (n.toNat - b.toNat)) % n.toNat := by
  obtain ⟨-,hdiff⟩ := a.sbb_eq b
  have heq : subMod n a b = select ((a.sbb b 0#64).1.adc n 0#64).1 (a.sbb b 0#64).1 (a.sbb b 0#64).2 := rfl
  rw [a.sbb_borrow b] at heq hdiff
  obtain ⟨hle,hsum⟩ := (a.sbb b 0#64).1.adc_eq n
  have hwrapped := ((a.sbb b 0#64).1.adc n 0#64).1.toNat_lt
  rw [heq]
  generalize (2 ^ 64) ^ LIMBS = width at *
  by_cases hlt : a.toNat < b.toNat
  · rw [if_pos hlt] at hdiff ⊢
    rw [select_eq _ _ (by decide),if_pos rfl,mod_eq_of_lt (by omega)]
    simp only [toNat_ofNat,Nat.reducePow,Nat.reduceMod,mul_one] at hdiff
    rcases bit_cases hle with hc | hc <;> rw [hc] at hsum <;>
      simp only [toNat_ofNat,zero_mod,Nat.reducePow,Nat.reduceMod,mul_zero,mul_one] at hsum <;>
      omega
  · rw [if_neg hlt] at hdiff ⊢
    simp only [toNat_ofNat,zero_mod,mul_zero,add_zero] at hdiff
    rw [select_eq _ _ (by decide),if_neg (by decide),Nat.mod_eq_sub_mod (by omega),mod_eq_of_lt (by omega)]
    omega
namespace MontModulus
variable {m : MontModulus LIMBS}
def radix (m : MontModulus LIMBS) : Nat := (2 ^ 64) ^ m.limbs

/-- What the kernels need of the modulus. -/
structure Valid (m : MontModulus LIMBS) : Prop where
  limbs_le : m.limbs ≤ LIMBS
  odd : m.modulus.toNat % 2 = 1
  lt_radix : m.modulus.toNat < m.radix
  nPrime : limbAt m.modulus.limbs 0 * m.nPrime = -1

theorem value_drop_eq_zero {l : List Limb} {k : Nat} (hk : k ≤ l.length) (h : value l < (2 ^ 64) ^ k) :
    value (l.drop k) = 0 := by
  have hsplit := value_take_add_drop l hk
  by_contra hne
  have := Nat.le_mul_of_pos_right ((2 ^ 64) ^ k) (pos_of_ne_zero hne)
  omega

theorem Valid.width_pos (h : m.Valid) : 0 < m.limbs := by
  refine pos_of_ne_zero fun hzero => ?_
  have hodd := h.odd
  have hlt := h.lt_radix
  rw [radix,hzero] at hlt
  omega

theorem Valid.kernel (h : m.Valid) :
    (m.modulus.limbs.take m.limbs).length = m.limbs ∧ value (m.modulus.limbs.take m.limbs) = m.modulus.toNat ∧
      limbAt (m.modulus.limbs.take m.limbs) 0 * m.nPrime = -1 ∧ 0 < m.modulus.toNat := by
  have hlen : m.limbs ≤ m.modulus.limbs.length := by
    rw [m.modulus.length_limbs]
    exact h.limbs_le
  have hpos : 0 < m.modulus.toNat := by
    have := h.odd
    omega
  have hlimbs := h.width_pos
  refine ⟨length_take_of_le hlen,value_take_of_zeros _ _ (value_drop_eq_zero hlen h.lt_radix),?_,hpos⟩
  rw [← h.nPrime]
  simp [limbAt,getD_eq_getElem?_getD,hlimbs]

theorem toNat_isMontProduct (h : m.Valid) {out : List Limb} {x : Nat}
    (hout : IsMontProduct (m.modulus.limbs.take m.limbs) x out) :
    (Uint.fromSlice out : Uint LIMBS).toNat < m.modulus.toNat ∧
      m.radix * (Uint.fromSlice out : Uint LIMBS).toNat ≡ x [MOD m.modulus.toNat] := by
  obtain ⟨hlen,hvalue,-,-⟩ := h.kernel
  obtain ⟨houtlen,hlt,hmod⟩ := hout
  rw [hlen] at houtlen hmod
  rw [hvalue] at hlt hmod
  rw [Uint.toNat_fromSlice (houtlen.trans_le h.limbs_le)]
  exact ⟨hlt,hmod⟩
variable {a b x : Uint LIMBS} {u v : Nat}
theorem isMontProduct_montMul (h : m.Valid) (ha : a.toNat < m.radix) (hb : b.toNat < m.radix)
    (hab : a.toNat * b.toNat ≤ m.radix * m.modulus.toNat) :
    IsMontProduct (m.modulus.limbs.take m.limbs) (a.toNat * b.toNat)
      (montMulKernel (m.modulus.limbs.take m.limbs) m.nPrime a.limbs b.limbs) := by
  obtain ⟨hlen,hvalue,hnp,hpos⟩ := h.kernel
  have halen : m.limbs ≤ a.limbs.length := by rw [a.length_limbs]; exact h.limbs_le
  have hblen : m.limbs ≤ b.limbs.length := by rw [b.length_limbs]; exact h.limbs_le
  refine montMulKernel_spec hnp ?_ ?_ ?_ ?_ ?_ ?_
  · rwa [hlen]
  · rwa [hlen]
  · rw [hlen]
    exact value_drop_eq_zero halen ha
  · rw [hlen]
    exact value_drop_eq_zero hblen hb
  · rwa [hlen,hvalue]
  · rwa [hvalue]

theorem montMul_spec (h : m.Valid) (ha : a.toNat < m.radix) (hb : b.toNat < m.radix)
    (hab : a.toNat * b.toNat ≤ m.radix * m.modulus.toNat) : (m.montMul a b).toNat < m.modulus.toNat ∧
      m.radix * (m.montMul a b).toNat ≡ a.toNat * b.toNat [MOD m.modulus.toNat] :=
  toNat_isMontProduct h (isMontProduct_montMul h ha hb hab)

theorem isMontProduct_montSqr (h : m.Valid) (ha : a.toNat < m.radix)
    (haa : a.toNat * a.toNat ≤ m.radix * m.modulus.toNat) :
    IsMontProduct (m.modulus.limbs.take m.limbs) (a.toNat * a.toNat)
      (montSqrKernel (m.modulus.limbs.take m.limbs) m.nPrime a.limbs) := by
  obtain ⟨hlen,hvalue,hnp,hpos⟩ := h.kernel
  have halen : m.limbs ≤ a.limbs.length := by rw [a.length_limbs]; exact h.limbs_le
  refine montSqrKernel_spec hnp ?_ ?_ ?_ ?_
  · rwa [hlen]
  · rw [hlen]
    exact value_drop_eq_zero halen ha
  · rwa [hlen,hvalue]
  · rwa [hvalue]

theorem montSqr_spec (h : m.Valid) (ha : a.toNat < m.radix)
    (haa : a.toNat * a.toNat ≤ m.radix * m.modulus.toNat) : (m.montSqr a).toNat < m.modulus.toNat ∧
      m.radix * (m.montSqr a).toNat ≡ a.toNat * a.toNat [MOD m.modulus.toNat] :=
  toNat_isMontProduct h (isMontProduct_montSqr h ha haa)

structure InMont (m : MontModulus LIMBS) (x : Uint LIMBS) (v : Nat) : Prop where
  lt : x.toNat < m.modulus.toNat
  modEq : x.toNat ≡ v * m.radix [MOD m.modulus.toNat]
section
variable (h : m.Valid)
include h
theorem Valid.coprime : Nat.Coprime m.modulus.toNat m.radix := by
  refine Nat.Coprime.pow_right _ (Nat.Coprime.pow_right _ ?_)
  rw [Nat.coprime_two_right,Nat.odd_iff]
  exact h.odd

theorem inMont_of_product {a b : Nat} (hlt : x.toNat < m.modulus.toNat)
    (hx : m.radix * x.toNat ≡ a * b [MOD m.modulus.toNat])
    (ha : a ≡ u * m.radix [MOD m.modulus.toNat]) (hb : b ≡ v * m.radix [MOD m.modulus.toNat]) : m.InMont x (u * v) :=
  ⟨hlt,scaled_mul h.coprime hx ha hb⟩

theorem mul_le_of_le (ha : a.toNat ≤ m.modulus.toNat) (hb : b.toNat ≤ m.modulus.toNat) :
    a.toNat * b.toNat ≤ m.radix * m.modulus.toNat :=
  Nat.mul_le_mul (ha.trans h.lt_radix.le) hb
variable (ha : m.InMont a u)
include ha
theorem InMont.lt_radix : a.toNat < m.radix :=
  ha.lt.trans h.lt_radix

theorem InMont.mul (hb : m.InMont b v) : m.InMont (m.montMul a b) (u * v) := by
  obtain ⟨hlt,hmod⟩ := montMul_spec h (ha.lt_radix h) (hb.lt_radix h) (mul_le_of_le h ha.lt.le hb.lt.le)
  exact inMont_of_product h hlt hmod ha.modEq hb.modEq

theorem InMont.sqr : m.InMont (m.montSqr a) (u * u) := by
  obtain ⟨hlt,hmod⟩ := montSqr_spec h (ha.lt_radix h) (mul_le_of_le h ha.lt.le ha.lt.le)
  exact inMont_of_product h hlt hmod ha.modEq ha.modEq
end
/-- The constant takes numbers into the form. -/
structure Ready (m : MontModulus LIMBS) : Prop extends m.Valid where
  r2_inMont : m.InMont m.r2 m.radix
section
variable (h : m.Ready)
include h
theorem Ready.limbs_pos : 0 < LIMBS :=
  Uint.limbs_pos (x := m.modulus) (by have := h.odd; omega)

theorem Ready.one_lt_radix : 1 < m.radix := Nat.one_lt_pow h.width_pos.ne' (by decide)

theorem inMont_montMul_r2 (hx : x.toNat < m.radix) : m.InMont (m.montMul x m.r2) x.toNat := by
  obtain ⟨hlt,hmod⟩ := montMul_spec h.toValid hx (h.r2_inMont.lt_radix h.toValid)
    (Nat.mul_le_mul hx.le h.r2_inMont.lt.le)
  exact ⟨hlt,scaled_enter h.coprime hmod h.r2_inMont.modEq⟩

theorem inMont_toMont (hx : x.toNat < m.modulus.toNat) : m.InMont (m.toMont x) x.toNat :=
  inMont_montMul_r2 h (hx.trans h.lt_radix)

theorem inMont_toMont_one : m.InMont (m.toMont .one) 1 := by
  have hone := Uint.toNat_one h.limbs_pos
  have hx : (Uint.one : Uint LIMBS).toNat < m.radix := by
    rw [hone]
    exact h.one_lt_radix
  have hr := inMont_montMul_r2 h hx
  rwa [hone] at hr

theorem toNat_fromMont (hx : m.InMont x v) : (m.fromMont x).toNat = v % m.modulus.toNat := by
  have hone := Uint.toNat_one h.limbs_pos
  obtain ⟨hlt,hmod⟩ := montMul_spec h.toValid (hx.lt_radix h.toValid) (b := .one) (by rw [hone]; exact h.one_lt_radix)
    (by
      rw [hone,mul_one]
      exact hx.lt.le.trans (Nat.le_mul_of_pos_left _ (Nat.zero_lt_of_lt h.one_lt_radix)))
  rw [hone,mul_one] at hmod
  have hv : (m.fromMont x).toNat ≡ v [MOD m.modulus.toNat] := scaled_leave h.coprime hmod hx.modEq
  rw [← hv]
  exact (mod_eq_of_lt hlt).symm
end
section New
variable {x modulus : Uint LIMBS}
theorem doublings_spec (n : Uint LIMBS) (hx : x.toNat ≤ n.toNat) (k : Nat) :
    ((fun x => addMod n x x)^[k] x).toNat ≤ n.toNat ∧
      ((fun x => addMod n x x)^[k] x).toNat ≡ 2 ^ k * x.toNat [MOD n.toNat] := by
  induction k with
  | zero => exact ⟨hx,by rw [pow_zero,one_mul,Function.iterate_zero,id]⟩
  | succ k ih =>
    obtain ⟨hle,hmod⟩ := ih
    rw [Function.iterate_succ_apply']
    generalize (fun x => addMod n x x)^[k] x = y at hle hmod ⊢
    have hadd := toNat_addMod hle hle
    refine ⟨?_,?_⟩
    · rw [hadd]
      split_ifs <;> omega
    · have hdouble : (addMod n y y).toNat ≡ 2 * y.toNat [MOD n.toNat] := by
        rw [hadd]
        split_ifs with hlt
        · rw [Nat.two_mul]
        · rw [Nat.two_mul,Nat.ModEq,← Nat.mod_eq_sub_mod (Nat.le_of_not_lt hlt)]
      rw [pow_succ',mul_assoc]
      exact hdouble.trans (hmod.mul_left 2)

theorem shape_spec (modulus : Uint LIMBS) (hpos : 0 < modulus.toNat) :
    let s := BoxedUint.significantFrom modulus.limbs LIMBS
    0 < s ∧ s ≤ LIMBS ∧ modulus.toNat < (2 ^ 64) ^ s ∧ (2 ^ 64) ^ (s - 1) ≤ modulus.toNat ∧
      64 * s - BoxedUint.leadingZeros (limbAt modulus.limbs (s - 1)) = size modulus.toNat := by
  intro s
  have hL : 0 < LIMBS := Uint.limbs_pos (x := modulus) (by omega)
  obtain ⟨hle,hs,hvalue,htop⟩ :=
    BoxedUint.significantFrom_spec modulus.limbs (le_of_eq modulus.length_limbs.symm)
  rw [take_of_length_le (le_of_eq modulus.length_limbs)] at hvalue htop
  change value (modulus.limbs.take s) = modulus.toNat at hvalue
  obtain ⟨k,hk⟩ : ∃ k, s = k + 1 := ⟨s - 1,by omega⟩
  have hlow : (2 ^ 64) ^ (s - 1) ≤ modulus.toNat := by
    by_cases hone : 1 < s
    · exact htop hone
    · rw [show s - 1 = 0 by omega]
      exact hpos
  have hlt : modulus.toNat < (2 ^ 64) ^ s := by
    have h := value_lt (modulus.limbs.take s)
    rwa [hvalue,length_take_of_le (by rw [modulus.length_limbs]; exact hle)] at h
  refine ⟨hs hL,hle,hlt,hlow,?_⟩
  have hget : modulus.limbs[k]? = some (limbAt modulus.limbs k) := by
    have hklt : k < modulus.limbs.length := by rw [modulus.length_limbs]; omega
    simp [limbAt,hklt]
  have hne : limbAt modulus.limbs k ≠ 0#64 := by
    intro hzero
    rw [hzero] at hget
    have htake := BoxedUint.value_take_succ hget
    have hbelow := value_lt (modulus.limbs.take k)
    rw [length_take_of_le (by rw [modulus.length_limbs]; omega)] at hbelow
    rw [← hk,hvalue] at htake
    simp only [toNat_ofNat,zero_mod,mul_zero,add_zero] at htake
    rw [hk,Nat.add_sub_cancel] at hlow
    omega
  have hbits := BoxedUint.bitLenFrom_eq modulus.limbs s
  rw [hvalue,hk,BoxedUint.bitLenFrom,hget] at hbits
  have hzeros : BoxedUint.leadingZeros (limbAt modulus.limbs k) ≤ 64 := Nat.sub_le _ _
  simp only [bne_iff_ne,ne_eq,hne,not_false_eq_true,if_true] at hbits
  rw [hk,Nat.add_sub_cancel]
  omega

theorem toNat_start {k : Nat} (hk : k < 64 * LIMBS) :
    value ((List.replicate LIMBS 0#64).set (k / 64) (1#64 <<< (k % 64))) = 2 ^ k := by
  have hset := value_set (List.replicate LIMBS 0#64) (k := k / 64) (by simp; omega) (1#64 <<< (k % 64))
  have hbit : (1#64 <<< (k % 64)).toNat = 2 ^ (k % 64) := by
    rw [BitVec.toNat_shiftLeft,Nat.shiftLeft_eq]
    have := Nat.pow_lt_pow_right (show 1 < 2 by decide) (Nat.mod_lt k (show 0 < 64 by decide))
    simpa using mod_eq_of_lt this
  have hzero : limbAt (List.replicate LIMBS 0#64) (k / 64) = 0#64 := by
    simp [limbAt,show k / 64 < LIMBS by omega]
  rw [hbit,hzero,value_replicate_zero] at hset
  have hpow : (2 : ℤ) ^ k = (2 ^ 64) ^ (k / 64) * 2 ^ (k % 64) := by
    rw [← pow_mul,← pow_add,Nat.div_add_mod]
  simp only [toNat_ofNat,zero_mod,Nat.cast_zero,sub_zero,zero_add,Nat.cast_pow,Nat.cast_ofNat] at hset
  rw [← hpow] at hset
  exact_mod_cast hset

/-- Six squarings of `2 ^ s` reach `R`; the first one also reduces. -/
theorem sixSquarings_spec (h : m.Valid) (hle : x.toNat ≤ m.modulus.toNat)
    (hx : x.toNat ≡ 2 ^ m.limbs * m.radix [MOD m.modulus.toNat]) :
    m.InMont ((fun x => m.montMul x x)^[6] x) m.radix := by
  have hlt := hle.trans_lt h.lt_radix
  obtain ⟨hfirst,hmod⟩ := montMul_spec h hlt hlt (mul_le_of_le h hle hle)
  have hrest := @holds_iterate_sqr _ m.InMont (fun x => m.montMul x x) (fun _ _ hx => hx.mul h hx) _ _
    (inMont_of_product h hfirst hmod hx hx) 5
  have hpow : (2 ^ m.limbs * 2 ^ m.limbs) ^ 2 ^ 5 = m.radix := by
    rw [radix,← pow_add,← pow_mul,← pow_mul]
    congr 1
    omega
  rw [hpow] at hrest
  exact hrest

theorem withShape_ready {s : Nat} (hodd : modulus.toNat % 2 = 1) (hs : s ≤ LIMBS)
    (hlt : modulus.toNat < (2 ^ 64) ^ s) : (withShape modulus s (size modulus.toNat)).Ready := by
  have hpos : 0 < size modulus.toNat := Nat.size_pos.mpr (by omega)
  have hsize : size modulus.toNat ≤ 64 * s := Nat.size_le.mpr (by rwa [pow_mul])
  obtain ⟨m,hm⟩ : ∃ m : MontModulus LIMBS, m = ⟨modulus,-invMod264 (limbAt modulus.limbs 0),.zero,s⟩ := ⟨_,rfl⟩
  have hvalid : m.Valid := by
    rw [hm]
    refine ⟨hs,hodd,hlt,?_⟩
    have hlimb : (limbAt modulus.limbs 0).toNat % 2 = 1 := by
      rw [toNat_limbAt,pow_zero]
      rw [Uint.toNat] at hodd
      omega
    have hinv := mul_invMod264 hlimb
    linear_combination -hinv
  obtain ⟨start,hstart⟩ : ∃ start : Uint LIMBS, start = ⟨(List.replicate LIMBS 0#64).set
      ((size modulus.toNat - 1) / 64) (1#64 <<< ((size modulus.toNat - 1) % 64)),by simp⟩ := ⟨_,rfl⟩
  have hvalue : start.toNat = 2 ^ (size modulus.toNat - 1) := by
    rw [hstart]
    exact toNat_start (by omega)
  have hle : start.toNat ≤ modulus.toNat := by
    rw [hvalue]
    exact Nat.lt_size.mp (by omega)
  obtain ⟨hxle,hxmod⟩ := doublings_spec modulus hle (64 * s - size modulus.toNat + 1 + s)
  rw [hvalue,← pow_add,show 64 * s - size modulus.toNat + 1 + s + (size modulus.toNat - 1) = s + 64 * s by omega,
    pow_add,pow_mul] at hxmod
  have hmodulus : m.modulus = modulus := by rw [hm]
  have hlimbs : m.limbs = s := by rw [hm]
  obtain ⟨x,hx⟩ : ∃ x, x = (fun x => addMod modulus x x)^[64 * s - size modulus.toNat + 1 + s] start := ⟨_,rfl⟩
  rw [← hx] at hxle hxmod
  have heq : withShape modulus s (size modulus.toNat) = { m with r2 := (fun x => m.montMul x x)^[6] x } := by
    rw [hx,hstart,hm]
    rfl
  rw [← hmodulus] at hxle
  rw [← hmodulus,← hlimbs] at hxmod
  obtain ⟨hr2lt,hr2mod⟩ := sixSquarings_spec hvalid hxle hxmod
  rw [heq]
  exact ⟨⟨hvalid.limbs_le,hvalid.odd,hvalid.lt_radix,hvalid.nPrime⟩,⟨hr2lt,hr2mod⟩⟩

theorem new_spec (hodd : modulus.toNat % 2 = 1) :
    ∃ m, new modulus = some m ∧ m.Ready ∧ m.modulus = modulus ∧ m.limbs = (size modulus.toNat + 63) / 64 := by
  obtain ⟨hs,hle,hlt,hlow,hbits⟩ := shape_spec modulus (by omega)
  generalize hsig : BoxedUint.significantFrom modulus.limbs LIMBS = s at *
  have hbit := Uint.and_one_of_odd hodd
  refine ⟨withShape modulus s (size modulus.toNat),?_,withShape_ready hodd hle hlt,rfl,?_⟩
  · rw [new,if_pos hbit]
    dsimp only
    rw [hsig,hbits]
  · have hlower : 64 * (s - 1) < size modulus.toNat := Nat.lt_size.mpr (by rwa [pow_mul])
    change s = _
    omega
end New
end MontModulus
end PureCrypto.Bignum
