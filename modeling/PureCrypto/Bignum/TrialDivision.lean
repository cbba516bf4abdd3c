import Mathlib.Algebra.BigOperators.Group.List.Basic
import PureCrypto.Bignum.BoxedUint
import PureCrypto.Framework.ModularArithmetic

/-!
# Trial division by reciprocals

Reduction of limbs by a small modulus (`bignum/uint.rs`) and the sieve of `bignum/prime.rs`.  A `u64` and a
`u128` are natural numbers.
-/
namespace PureCrypto.Bignum
open Limbs List
open Nat (mod_lt)
def mulhi128By64 (a b : Nat) : Nat :=
  let lo := a % 2 ^ 64 * b
  let hi := (a >>> 64) * b
  (hi + lo >>> 64) >>> 64 % 2 ^ 64

/-- One chunk of 32 bits in Horner's scheme; `c` is the reciprocal of `p`. -/
def reduceChunk (p c rem chunk : Nat) : Nat :=
  let v := rem <<< 32 % 2 ^ 64 ||| chunk
  mulhi128By64 (c * v % 2 ^ 128) p

def modSmallLimbs (limbs : List Limb) (p : Nat) : Nat :=
  let c := ((2 ^ 128 - 1) / p + 1) % 2 ^ 128
  limbs.reverse.foldl (fun rem (limb : Limb) =>
    reduceChunk p c (reduceChunk p c rem (limb >>> 32).toNat) (limb &&& 0xffffffff#64).toNat) 0

def recipU32 (p : Nat) : Nat := ((2 ^ 64 - 1) / p + 1) % 2 ^ 64
def modU32WithRecip (v p c : Nat) : Nat := (c * v % 2 ^ 64 * p) >>> 64 % 2 ^ 64

theorem mulhi128By64_eq (a b : Nat) : mulhi128By64 a b = a * b / 2 ^ 128 % 2 ^ 64 := by
  have hsplit : a * b = a % 2 ^ 64 * b + 2 ^ 64 * (a / 2 ^ 64 * b) := by rw [← mul_assoc,← add_mul,Nat.mod_add_div]
  simp only [mulhi128By64,Nat.shiftRight_eq_div_pow]
  rw [hsplit,show 2 ^ 128 = 2 ^ 64 * 2 ^ 64 from rfl,← Nat.div_div_eq_div_mul,Nat.add_mul_div_left _ _ (by decide),
    add_comm]
section Reductions
variable {p : Nat} (hp : 1 < p) (hp' : p < 2 ^ 32)
include hp hp'
theorem modU32WithRecip_eq {v : Nat} (hv : v < 2 ^ 32) : modU32WithRecip v p (recipU32 p) = v % p := by
  have hfit : p * v < 2 ^ 32 * 2 ^ 32 := Nat.mul_lt_mul'' hp' hv
  have hmod := mod_lt v (show 0 < p by omega)
  rw [modU32WithRecip,recipU32,Nat.shiftRight_eq_div_pow,Nat.mod_mul_mod,
    Barrett.reciprocal_mod (by omega) (by omega),Nat.mod_eq_of_lt (by omega)]

theorem reduceChunk_eq {rem chunk : Nat} (hrem : rem < p) (hchunk : chunk < 2 ^ 32) :
    reduceChunk p (((2 ^ 128 - 1) / p + 1) % 2 ^ 128) rem chunk = (rem * 2 ^ 32 + chunk) % p := by
  have hv : rem <<< 32 % 2 ^ 64 ||| chunk = rem * 2 ^ 32 + chunk := by
    rw [Nat.mod_eq_of_lt (by rw [Nat.shiftLeft_eq]; omega),← Nat.shiftLeft_add_eq_or_of_lt hchunk,Nat.shiftLeft_eq]
  have hfit : p * (rem * 2 ^ 32 + chunk) < 2 ^ 32 * 2 ^ 64 := Nat.mul_lt_mul'' hp' (by omega)
  have hmod := mod_lt (rem * 2 ^ 32 + chunk) (show 0 < p by omega)
  rw [reduceChunk,hv,mulhi128By64_eq,Nat.mod_mul_mod,Barrett.reciprocal_mod (by omega) (by omega),
    Nat.mod_eq_of_lt (by omega)]

theorem modSmallLimbs_eq (limbs : List Limb) : modSmallLimbs limbs p = value limbs % p := by
  have hpos : 0 < p := by omega
  refine (foldl_words (P := fun a rem => rem = a % p) (fun {a rem} x hrem => ?_) (Nat.zero_mod p).symm limbs).trans
    (by rw [zero_mul,zero_add])
  have hhigh : (x >>> 32).toNat = x.toNat / 2 ^ 32 := by simp [Nat.shiftRight_eq_div_pow]
  have hlow : (x &&& 0xffffffff#64).toNat = x.toNat % 2 ^ 32 := by
    rw [BitVec.toNat_and]
    exact Nat.and_two_pow_sub_one_eq_mod x.toNat 32
  have hx := x.isLt
  have hsplit : a * 2 ^ 64 + x.toNat = (a * 2 ^ 32 + x.toNat / 2 ^ 32) * 2 ^ 32 + x.toNat % 2 ^ 32 := by omega
  rw [hhigh,hlow,hrem,reduceChunk_eq hp hp' (mod_lt _ hpos) (by omega),
    reduceChunk_eq hp hp' (mod_lt _ hpos) (by omega),hsplit]
  have hfirst := ((Nat.mod_modEq a p).mul_right (2 ^ 32)).add_right (x.toNat / 2 ^ 32)
  exact (((Nat.mod_modEq _ p).trans hfirst).mul_right _).add_right _
end Reductions
def trialDivisionBound : Nat := 1 <<< 14

/-- The table that `new` builds. -/
structure TrialDivision where
  primes : List Nat
  recips : List Nat
  bounds : ∀ p ∈ primes, 1 < p ∧ p < trialDivisionBound
  recips_eq : recips = primes.map recipU32
namespace TrialDivision
/-- One odd number of the sieve, with the marks and the primes found so far. -/
def sieveStep (bound : Nat) (s : Array Bool × List Nat) (i : Nat) : Array Bool × List Nat :=
  if s.1.getD i false then s
  else
    let multiples := range' (i * i) ((bound - i * i + 2 * i - 1) / (2 * i)) (2 * i)
    (multiples.foldl (fun composite j => composite.setIfInBounds j true) s.1, s.2 ++ [i])

def sieve (bound : Nat) : List Nat :=
  ((range' 3 ((bound - 3 + 1) / 2) 2).foldl (sieveStep bound) (Array.replicate bound false, [])).2

theorem mem_foldl_sieveStep {bound : Nat} {l : List Nat} {s : Array Bool × List Nat} {p : Nat}
    (h : p ∈ (l.foldl (sieveStep bound) s).2) : p ∈ s.2 ∨ p ∈ l := by
  induction l generalizing s with
  | nil => exact .inl h
  | cons i l ih =>
    rcases ih h with h | h
    · unfold sieveStep at h
      split_ifs at h
      · exact .inl h
      · exact (mem_append.mp h).imp_right fun h => mem_cons.mpr (.inl (mem_singleton.mp h))
    · exact .inr (mem_cons_of_mem i h)

theorem sieve_bounds {bound p : Nat} (h : p ∈ sieve bound) : 1 < p ∧ p < bound := by
  rcases mem_foldl_sieveStep h with h | h
  · exact absurd h not_mem_nil
  · obtain ⟨k,hk,rfl⟩ := List.mem_range'.mp h
    omega

def new : TrialDivision where
  primes := sieve trialDivisionBound
  recips := (sieve trialDivisionBound).map recipU32
  bounds _ := sieve_bounds
  recips_eq := rfl

/-- The inner loop of `residues`: as many primes as fit, with their product. -/
def batch (product : Nat) : List Nat → Nat × Nat
  | [] => (product, 0)
  | p :: primes =>
    if product * p < 2 ^ 32 then
      let (product, i) := batch (product * p) primes
      (product, i + 1)
    else (product, 0)

/-- The outer loop, which would not end at a prime above `2 ^ 32`. -/
def residuesFrom (n : List Limb) : Nat → List Nat → List Nat → List Nat → Option (List Nat)
  | _, [], _, res => some res
  | 0, _ :: _, _, _ => none
  | fuel + 1, primes, recips, res =>
    let (product, i) := batch 1 primes
    let rem := modSmallLimbs n product
    let more := zipWith (fun p c => modU32WithRecip rem p c % 2 ^ 32) (primes.take i) (recips.take i)
    residuesFrom n fuel (primes.drop i) (recips.drop i) (res ++ more)

def residues (t : TrialDivision) (n : List Limb) : Option (List Nat) :=
  residuesFrom n t.primes.length t.primes t.recips []

def passes (t : TrialDivision) (res : List Nat) (delta : Nat) : Bool :=
  let anyZero := ((t.primes.zip t.recips).zip res).foldl (fun anyZero e =>
    let m := modU32WithRecip (e.2 + delta) e.1.1 e.1.2
    anyZero ||| ((m + 2 ^ 64 - 1) % 2 ^ 64) >>> 63) 0
  anyZero == 0

theorem batch_spec {product : Nat} {primes : List Nat} (hpos : 0 < product) (hlt : product < 2 ^ 32)
    (h : ∀ p ∈ primes, 0 < p) :
    0 < (batch product primes).1 ∧ (batch product primes).1 < 2 ^ 32 ∧ product ∣ (batch product primes).1 ∧
      ∀ p ∈ primes.take (batch product primes).2, p ∣ (batch product primes).1 := by
  induction primes generalizing product with
  | nil => exact ⟨hpos,hlt,dvd_rfl,by simp⟩
  | cons p primes ih =>
    obtain ⟨hp,h⟩ := forall_mem_cons.mp h
    rw [batch]
    split_ifs with hfit
    · obtain ⟨hq,hqlt,hdvd,hall⟩ := ih (Nat.mul_pos hpos hp) hfit h
      exact ⟨hq,hqlt,(Nat.dvd_mul_right _ _).trans hdvd,forall_mem_cons.mpr ⟨(Nat.dvd_mul_left _ _).trans hdvd,hall⟩⟩
    · exact ⟨hpos,hlt,dvd_rfl,by simp⟩

/-- A prime below the bound fits in an empty batch, so every round reduces by a prime. -/
theorem batch_cons {p : Nat} (primes : List Nat) (h : p < 2 ^ 14) :
    batch 1 (p :: primes) = ((batch p primes).1, (batch p primes).2 + 1) := by
  rw [batch,if_pos (by omega),one_mul]

theorem residuesFrom_eq (n : List Limb) {fuel : Nat} {primes : List Nat} (res : List Nat) (hfuel : primes.length ≤ fuel)
    (h : ∀ p ∈ primes, 1 < p ∧ p < 2 ^ 14) :
    residuesFrom n fuel primes (primes.map recipU32) res = some (res ++ primes.map (value n % ·)) := by
  induction fuel generalizing primes res with
  | zero => simp [residuesFrom,length_eq_zero_iff.mp (Nat.le_zero.mp hfuel)]
  | succ fuel ih =>
    match primes, h with
    | [], _ => simp [residuesFrom]
    | first :: primes, h =>
      obtain ⟨hfirst,hfirst'⟩ := h first mem_cons_self
      obtain ⟨hq,hqlt,hdvd,hall⟩ := @batch_spec first primes (by omega) (by omega)
        fun p hp => zero_lt_one.trans (h p (mem_cons_of_mem _ hp)).1
      simp only [residuesFrom,batch_cons primes hfirst']
      set q := (batch first primes).1
      set i := (batch first primes).2
      have hmore : zipWith (fun p c => modU32WithRecip (modSmallLimbs n q) p c % 2 ^ 32)
          ((first :: primes).take (i + 1)) (((first :: primes).map recipU32).take (i + 1)) =
          ((first :: primes).take (i + 1)).map (value n % ·) := by
        rw [← map_take,zipWith_map_right,zipWith_self]
        refine map_congr_left fun p hp => ?_
        obtain ⟨hlow,hhigh⟩ := h p (mem_of_mem_take hp)
        have hdiv : p ∣ q := (mem_cons.mp hp).elim (· ▸ hdvd) (hall p)
        have hmod := mod_lt (value n) hq
        have hlt := mod_lt (value n) (show 0 < p by omega)
        rw [modSmallLimbs_eq (hlow.trans_le (Nat.le_of_dvd hq hdiv)) hqlt,
          modU32WithRecip_eq hlow (by omega) (by omega),Nat.mod_mod_of_dvd _ hdiv,Nat.mod_eq_of_lt (by omega)]
      rw [hmore,← map_drop,ih _ (by simp at hfuel ⊢; omega) fun p hp => h p (mem_of_mem_drop hp),append_assoc,
        ← map_append,take_append_drop]

theorem foldl_or_eq_zero {α : Type*} (f : α → Nat) (l : List α) (a : Nat) :
    l.foldl (fun a x => a ||| f x) a = 0 ↔ a = 0 ∧ ∀ x ∈ l, f x = 0 := by
  induction l generalizing a with
  | nil => simp
  | cons x l ih => rw [foldl_cons,ih,Nat.or_eq_zero_iff,and_assoc,forall_mem_cons]

theorem wrapping_pred_top {m : Nat} (hm : m < 2 ^ 32) : ((m + 2 ^ 64 - 1) % 2 ^ 64) >>> 63 = 0 ↔ m ≠ 0 := by
  rw [Nat.shiftRight_eq_div_pow]
  omega

theorem passes_eq (t : TrialDivision) (n : List Limb) {delta : Nat} (hdelta : delta < 2 ^ 31) :
    t.passes (t.primes.map (value n % ·)) delta = true ↔ ∀ p ∈ t.primes, ¬p ∣ value n + delta := by
  have hzip : (t.primes.zip t.recips).zip (t.primes.map (value n % ·)) =
      t.primes.map fun p => ((p, recipU32 p), value n % p) := by
    rw [t.recips_eq]
    induction t.primes with
    | nil => rfl
    | cons p primes ih => exact congrArg (((p, recipU32 p), value n % p) :: ·) ih
  rw [passes,hzip,beq_iff_eq,foldl_or_eq_zero,forall_mem_map]
  refine (and_iff_right rfl).trans (forall₂_congr fun p hp => ?_)
  obtain ⟨hlow,hhigh⟩ : 1 < p ∧ p < 2 ^ 14 := t.bounds p hp
  have hlt := mod_lt (value n) (show 0 < p by omega)
  have hlt' := mod_lt (value n + delta) (show 0 < p by omega)
  dsimp only
  rw [modU32WithRecip_eq hlow (by omega) (by omega),Nat.mod_add_mod,wrapping_pred_top (by omega),Nat.dvd_iff_mod_eq_zero]
end TrialDivision
theorem reciprocal_reductions_exact : (∀ p, 1 < p → p < 2 ^ 32 → (∀ limbs, modSmallLimbs limbs p = value limbs % p) ∧
      ∀ v < 2 ^ 32, modU32WithRecip v p (recipU32 p) = v % p) ∧
    ∀ (t : TrialDivision) (n0 : List Limb) (delta : Nat), delta < 2 ^ 31 → ∃ res, t.residues n0 = some res ∧
      (t.passes res delta = true ↔ ∀ p ∈ t.primes, ¬p ∣ value n0 + delta) := by
  refine ⟨fun p hp hp' => ⟨modSmallLimbs_eq hp hp',fun v => modU32WithRecip_eq hp hp'⟩,fun t n0 delta hdelta => ?_⟩
  refine ⟨_,?_,t.passes_eq n0 hdelta⟩
  rw [TrialDivision.residues,t.recips_eq,TrialDivision.residuesFrom_eq n0 [] le_rfl t.bounds,nil_append]
end PureCrypto.Bignum
