import Mathlib.NumberTheory.PowModTotient
import Mathlib.Tactic.GCongr
import Mathlib.Tactic.LinearCombination
import Mathlib.Tactic.Ring

/-! # Reduction by a stored reciprocal, and exponents modulo a prime -/
namespace PureCrypto.Barrett
/-- The input loses what lies below `s`, its product with the stored reciprocal what lies below `t`. -/
def estimate (s t n x : Nat) : Nat := x / s * (s * t / n) / t
variable {s t n x : Nat} (hn : s ≤ n) (hx : x < s * t)
include hx
theorem estimate_mul_le : estimate s t n x * n ≤ x := by
  have ht : 0 < t := Nat.pos_of_mul_pos_left (by omega : 0 < s * t)
  have hquotient := Nat.div_mul_le_self x s
  have hreciprocal := Nat.div_mul_le_self (s * t) n
  have hestimate : estimate s t n x * t ≤ x / s * (s * t / n) := Nat.div_mul_le_self _ _
  refine Nat.le_of_mul_le_mul_right ?_ ht
  calc estimate s t n x * n * t = estimate s t n x * t * n := by ring
    _ ≤ x / s * (s * t / n) * n := by gcongr
    _ = x / s * (s * t / n * n) := by ring
    _ ≤ x / s * (s * t) := by gcongr
    _ = x / s * s * t := by ring
    _ ≤ x * t := by gcongr

include hn
theorem lt_estimate_add_mul : x < (estimate s t n x + 3) * n := by
  have hs : 0 < s := Nat.pos_of_mul_pos_right (by omega : 0 < s * t)
  have ht : 0 < t := Nat.pos_of_mul_pos_left (by omega : 0 < s * t)
  have hlt : x / s < t := Nat.div_lt_of_lt_mul hx
  have hquotient := Nat.lt_mul_of_div_lt (x / s).lt_succ_self hs
  have hreciprocal := Nat.lt_mul_of_div_lt (s * t / n).lt_succ_self (by omega)
  have hestimate : x / s * (s * t / n) < (estimate s t n x + 1) * t :=
    Nat.lt_mul_of_div_lt (Nat.lt_succ_self _) ht
  refine Nat.lt_of_mul_lt_mul_right (a := t) ?_
  calc x * t < (x / s + 1) * s * t := by gcongr
    _ = x / s * (s * t) + s * t := by ring
    _ ≤ x / s * ((s * t / n + 1) * n) + n * t := by gcongr
    _ = x / s * (s * t / n) * n + x / s * n + n * t := by ring
    _ ≤ (estimate s t n x + 1) * t * n + t * n + n * t := by gcongr
    _ = (estimate s t n x + 3) * n * t := by ring

omit hn hx

/-- The remainder is the high part of the divisor times what the reciprocal, rounded up, leaves below `s`. -/
theorem reciprocal_mod (hn : 0 < n) (hx : n * x < s) : ((s - 1) / n + 1) * x % s * n / s = x % n := by
  have hlow := Nat.div_mul_le_self (s - 1) n
  have hhigh : s - 1 < ((s - 1) / n + 1) * n := Nat.lt_mul_of_div_lt (Nat.lt_succ_self _) hn
  obtain ⟨e,he⟩ := Nat.exists_eq_add_of_le (show s ≤ ((s - 1) / n + 1) * n by omega)
  have hen : e < n := by
    rw [Nat.succ_mul] at he
    omega
  generalize (s - 1) / n + 1 = c at he
  have hex : e * x < s := (Nat.mul_le_mul_right x hen.le).trans_lt hx
  have hdigits := Nat.div_add_mod x n
  have hr := Nat.mod_lt x hn
  generalize x / n = k at hdigits
  generalize x % n = r at hdigits hr ⊢
  subst hdigits
  have hproduct : (k * e + c * r) * n = e * (n * k + r) + s * r := by
    linear_combination r * he
  have hfit : k * e + c * r < s := by
    refine Nat.lt_of_mul_lt_mul_right (a := n) ?_
    calc (k * e + c * r) * n < s + s * r := by omega
      _ = s * (r + 1) := by ring
      _ ≤ s * n := Nat.mul_le_mul_left s hr
  rw [show c * (n * k + r) = k * e + c * r + s * k by linear_combination k * he,Nat.add_mul_mod_self_left,
    Nat.mod_eq_of_lt hfit,hproduct,Nat.add_mul_div_left _ _ (by omega),Nat.div_eq_of_lt hex,zero_add]
end PureCrypto.Barrett
namespace PureCrypto
variable {p : ℕ}
variable {a b x : ℕ}
theorem pow_modEq_pow_of_coprime (hp : p.Prime) (h : a ≡ b [MOD p - 1]) (hx : x.Coprime p) :
    x ^ a ≡ x ^ b [MOD p] := by
  have hreduce : ∀ k, x ^ k ≡ x ^ (k % (p - 1)) [MOD p] := by
    intro k
    rw [← Nat.totient_prime hp]
    exact Nat.pow_totient_mod hp.one_lt hx
  calc x ^ a ≡ x ^ (a % (p - 1)) [MOD p] := hreduce a
    _ = x ^ (b % (p - 1)) := by rw [h]
    _ ≡ x ^ b [MOD p] := (hreduce b).symm

/-- Also for a multiple of the prime, when neither exponent is zero. -/
theorem pow_modEq_pow (hp : p.Prime) (h : a ≡ b [MOD p - 1]) (ha : 0 < a) (hb : 0 < b) (x : ℕ) :
    x ^ a ≡ x ^ b [MOD p] := by
  rcases Nat.coprime_or_dvd_of_prime hp x with hx | hx
  · exact pow_modEq_pow_of_coprime hp h hx.symm
  · have hzero : ∀ k, 0 < k → x ^ k ≡ 0 [MOD p] := fun k hk =>
      (Nat.modEq_zero_iff_dvd.mpr (dvd_pow hx hk.ne'))
    exact (hzero a ha).trans (hzero b hb).symm

theorem mul_pow_sub_two_modEq (hp : p.Prime) (hx : x.Coprime p) : x * x ^ (p - 2) ≡ 1 [MOD p] := by
  have htwo := hp.two_le
  rw [← pow_succ',show p - 2 + 1 = p - 1 by omega,← Nat.totient_prime hp]
  exact Nat.ModEq.pow_totient hx
end PureCrypto
