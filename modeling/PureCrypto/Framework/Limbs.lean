import Mathlib.Data.Nat.Digits.Lemmas

/-! # Numbers in words -/
namespace PureCrypto.Limbs
open List
variable {w : Nat}
def value (l : List (BitVec w)) : Nat := Nat.ofDigits (2 ^ w) (l.map BitVec.toNat)

@[simp] theorem value_nil : value ([] : List (BitVec w)) = 0 := rfl
@[simp] theorem value_cons (x : BitVec w) (l : List (BitVec w)) : value (x :: l) = x.toNat + 2 ^ w * value l := by
  simp [value,Nat.ofDigits_cons]

theorem value_append (l m : List (BitVec w)) : value (l ++ m) = value l + (2 ^ w) ^ l.length * value m := by
  simp [value,Nat.ofDigits_append]
section
variable (l : List (BitVec w))
theorem value_lt : value l < (2 ^ w) ^ l.length := by
  induction l with
  | nil => simp
  | cons x l ih =>
    rw [length_cons,pow_succ']
    calc x.toNat + 2 ^ w * value l < 2 ^ w * 1 + 2 ^ w * value l := by omega
      _ = 2 ^ w * (value l + 1) := by ring
      _ ≤ 2 ^ w * (2 ^ w) ^ l.length := Nat.mul_le_mul_left _ ih

@[simp] theorem value_replicate_zero (n : Nat) : value (List.replicate n 0#w) = 0 := by
  induction n with
  | zero => rfl
  | succ n ih => simp [replicate_succ,ih]

theorem value_append_zeros (n : Nat) : value (l ++ List.replicate n 0#w) = value l := by
  simp [value_append]
theorem value_take_add_drop {n : Nat} (h : n ≤ l.length) :
    value (l.take n) + (2 ^ w) ^ n * value (l.drop n) = value l := by
  conv_rhs => rw [← take_append_drop n l,value_append,length_take,min_eq_left h]

theorem value_eq_zero_iff : value l = 0 ↔ ∀ x ∈ l, x = 0#w := by
  induction l with
  | nil => simp
  | cons x l ih =>
    rw [value_cons,forall_mem_cons,← ih,← BitVec.toNat_inj,Nat.add_eq_zero_iff]
    simp
end
theorem carry_unique {width a b c d : Nat} (ha : a < width) (hb : b < width) (h : a + width * c = b + width * d) :
    a = b ∧ c = d := by
  have hlow := congrArg (· % width) h
  simp only [Nat.add_mul_mod_self_left,Nat.mod_eq_of_lt ha,Nat.mod_eq_of_lt hb] at hlow
  subst hlow
  exact ⟨rfl,Nat.eq_of_mul_eq_mul_left (Nat.zero_lt_of_lt ha) (Nat.add_left_cancel h)⟩

theorem value_inj {l m : List (BitVec w)} (hlen : l.length = m.length) (h : value l = value m) : l = m := by
  induction l generalizing m with
  | nil => exact (length_eq_zero_iff.mp hlen.symm).symm
  | cons x l ih =>
    obtain ⟨y,m,rfl⟩ := exists_cons_of_length_pos (show 0 < m.length by simp [← hlen])
    obtain ⟨hlow,hrest⟩ := carry_unique x.isLt y.isLt h
    rw [ih (Nat.succ.inj hlen) hrest,BitVec.eq_of_toNat_eq hlow]

/-- A loop over the low `k` bits of `x`, the highest first: `a` is the number read so far. -/
theorem foldl_bits {τ : Type*} {f : τ → Nat → τ} {x : Nat} {P : Nat → Nat → τ → Prop}
    (hf : ∀ {k a t}, P (k + 1) a t → P k (2 * a + x / 2 ^ k % 2) (f t k)) {k a : Nat} {t : τ} (h : P k a t) :
    P 0 (a * 2 ^ k + x % 2 ^ k) ((List.range k).reverse.foldl f t) := by
  induction k generalizing a t with
  | zero => simpa [Nat.mod_one] using h
  | succ k ih =>
    have hnext := ih (hf h)
    rw [List.range_succ,reverse_append,reverse_singleton,singleton_append]
    rwa [show a * 2 ^ (k + 1) + x % 2 ^ (k + 1) = (2 * a + x / 2 ^ k % 2) * 2 ^ k + x % 2 ^ k by
      rw [Nat.mod_pow_succ]; ring]

/-- A loop over the words of a number, the highest first. -/
theorem foldl_words {τ : Type*} {f : τ → BitVec w → τ} {P : Nat → τ → Prop}
    (hf : ∀ {a t} (x : BitVec w), P a t → P (a * 2 ^ w + x.toNat) (f t x)) {a : Nat} {t : τ} (h : P a t)
    (l : List (BitVec w)) : P (a * (2 ^ w) ^ l.length + value l) (l.reverse.foldl f t) := by
  induction l with
  | nil => simpa using h
  | cons x l ih =>
    rw [reverse_cons,foldl_append,foldl_cons]
    have hnext := hf x ih
    rwa [show a * (2 ^ w) ^ (x :: l).length + value (x :: l) =
      (a * (2 ^ w) ^ l.length + value l) * 2 ^ w + x.toNat by rw [length_cons,value_cons]; ring]
end PureCrypto.Limbs
