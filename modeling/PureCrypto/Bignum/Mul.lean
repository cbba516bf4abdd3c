import PureCrypto.Bignum.BoxedUint
import Mathlib.Tactic.LinearCombination

/-!
# Products of limbs

`mac` and the rows of the widening product of `bignum/mul.rs`.
-/
namespace PureCrypto.Bignum
open Limbs List Nat
def limbAt (p : List Limb) (i : Nat) : Limb := p.getD i 0#64

/-- `a + b * c + carry` and what it carries out. -/
def mac (a b c carry : Limb) : Limb × Limb :=
  let ret := a.toNat + b.toNat * c.toNat + carry.toNat
  (BitVec.ofNat 64 ret, BitVec.ofNat 64 (ret >>> 64))

/-- `p + m * n` column by column. -/
def addMulLoop (m : Limb) : Limb → List Limb → List Limb → List Limb × Limb
  | carry, p :: ps, n :: ns =>
    let (s, c) := mac p m n carry
    let (out, c) := addMulLoop m c ps ns
    (s :: out, c)
  | carry, _, _ => ([], carry)

/-- The rows of a product: each adds a multiple of `b` and gives its lowest limb away. -/
def mulRowsWide (b : List Limb) : List Limb → List Limb → List Limb × List Limb
  | [], acc => ([], acc)
  | a :: as, acc =>
    let (out, carry) := addMulLoop a 0#64 acc b
    let (lo, hi) := mulRowsWide b as (out.tail ++ [carry])
    (out.headD 0#64 :: lo, hi)

theorem mac_eq {a b c carry lo hi : Limb} (h : mac a b c carry = (lo, hi)) :
    (lo.toNat : ℤ) + 2 ^ 64 * hi.toNat = a.toNat + b.toNat * c.toNat + carry.toNat := by
  have hb : b.toNat * c.toNat ≤ (2 ^ 64 - 1) * (2 ^ 64 - 1) :=
    Nat.mul_le_mul (le_sub_one_of_lt b.isLt) (le_sub_one_of_lt c.isLt)
  obtain ⟨rfl,rfl⟩ := Prod.mk.inj h
  rw [← cast_mul]
  simp only [BitVec.toNat_ofNat,shiftRight_eq_div_pow]
  omega

theorem addMulLoop_spec {m carry carry' : Limb} {n p rest out : List Limb} (hp : p.length = n.length)
    (h : addMulLoop m carry (p ++ rest) n = (out, carry')) : out.length = p.length ∧
      (value out : ℤ) + (2 ^ 64) ^ p.length * carry'.toNat = value p + m.toNat * value n + carry.toNat := by
  induction p generalizing n carry out with
  | nil =>
    obtain rfl := length_eq_zero_iff.mp hp.symm
    obtain ⟨rfl,rfl⟩ : out = [] ∧ carry' = carry := by
      cases rest <;> simpa [addMulLoop,eq_comm] using h
    simp
  | cons x p ih =>
    obtain ⟨n0,n,rfl⟩ := exists_cons_of_length_pos (show 0 < n.length by simp [← hp])
    rw [cons_append,addMulLoop] at h
    rcases hs : mac x m n0 carry with ⟨s,c⟩
    rcases hrest : addMulLoop m c (p ++ rest) n with ⟨tail,d⟩
    simp only [hs,hrest,Prod.mk.injEq] at h
    obtain ⟨rfl,rfl⟩ := h
    obtain ⟨hlen,hvalue⟩ := ih (Nat.succ.inj hp) hrest
    refine ⟨by simp [hlen],?_⟩
    push_cast [value_cons,length_cons] at hvalue ⊢
    linear_combination 2 ^ 64 * hvalue + mac_eq hs

theorem mulRowsWide_spec {as b acc : List Limb} (hb : b ≠ []) (hacc : acc.length = b.length) :
    (mulRowsWide b as acc).1.length = as.length ∧ (mulRowsWide b as acc).2.length = b.length ∧
      (value (mulRowsWide b as acc).1 : ℤ) + (2 ^ 64) ^ as.length * value (mulRowsWide b as acc).2 =
        value acc + value as * value b := by
  induction as generalizing acc with
  | nil => simp [mulRowsWide,hacc]
  | cons a as ih =>
    rcases hrow : addMulLoop a 0#64 acc b with ⟨out,carry⟩
    obtain ⟨hlen,hvalue⟩ := @addMulLoop_spec a 0#64 carry b acc [] out hacc (by rw [append_nil,hrow])
    obtain ⟨x,out,rfl⟩ := exists_cons_of_length_pos
      (show 0 < out.length by rw [hlen,hacc]; exact length_pos_iff.mpr hb)
    have hout : (out ++ [carry]).length = b.length := by
      simpa using hlen.trans hacc
    obtain ⟨hlo,hhi,hrest⟩ := ih hout
    rw [mulRowsWide,hrow]
    refine ⟨by simp [hlo],hhi,?_⟩
    rw [hacc,← hout] at hvalue
    push_cast [value_append,value_cons,value_nil,length_append,length_cons,length_nil,tail_cons,headD_cons,BitVec.toNat_ofNat,zero_mod,cast_zero] at hvalue hrest ⊢
    linear_combination hvalue + 2 ^ 64 * hrest
end PureCrypto.Bignum
