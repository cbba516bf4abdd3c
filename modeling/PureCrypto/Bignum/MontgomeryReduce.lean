import Mathlib.FieldTheory.Finite.Basic
import PureCrypto.Bignum.ModPow

/-! # Products and remainders through the Montgomery form -/
namespace PureCrypto.Bignum
open Limbs List Nat
namespace MontModulus
variable {LIMBS : Nat} {m : MontModulus LIMBS}
theorem toNat_mulMod (h : m.Ready) {a b : Uint LIMBS} (ha : a.toNat < m.modulus.toNat) (hb : b.toNat < m.modulus.toNat) :
    (m.mulMod a b).toNat = a.toNat * b.toNat % m.modulus.toNat := by
  obtain ⟨hlt,hmod⟩ := montMul_spec h.toValid (ha.trans h.lt_radix) (hb.trans h.lt_radix) (mul_le_of_le h.toValid ha.le hb.le)
  have hback := inMont_montMul_r2 h (hlt.trans h.lt_radix)
  have hproduct : (m.mulMod a b).toNat ≡ a.toNat * b.toNat [MOD m.modulus.toNat] :=
    hback.modEq.trans (by rw [mul_comm]; exact hmod)
  rw [← hproduct]
  exact (mod_eq_of_lt hback.lt).symm

/-- Under an odd prime, `invPrime` inverts. -/
theorem mulMod_invPrime (modulus : Uint LIMBS) (hodd : modulus.toNat % 2 = 1) (hp : modulus.toNat.Prime) :
    ∃ m, new modulus = some m ∧ ∀ a : Uint LIMBS, 0 < a.toNat → a.toNat < modulus.toNat →
      (m.mulMod a (m.invPrime a)).toNat = 1 := by
  obtain ⟨m,hnew,h,rfl,-⟩ := new_spec hodd
  refine ⟨m,hnew,fun a hpos ha => ?_⟩
  have htwo : (Uint.fromU64 2#64).toNat = 2 := Uint.toNat_fromU64 _ h.limbs_pos
  have hinv := toNat_pow h ha (m.modulus.wrappingSub (.fromU64 2#64))
  rw [Uint.toNat_wrappingSub (htwo.trans_le hp.two_le),htwo] at hinv
  rw [invPrime,toNat_mulMod h ha (hinv.trans_lt (mod_lt _ hp.pos)),hinv,mul_mod_mod,← pow_add_one',
    ← Nat.sub_add_comm hp.two_le]
  exact Eq.trans (ModEq.pow_card_sub_one_eq_one hp (coprime_of_lt_prime hpos.ne' ha hp).symm) (mod_eq_of_lt hp.one_lt)

theorem mulMod_invPrime_seven : ∃ m, new (.fromU64 7#64 : Uint 2) = some m ∧
    (m.mulMod (.fromU64 3#64) (m.invPrime (.fromU64 3#64))).toNat = 1 :=
  (mulMod_invPrime _ (by decide +kernel) (by decide +kernel)).imp fun _ h =>
    ⟨h.1,h.2 _ (by decide +kernel) (by decide +kernel)⟩

theorem InMont.add {a b : Uint LIMBS} {u v : Nat} (ha : m.InMont a u) (hb : m.InMont b v) :
    m.InMont (addMod m.modulus a b) (u + v) := by
  have hadd := toNat_addMod_of_lt ha.lt hb.lt
  refine ⟨?_,?_⟩
  · rw [hadd]
    exact mod_lt _ (zero_lt_of_lt ha.lt)
  · rw [hadd,add_mul]
    exact (mod_modEq _ _).trans (ha.modEq.add hb.modEq)

theorem value_limbsFrom (l : List Limb) (k n : Nat) :
    value ((List.range n).map fun j => limbAt l (k + j)) = value l / (2 ^ 64) ^ k % (2 ^ 64) ^ n := by
  induction n with
  | zero => simp [mod_one]
  | succ n ih =>
    rw [List.range_succ,map_append,value_append,ih,map_singleton,value_cons,value_nil,toNat_limbAt,
      length_map,length_range,pow_succ (2 ^ 64) n,mod_mul,Nat.div_div_eq_div_mul,← pow_add (2 ^ 64) k n,
      mul_zero,add_zero]

theorem toNat_chunk (h : m.Valid) (x : Uint LIMBS) (i : Nat) :
    (m.chunk x i).toNat = x.toNat / m.radix ^ i % m.radix := by
  rw [chunk,Uint.toNat_fromSlice (by simpa using h.limbs_le),value_limbsFrom,radix,
    ← pow_mul (2 ^ 64) m.limbs i,mul_comm i]
  rfl

theorem toNat_reduce (h : m.Ready) (x : Uint LIMBS) : (m.reduce x).toNat = x.toNat % m.modulus.toNat := by
  have hL := h.limbs_pos
  have hs := h.width_pos
  generalize hchunks : (LIMBS + m.limbs - 1) / m.limbs = chunks
  have hcover : LIMBS ≤ m.limbs * chunks := by
    have := div_add_mod (LIMBS + m.limbs - 1) m.limbs
    have := mod_lt (LIMBS + m.limbs - 1) hs
    rw [hchunks] at *
    omega
  have hchunk : ∀ i, m.InMont (m.montMul (m.chunk x i) m.r2) (x.toNat / m.radix ^ i % m.radix) := by
    intro i
    have hlt : (m.chunk x i).toNat < m.radix := by
      rw [toNat_chunk h.toValid]
      exact mod_lt _ (zero_lt_of_lt h.one_lt_radix)
    have hin := inMont_montMul_r2 h hlt
    rwa [toNat_chunk h.toValid] at hin
  have hpos : 0 < chunks := pos_of_ne_zero fun hzero => by
    rw [hzero] at hcover
    omega
  have hx : x.toNat < m.radix ^ chunks := by
    refine lt_of_lt_of_le x.toNat_lt ?_
    rw [radix,← pow_mul (2 ^ 64) m.limbs chunks]
    exact Nat.pow_le_pow_right (Nat.two_pow_pos 64) hcover
  have hfinal := @holds_horner _ m.InMont (addMod m.modulus) (fun acc => m.montMul acc m.r2) _ _ _ _ .zero (fun _ _ _ _ => InMont.add)
    (fun _ _ ha => ha.mul h.toValid h.r2_inMont) hchunk hpos hx
  rw [← toNat_fromMont h hfinal,← hchunks]
  rfl
end MontModulus
end PureCrypto.Bignum
