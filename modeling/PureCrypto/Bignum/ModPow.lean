import PureCrypto.Bignum.MontgomeryForm

/-! # Modular exponentiation -/
namespace PureCrypto.Bignum
open Limbs List Nat
namespace MontModulus
variable {LIMBS : Nat} {m : MontModulus LIMBS}
section
variable (l : List Limb)
theorem toNat_window (i s c : Nat) (hsc : s + c ≤ 64) {mask : Limb} (hmask : mask.toNat = 2 ^ c - 1) :
    (limbAt l i >>> s &&& mask).toNat = value l / 2 ^ (64 * i + s) % 2 ^ c := by
  rw [BitVec.toNat_and,hmask,and_two_pow_sub_one_eq_mod,BitVec.toNat_ushiftRight,shiftRight_eq_div_pow,
    toNat_limbAt,← pow_mul,pow_add,← Nat.div_div_eq_div_mul]
  rw [show 2 ^ 64 = 2 ^ s * 2 ^ (64 - s) by rw [← pow_add]; congr 1; omega,mod_mul_right_div_self,
    mod_mod_of_dvd _ (Nat.pow_dvd_pow 2 (by omega))]

theorem digit_eq (w : Nat) : digit l w = value l / 16 ^ w % 16 := by
  rw [digit,toNat_window _ _ _ 4 (by omega) rfl,show 16 = 2 ^ 4 from rfl,← pow_mul]
  congr 3
  omega

theorem twoBits_eq (w : Nat) : twoBits l w = value l / 4 ^ w % 4 := by
  rw [twoBits,toNat_window _ _ _ 2 (by omega) rfl,show 4 = 2 ^ 2 from rfl,← pow_mul]
  congr 3
  omega

theorem bit_eq (i : Nat) : limbAt l (i / 64) >>> (i % 64) &&& 1#64 = 1#64 ↔ value l / 2 ^ i % 2 = 1 := by
  have h := @toNat_window l (i / 64) (i % 64) 1 (by omega) 1#64 rfl
  rw [div_add_mod] at h
  rw [← BitVec.toNat_inj,h]
  rfl
end
theorem inMont_mul (h : m.Valid) (a : Uint LIMBS) (u : Nat) (b : Uint LIMBS) (v : Nat) (ha : m.InMont a u)
    (hb : m.InMont b v) : m.InMont (m.montMul a b) (u * v) :=
  ha.mul h hb
theorem inMont_sqr (h : m.Valid) (a : Uint LIMBS) (u : Nat) (ha : m.InMont a u) : m.InMont (m.montSqr a) (u * u) :=
  ha.sqr h

theorem gather_scan {l : List (Uint LIMBS)} {k idx : Nat} (sel : Uint LIMBS) (hk : k + l.length ≤ 2 ^ 64) (hidx : idx < 2 ^ 64) :
    (l.zipIdx k).foldl
      (fun sel tj => Uint.conditionalSelect tj.1 sel (Ct.ctEq (BitVec.ofNat 64 tj.2) (BitVec.ofNat 64 idx))) sel =
      if k ≤ idx then l.getD (idx - k) sel else sel := by
  induction l generalizing k sel with
  | nil => simp
  | cons x l ih =>
    rw [length_cons] at hk
    rw [zipIdx_cons,foldl_cons,ih _ (by omega),Uint.conditionalSelect_eq,Ct.ctEq_eq]
    have hcell : BitVec.ofNat 64 k = BitVec.ofNat 64 idx ↔ k = idx := by
      rw [← BitVec.toNat_inj,BitVec.toNat_ofNat,BitVec.toNat_ofNat,mod_eq_of_lt (by omega),mod_eq_of_lt hidx]
    by_cases heq : k = idx
    · subst heq
      simp
    · simp only [hcell,heq,decide_false,Bool.false_eq_true,if_false]
      by_cases hle : k ≤ idx
      · rw [if_pos (show k + 1 ≤ idx by omega),if_pos hle,show idx - k = idx - (k + 1) + 1 by omega,getD_cons_succ]
      · rw [if_neg (by omega),if_neg hle]
variable {table : List (Uint LIMBS)}
theorem gather_eq {idx : Nat} (htable : table.length ≤ 2 ^ 64) (hidx : idx < table.length) :
    gather table idx = table[idx] := by
  rw [gather,gather_scan _ (by omega) (by omega)]
  simp [hidx]

theorem inMont_gather {f : Nat → Nat} (h : EntriesHold m.InMont table f) (htable : table.length ≤ 2 ^ 64)
    {idx : Nat} (hidx : idx < table.length) : m.InMont (gather table idx) (f idx) := by
  rw [gather_eq htable hidx]
  exact h idx _ (getElem?_eq_getElem hidx)

theorem entriesHold_pow2Table (h : m.Ready) {a b : Uint LIMBS} (ha : a.toNat < m.modulus.toNat)
    (hb : b.toNat < m.modulus.toNat) :
    (m.pow2Table a b).length = 16 ∧ EntriesHold m.InMont (m.pow2Table a b) fun k => a.toNat ^ (k % 4) * b.toNat ^ (k / 4) := by
  have hbm := inMont_toMont h hb
  have hb2 := hbm.sqr h.toValid
  refine ⟨by simp [pow2Table],?_⟩
  exact entriesHold_joint (inMont_mul h.toValid) (inMont_toMont_one h) (inMont_toMont h ha) hbm hb2 (hb2.mul h.toValid hbm)
section Ladder
variable {base a b : Uint LIMBS}
/-- The exponent is read in as many windows as the bound has, and in one at least. -/
theorem toNat_powBits (h : m.Ready) (hbase : base.toNat < m.modulus.toNat) (exp : Uint LIMBS)
    (bits : Nat) : (m.powBits base exp bits).toNat =
      base.toNat ^ (exp.toNat % 2 ^ (4 * max ((bits + 3) / 4) 1)) % m.modulus.toNat := by
  obtain ⟨w,hw⟩ : ∃ w, max ((bits + 3) / 4) 1 = w + 1 := ⟨max ((bits + 3) / 4) 1 - 1,by omega⟩
  have hlen : (m.toMont .one :: productChain m.montMul (m.toMont base) 15 (m.toMont base)).length = 16 := by simp
  have htable := entriesHold_powers (inMont_mul h.toValid) (inMont_toMont_one h) (inMont_toMont h hbase) 15
  have hentry : ∀ v ≤ w,
      m.InMont (gather (m.toMont .one :: productChain m.montMul (m.toMont base) 15 (m.toMont base)) (digit exp.limbs v))
        (base.toNat ^ (exp.toNat / (2 ^ 4) ^ v % 2 ^ 4)) := by
    intro v _
    rw [digit_eq]
    exact inMont_gather htable (by omega) (by omega)
  have hladder := holds_pow_ladder (inMont_mul h.toValid) (inMont_sqr h.toValid) hentry
  rw [hw,pow_mul,← toNat_fromMont h hladder,powBits,hw]
  rfl

theorem toNat_pow (h : m.Ready) (hbase : base.toNat < m.modulus.toNat) (exp : Uint LIMBS) :
    (m.pow base exp).toNat = base.toNat ^ exp.toNat % m.modulus.toNat := by
  have hL := h.limbs_pos
  rw [pow,toNat_powBits h hbase,show 4 * max ((LIMBS * 64 + 3) / 4) 1 = 64 * LIMBS by omega,pow_mul,
    mod_eq_of_lt exp.toNat_lt]

theorem joint_digit {i j : Nat} (hi : i < 4) : i ||| (j <<< 2) = i + 4 * j := by
  rw [Nat.or_comm,← shiftLeft_add_eq_or_of_lt (show i < 2 ^ 2 from hi)]
  omega

theorem toNat_pow2Bits (h : m.Ready) (ha : a.toNat < m.modulus.toNat)
    (hb : b.toNat < m.modulus.toNat) {x y : Uint LIMBS} {bits : Nat} (hx : x.toNat < 2 ^ bits)
    (hy : y.toNat < 2 ^ bits) :
    (m.pow2Bits a x b y bits).toNat = a.toNat ^ x.toNat * b.toNat ^ y.toNat % m.modulus.toNat := by
  obtain ⟨w,hw⟩ : ∃ w, max ((bits + 1) / 2) 1 = w + 1 := ⟨max ((bits + 1) / 2) 1 - 1,by omega⟩
  have hbits : 2 ^ bits ≤ 4 ^ (w + 1) := by
    rw [show 4 = 2 ^ 2 from rfl,← pow_mul]
    exact Nat.pow_le_pow_right (by decide) (by omega)
  obtain ⟨hlen,htable⟩ := entriesHold_pow2Table h ha hb
  have hentry : ∀ v ≤ w, m.InMont (gather (m.pow2Table a b) (twoBits x.limbs v ||| (twoBits y.limbs v <<< 2)))
      (a.toNat ^ (x.toNat / (2 ^ 2) ^ v % 2 ^ 2) * b.toNat ^ (y.toNat / (2 ^ 2) ^ v % 2 ^ 2)) := by
    intro v _
    rw [twoBits_eq,twoBits_eq,← Uint.toNat,← Uint.toNat]
    have hx4 := mod_lt (x.toNat / 4 ^ v) (show 0 < 4 by decide)
    have hy4 := mod_lt (y.toNat / 4 ^ v) (show 0 < 4 by decide)
    generalize x.toNat / 4 ^ v % 4 = i at *
    generalize y.toNat / 4 ^ v % 4 = j at *
    rw [joint_digit hx4]
    have hg := inMont_gather htable (by omega) (show i + 4 * j < (m.pow2Table a b).length by omega)
    simpa only [show (i + 4 * j) % 4 = i by omega,show (i + 4 * j) / 4 = j by omega] using hg
  have hladder := holds_joint_ladder (inMont_mul h.toValid) (inMont_sqr h.toValid) hentry
  rw [show (2 ^ 2) ^ (w + 1) = 4 ^ (w + 1) from rfl,mod_eq_of_lt (hx.trans_le hbits),
    mod_eq_of_lt (hy.trans_le hbits)] at hladder
  rw [← toNat_fromMont h hladder,pow2Bits,hw]
  rfl

theorem toNat_pow2 (h : m.Ready) (ha : a.toNat < m.modulus.toNat) (hb : b.toNat < m.modulus.toNat)
    (x y : Uint LIMBS) : (m.pow2 a x b y).toNat = a.toNat ^ x.toNat * b.toNat ^ y.toNat % m.modulus.toNat := by
  have hwidth : 2 ^ (LIMBS * 64) = (2 ^ 64) ^ LIMBS := by rw [mul_comm,pow_mul]
  exact toNat_pow2Bits h ha hb (by rw [hwidth]; exact x.toNat_lt) (by rw [hwidth]; exact y.toNat_lt)

theorem toNat_powPublic (h : m.Ready) (hbase : base.toNat < m.modulus.toNat) (exp : Uint LIMBS) :
    (m.powPublic base exp).toNat = base.toNat ^ exp.toNat % m.modulus.toNat := by
  have hbm := inMont_toMont h hbase
  rw [powPublic,exp.bitLen_eq]
  by_cases hzero : Nat.size exp.toNat = 0
  · rw [if_pos hzero,toNat_fromMont h (inMont_toMont_one h),size_eq_zero.mp hzero,pow_zero]
  · rw [if_neg hzero]
    have hpos := size_pos.mp (pos_of_ne_zero hzero)
    exact toNat_fromMont h (holds_bit_ladder (inMont_mul h.toValid) (inMont_sqr h.toValid) hbm hpos (bit_eq exp.limbs))
end Ladder
theorem Ready.toNat_r2 (h : m.Ready) : m.r2.toNat = 2 ^ (128 * m.limbs) % m.modulus.toNat := by
  have hsquare : m.radix * m.radix = 2 ^ (128 * m.limbs) := by
    rw [radix,← pow_mul,← pow_add]
    congr 1
    omega
  have hmod := h.r2_inMont.modEq
  rw [hsquare] at hmod
  rw [← hmod,mod_eq_of_lt h.r2_inMont.lt]

/-- Every exponentiation of an odd modulus, at the limbs that the modulus needs. -/
theorem modpow_correct (modulus : Uint LIMBS) (hodd : modulus.toNat % 2 = 1) :
    ∃ m, new modulus = some m ∧ m.modulus = modulus ∧ m.limbs = (Nat.size modulus.toNat + 63) / 64 ∧
      m.r2.toNat = 2 ^ (128 * m.limbs) % modulus.toNat ∧ ∀ base : Uint LIMBS, base.toNat < modulus.toNat →
        (∀ e, (m.pow base e).toNat = base.toNat ^ e.toNat % modulus.toNat ∧
          (m.powPublic base e).toNat = base.toNat ^ e.toNat % modulus.toNat) ∧
        (∀ e bits, (m.powBits base e bits).toNat =
          base.toNat ^ (e.toNat % 2 ^ (4 * max ((bits + 3) / 4) 1)) % modulus.toNat) ∧
        ∀ b : Uint LIMBS, b.toNat < modulus.toNat → ∀ x y bits, x.toNat < 2 ^ bits → y.toNat < 2 ^ bits →
          (m.pow2Bits base x b y bits).toNat = base.toNat ^ x.toNat * b.toNat ^ y.toNat % modulus.toNat := by
  obtain ⟨m,hnew,h,rfl,hlimbs⟩ := new_spec hodd
  refine ⟨m,hnew,rfl,hlimbs,h.toNat_r2,fun base hbase => ⟨fun e => ⟨?_,?_⟩,fun e bits => ?_,?_⟩⟩
  · exact toNat_pow h hbase e
  · exact toNat_powPublic h hbase e
  · exact toNat_powBits h hbase e bits
  · intro b hb x y bits hx hy
    exact toNat_pow2Bits h hbase hb hx hy

/-- A modulus of one limb in two. -/
theorem modpow_correct_seven :
    ∃ m, new (.fromU64 7#64 : Uint 2) = some m ∧ m.limbs = 1 ∧ (m.powBits (.fromU64 3#64) (.fromU64 5#64) 3).toNat = 5 := by
  obtain ⟨m,hnew,-,hlimbs,-,hpow⟩ := modpow_correct (.fromU64 7#64 : Uint 2) (by decide +kernel)
  refine ⟨m,hnew,by rw [hlimbs]; decide +kernel,?_⟩
  rw [(hpow (.fromU64 3#64) (by decide +kernel)).2.1]
  decide +kernel

/-- Without a bound the ladder still reads one window of the exponent. -/
theorem one_window_without_bits :
    (new (.fromU64 7#64 : Uint 1)).map (fun m => (m.powBits (.fromU64 2#64) (.fromU64 5#64) 0).toNat) = some 4 ∧
      2 ^ (5 % 2 ^ (4 * ((0 + 3) / 4))) % 7 = 1 := by
  decide +kernel
end MontModulus
end PureCrypto.Bignum
