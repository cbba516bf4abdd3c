import PureCrypto.Bignum.BoxedMontgomery
import PureCrypto.Bignum.MontgomeryReduce

/-! # Exponentiation at the width of the modulus -/
namespace PureCrypto.Bignum
open Limbs List
open MontModulus (bit_eq digit_eq new_spec shape_spec twoBits_eq)
open Nat (mod_eq_of_lt mod_lt pow_le_pow_right size)
section Fixed
variable {l : Nat}
theorem limbs_addMod_self (hl : 0 < l) (n x : Uint l) : (addMod n x x).limbs = divideBit n.limbs x.limbs 0#64 := by
  rw [← Uint.limbs_reduceBit n x hl (Nat.zero_le _)]
  have hset : (⟨(x.adc x 0#64).1.limbs.set 0 (limbAt (x.adc x 0#64).1.limbs 0 ||| 0#64),by
      rw [length_set,Uint.length_limbs]⟩) = (x.adc x 0#64).1 := by
    obtain ⟨limbs,hlen⟩ := (x.adc x 0#64).1
    cases limbs with
    | nil => rfl
    | cons w ws => simp [limbAt]
  simp only [addMod,Uint.reduceBit,hset]
  obtain ⟨hcarry,-⟩ := x.adc_eq x
  obtain ⟨hborrow,-⟩ := (x.adc x 0#64).1.sbb_eq n
  rw [Uint.conditionalSelect_eq]
  rcases bit_cases hcarry with hc | hc <;> rcases bit_cases hborrow with hb | hb <;> rw [hc,hb,select_eq _ _ (by decide)] <;>
    rfl

theorem limbs_addMod (n a b : Uint l) : (addMod n a b).limbs = addModInPlace n.limbs a.limbs b.limbs := by
  have hlen : ((a.adc b 0#64).1.sbb n 0#64).1.limbs.length = (a.adc b 0#64).1.limbs.length := by
    rw [Uint.length_limbs,Uint.length_limbs]
  have heq : addModInPlace n.limbs a.limbs b.limbs = assignLimbs ((a.adc b 0#64).1.sbb n 0#64).1.limbs (a.adc b 0#64).1.limbs
      !((a.adc b 0#64).2 ||| (((a.adc b 0#64).1.sbb n 0#64).2 ^^^ 1#64) != 0#64) := rfl
  rw [heq,assignLimbs_eq hlen]
  obtain ⟨hcarry,-⟩ := a.adc_eq b
  obtain ⟨hborrow,-⟩ := (a.adc b 0#64).1.sbb_eq n
  simp only [addMod]
  rcases bit_cases hcarry with hc | hc <;> rcases bit_cases hborrow with hb | hb <;> rw [hc,hb,select_eq _ _ (by decide)] <;>
    rfl
end Fixed
namespace MontModulus
variable {l : Nat} {M : MontModulus l}
theorem limbs_fromSlice {out : List Limb} (h : out.length = l) : (Uint.fromSlice out : Uint l).limbs = out := by
  simp [Uint.fromSlice,← h]

theorem full_width (hl : M.limbs = l) : M.modulus.limbs.take M.limbs = M.modulus.limbs ∧ M.radix = (2 ^ 64) ^ l := by
  rw [radix,hl]
  exact ⟨take_of_length_le (le_of_eq M.modulus.length_limbs),rfl⟩

theorem limbs_montMul (h : M.Valid) (hl : M.limbs = l) {a b : Uint l}
    (hab : a.toNat * b.toNat ≤ M.radix * M.modulus.toNat) :
    (M.montMul a b).limbs = montMulKernel M.modulus.limbs M.nPrime a.limbs b.limbs := by
  obtain ⟨htake,hradix⟩ := full_width hl
  have hlen := (isMontProduct_montMul h (hradix ▸ a.toNat_lt) (hradix ▸ b.toNat_lt) hab).length
  rw [htake] at hlen
  rw [montMul,htake,limbs_fromSlice (hlen.trans M.modulus.length_limbs)]

theorem limbs_montSqr (h : M.Valid) (hl : M.limbs = l) {a : Uint l}
    (haa : a.toNat * a.toNat ≤ M.radix * M.modulus.toNat) :
    (M.montSqr a).limbs = montSqrKernel M.modulus.limbs M.nPrime a.limbs := by
  obtain ⟨htake,hradix⟩ := full_width hl
  have hlen := (isMontProduct_montSqr h (hradix ▸ a.toNat_lt) haa).length
  rw [htake] at hlen
  rw [montSqr,htake,limbs_fromSlice (hlen.trans M.modulus.length_limbs)]

/-- Squarings by the dedicated kernel, from a number that may be the modulus itself. -/
theorem limbs_squarings (h : M.Valid) (hl : M.limbs = l) {x : Uint l} (hx : x.toNat ≤ M.modulus.toNat) (k : Nat) :
    ((fun x => M.montMul x x)^[k] x).limbs = (montSqrKernel M.modulus.limbs M.nPrime)^[k] x.limbs := by
  induction k generalizing x with
  | zero => rfl
  | succ k ih =>
    have hlt := hx.trans_lt h.lt_radix
    have hle := mul_le_of_le h hx hx
    obtain ⟨hmul,hmulMod⟩ := montMul_spec h hlt hlt hle
    obtain ⟨hsqr,hsqrMod⟩ := montSqr_spec h hlt hle
    have heq : M.montMul x x = M.montSqr x := by
      have hmod := Nat.ModEq.cancel_left_of_coprime h.coprime (hmulMod.trans hsqrMod.symm)
      exact Uint.toNat_inj.mp (hmod.eq_of_lt_of_lt hmul hsqr)
    rw [Function.iterate_succ_apply,Function.iterate_succ_apply,heq,ih hsqr.le,limbs_montSqr h hl hle]
end MontModulus
namespace BoxedMontModulus
variable {m : BoxedMontModulus}
/-- The modulus at the fixed width of its limbs. -/
structure Refines (m : BoxedMontModulus) (M : MontModulus m.limbs) : Prop where
  n : m.n = M.modulus.limbs
  nPrime : m.nPrime = M.nPrime
  r2 : m.r2 = M.r2.limbs
  limbs : M.limbs = m.limbs
  ready : M.Ready

theorem new_refines {modulus : BoxedUint} (hodd : modulus.toNat % 2 = 1) :
    ∃ m M, new modulus = some m ∧ m.Refines M ∧ M.modulus.toNat = modulus.toNat := by
  obtain ⟨hs,hlen,hvalue,hlow⟩ := modulus.significantLimbs_spec (by omega)
  generalize hl : modulus.significantLimbs = l at *
  generalize hn : modulus.limbsAt l = n at *
  obtain ⟨N,rfl⟩ : ∃ N : Uint l, N.limbs = n := ⟨⟨n,hlen⟩,rfl⟩
  have hN : N.toNat = modulus.toNat := hvalue
  rw [← hN] at hodd hlow ⊢
  -- no limb of the width is a leading zero
  obtain ⟨-,hle,hlt,hslow,hbits⟩ := shape_spec N (by omega)
  have hfull : BoxedUint.significantFrom N.limbs l = l := by
    by_contra hne
    have := pow_le_pow_right (Nat.two_pow_pos 64) (show BoxedUint.significantFrom N.limbs l ≤ l - 1 by omega)
    omega
  rw [hfull] at hbits
  have hready := MontModulus.withShape_ready hodd (le_refl l) N.toNat_lt
  have hzero : ¬ modulus.limbs.all (· == 0#64) = true := by
    intro hall
    have := (value_eq_zero_iff modulus.limbs).mpr (by simpa using hall)
    rw [BoxedUint.toNat] at hN
    omega
  let m : BoxedMontModulus := ⟨N.limbs,-invMod264 (limbAt N.limbs 0),List.replicate l 0#64,l⟩
  refine ⟨{ m with r2 := m.computeR2 },MontModulus.withShape N l (size N.toNat),?_,⟨rfl,rfl,?_,rfl,hready⟩,rfl⟩
  · rw [new,if_neg hzero]
    simp only [hl,hn,if_pos (Uint.and_one_of_odd hodd)]
    rfl
  · have hpos : 0 < size N.toNat := Nat.size_pos.mpr (by omega)
    let start : Uint l := ⟨(List.replicate l 0#64).set ((size N.toNat - 1) / 64) (1#64 <<< ((size N.toNat - 1) % 64)),
      by simp⟩
    have hstart : start.toNat ≤ N.toNat := by
      rw [show start.toNat = 2 ^ (size N.toNat - 1) from MontModulus.toNat_start (by omega)]
      exact Nat.lt_size.mp (by omega)
    have hsemi : Function.Semiconj Uint.limbs (fun x => addMod N x x) m.doubleInPlace := limbs_addMod_self hs N
    have hsquare := MontModulus.limbs_squarings hready.toValid rfl
      (MontModulus.doublings_spec N hstart (64 * l - size N.toNat + 1 + l)).1 6
    rw [(hsemi.iterate_right _).eq] at hsquare
    have hm : 64 * m.limbs - BoxedUint.leadingZeros (limbAt m.n (m.limbs - 1)) = size N.toNat := hbits
    simp only [computeR2,hm]
    exact hsquare.symm

/-- `x` holds the number `v`. -/
def Holds (M : MontModulus m.limbs) (x : List Limb) (v : Nat) : Prop := ∃ u : Uint m.limbs, u.limbs = x ∧ M.InMont u v
section Holds
variable {M : MontModulus m.limbs} (h : m.Refines M)
include h
theorem Refines.limbs_pos : 0 < m.limbs := h.limbs ▸ h.ready.width_pos

theorem Refines.radix_eq : M.radix = (2 ^ 64) ^ m.limbs := by rw [MontModulus.radix,h.limbs]
theorem Refines.montMul {a b : Uint m.limbs} (hab : a.toNat * b.toNat ≤ M.radix * M.modulus.toNat) :
    m.montMulLimbs a.limbs b.limbs = (M.montMul a b).limbs := by
  rw [MontModulus.limbs_montMul h.ready.toValid h.limbs hab,montMulLimbs,h.n,h.nPrime]

theorem holds_mul (a : List Limb) (u : Nat) (b : List Limb) (v : Nat) (ha : Holds M a u) (hb : Holds M b v) :
    Holds M (m.montMulLimbs a b) (u * v) := by
  obtain ⟨a,rfl,ha⟩ := ha
  obtain ⟨b,rfl,hb⟩ := hb
  have hab := MontModulus.mul_le_of_le h.ready.toValid ha.lt.le hb.lt.le
  exact ⟨M.montMul a b,(h.montMul hab).symm,ha.mul h.ready.toValid hb⟩

theorem holds_sqr (a : List Limb) (u : Nat) (ha : Holds M a u) : Holds M (m.montSqrLimbs a) (u * u) := by
  obtain ⟨a,rfl,ha⟩ := ha
  have haa := MontModulus.mul_le_of_le h.ready.toValid ha.lt.le ha.lt.le
  refine ⟨M.montSqr a,?_,ha.sqr h.ready.toValid⟩
  rw [MontModulus.limbs_montSqr h.ready.toValid h.limbs haa,montSqrLimbs,h.n,h.nPrime]

theorem holds_add (a : List Limb) (u : Nat) (b : List Limb) (v : Nat) (ha : Holds M a u) (hb : Holds M b v) :
    Holds M (addModInPlace m.n a b) (u + v) := by
  obtain ⟨a,rfl,ha⟩ := ha
  obtain ⟨b,rfl,hb⟩ := hb
  exact ⟨addMod M.modulus a b,by rw [limbs_addMod,h.n],ha.add hb⟩
variable {x sel : List Limb} {base : BoxedUint} {table : List (List Limb)}
theorem holds_toMont (hlen : x.length = m.limbs) : Holds M (m.toMontLimbs x) (value x) := by
  have hx : (⟨x,hlen⟩ : Uint m.limbs).toNat < M.radix := by
    rw [h.radix_eq]
    exact Uint.toNat_lt _
  refine ⟨M.montMul ⟨x,hlen⟩ M.r2,?_,MontModulus.inMont_montMul_r2 h.ready hx⟩
  rw [← h.montMul (Nat.mul_le_mul hx.le h.ready.r2_inMont.lt.le),toMontLimbs,h.r2]

theorem oneLimbs_eq : m.oneLimbs = (Uint.one : Uint m.limbs).limbs := by
  have hone : ∀ l, 0 < l → (List.replicate l 0#64).set 0 1#64 = (Uint.one : Uint l).limbs := by
    intro l hl
    cases l with
    | zero => cases hl
    | succ k =>
      change 1#64 :: List.replicate k 0#64 = 1#64 :: (List.replicate (k + 1) 0#64).take k
      rw [take_replicate,Nat.min_eq_left (Nat.le_succ k)]
  exact hone m.limbs h.limbs_pos

theorem holds_one : Holds M (m.toMontLimbs m.oneLimbs) 1 := by
  have hone := holds_toMont h (x := m.oneLimbs) (by simp [oneLimbs])
  rw [oneLimbs_eq h] at hone ⊢
  rwa [← Uint.toNat,Uint.toNat_one h.limbs_pos] at hone

theorem toNat_demont {v : Nat} (hx : Holds M x v) :
    (BoxedUint.fromLimbs (m.demontLimbs x)).toNat = v % M.modulus.toNat := by
  obtain ⟨u,rfl,hu⟩ := hx
  have hle : u.toNat * (Uint.one : Uint m.limbs).toNat ≤ M.radix * M.modulus.toNat := by
    rw [Uint.toNat_one h.limbs_pos,mul_one]
    exact hu.lt.le.trans (Nat.le_mul_of_pos_left _ (Nat.zero_lt_of_lt h.ready.one_lt_radix))
  rw [BoxedUint.toNat_fromLimbs,demontLimbs,oneLimbs_eq h,h.montMul hle]
  exact MontModulus.toNat_fromMont h.ready hu

theorem holds_base (hbase : base.toNat < M.modulus.toNat) :
    Holds M (m.toMontLimbs (base.limbsAt m.limbs)) base.toNat := by
  have hlt : base.toNat < (2 ^ 64) ^ m.limbs := hbase.trans M.modulus.toNat_lt
  have hlen : (base.limbsAt m.limbs).length = m.limbs := by
    rw [BoxedUint.limbsAt,length_append,length_take,length_replicate]
    omega
  have hvalue : value (base.limbsAt m.limbs) = base.toNat := by
    rw [BoxedUint.limbsAt,value_append_zeros]
    by_cases hw : m.limbs ≤ base.limbs.length
    · exact value_take_of_zeros _ _ (MontModulus.value_drop_eq_zero hw hlt)
    · rw [take_of_length_le (by omega)]
      rfl
  have hin := holds_toMont h hlen
  rwa [hvalue] at hin

theorem toNat_reduce (x : BoxedUint) : (m.reduce x).toNat = x.toNat % M.modulus.toNat := by
  have hs := h.limbs_pos
  have hx := length_pos_iff.mpr x.ne_nil
  generalize hchunks : (x.limbs.length + m.limbs - 1) / m.limbs = chunks
  have hcover : x.limbs.length ≤ m.limbs * chunks := by
    have := Nat.div_add_mod (x.limbs.length + m.limbs - 1) m.limbs
    have := mod_lt (x.limbs.length + m.limbs - 1) hs
    rw [hchunks] at *
    omega
  have hchunk : ∀ i, Holds M (m.toMontLimbs ((List.range m.limbs).map fun j => limbAt x.limbs (i * m.limbs + j)))
      (x.toNat / M.radix ^ i % M.radix) := by
    intro i
    have hin := holds_toMont h (x := (List.range m.limbs).map fun j => limbAt x.limbs (i * m.limbs + j)) (by simp)
    rwa [MontModulus.value_limbsFrom,pow_mul' (2 ^ 64) i m.limbs,← h.radix_eq] at hin
  have hpos : 0 < chunks := pos_of_ne_zero fun hzero => by
    rw [hzero] at hcover
    omega
  have hlt : x.toNat < M.radix ^ chunks := by
    refine lt_of_lt_of_le (value_lt x.limbs) ?_
    rw [h.radix_eq,← pow_mul (2 ^ 64) m.limbs chunks]
    exact pow_le_pow_right (Nat.two_pow_pos 64) hcover
  have hlift : ∀ a u, Holds M a u → Holds M (m.toMontLimbs a) (u * M.radix) := fun a u ha =>
    holds_mul h _ _ _ _ ha ⟨M.r2,h.r2.symm,h.ready.r2_inMont⟩
  have hfinal := holds_horner (List.replicate m.limbs 0#64) (holds_add h) hlift hchunk hpos hlt
  rw [← toNat_demont h hfinal,reduce,hchunks]

omit h in
theorem zipWith_mask_false {e : List Limb} (hlen : sel.length = e.length) :
    List.zipWith (fun s e => s ||| (e &&& Ct.mask 64 false)) sel e = sel := by
  refine ext_getElem (by simp [hlen]) fun i _ _ => ?_
  simp [Ct.mask_eq]

omit h in
theorem zipWith_mask_true (e : List Limb) :
    List.zipWith (fun s e => s ||| (e &&& Ct.mask 64 true)) (List.replicate e.length 0#64) e = e := by
  refine ext_getElem (by simp) fun i _ _ => ?_
  simp only [getElem_zipWith,getElem_replicate,Ct.mask_eq,if_true,BitVec.and_allOnes,BitVec.zero_or]

omit h in
theorem scan_other {k idx : Nat} (hlen : ∀ e ∈ table, sel.length = e.length)
    (hne : ∀ j, k ≤ j → j < k + table.length → Ct.ctEq (BitVec.ofNat 64 j) (BitVec.ofNat 64 idx) = false) :
    (table.zipIdx k).foldl (fun sel entry => List.zipWith (fun s e => s |||
      (e &&& Ct.mask 64 (Ct.ctEq (BitVec.ofNat 64 entry.2) (BitVec.ofNat 64 idx)))) sel entry.1) sel = sel := by
  induction table generalizing k with
  | nil => rfl
  | cons e table ih =>
    rw [zipIdx_cons,foldl_cons,hne k (le_refl k) (by simp),zipWith_mask_false (hlen e (by simp))]
    exact ih (fun e he => hlen e (by simp [he])) fun j hj hj' => hne j (by omega) (by rw [length_cons]; omega)

omit h in
theorem holds_gather {f : Nat → Nat} (ht : EntriesHold (Holds M) table f)
    (htable : table.length ≤ 2 ^ 64) {idx : Nat} (hidx : idx < table.length) :
    Holds M (m.gather table idx) (f idx) := by
  have hlen : ∀ e ∈ table, e.length = m.limbs := by
    intro e he
    obtain ⟨k,hk⟩ := getElem?_of_mem he
    obtain ⟨u,rfl,-⟩ := ht k e hk
    exact u.length_limbs
  have hcell : ∀ j < table.length, Ct.ctEq (BitVec.ofNat 64 j) (BitVec.ofNat 64 idx) = decide (j = idx) := by
    intro j hj
    rw [Ct.ctEq_eq,decide_eq_decide,← BitVec.toNat_inj,BitVec.toNat_ofNat,BitVec.toNat_ofNat,mod_eq_of_lt (by omega),
      mod_eq_of_lt (by omega)]
  have heq : m.gather table idx = table[idx] := by
    have hentry := hlen table[idx] (getElem_mem hidx)
    have hsplit : table = table.take idx ++ table[idx] :: table.drop (idx + 1) := by
      rw [getElem_cons_drop,take_append_drop]
    have htake : (table.take idx).length = idx := length_take_of_le hidx.le
    have hbefore := @scan_other (List.replicate m.limbs 0#64) (table.take idx) 0 idx
      (fun e he => by rw [length_replicate,hlen e (mem_of_mem_take he)])
      fun j _ hj => by rw [hcell j (by omega),decide_eq_false (by omega)]
    have hafter := @scan_other table[idx] (table.drop (idx + 1)) (idx + 1) idx
      (fun e he => by rw [hentry,hlen e (mem_of_mem_drop he)])
      fun j _ hj => by
        rw [length_drop] at hj
        rw [hcell j (by omega),decide_eq_false (by omega)]
    rw [gather]
    conv_lhs => rw [hsplit,zipIdx_append,foldl_append,htake,zipIdx_cons,foldl_cons]
    rw [hbefore,zero_add,hcell idx hidx,decide_eq_true rfl,← hentry,zipWith_mask_true,hafter]
  rw [heq]
  exact ht idx _ (getElem?_eq_getElem hidx)

theorem toNat_powBitsPortable (hbase : base.toNat < M.modulus.toNat) (exp : BoxedUint) (bits : Nat) :
    (m.powBitsPortable base exp bits).toNat =
      base.toNat ^ (exp.toNat % 2 ^ (4 * max ((bits + 3) / 4) 1)) % M.modulus.toNat := by
  obtain ⟨w,hw⟩ : ∃ w, max ((bits + 3) / 4) 1 = w + 1 := ⟨max ((bits + 3) / 4) 1 - 1,by omega⟩
  have htable := entriesHold_powers (holds_mul h) (holds_one h) (holds_base h hbase) 15
  have hladder := holds_pow_ladder (holds_mul h) (holds_sqr h) (k := 4) (w := w) (x := exp.toNat) (fun v _ => by
    have hg := holds_gather htable (by simp) (show MontModulus.digit exp.limbs v < _ by
      rw [digit_eq,length_cons]
      exact mod_lt _ (by decide))
    rw [digit_eq] at hg
    exact hg)
  rw [hw,pow_mul,← toNat_demont h hladder,powBitsPortable,hw]
  simp only [← digit_eq]
  rfl

theorem toNat_pow (hbase : base.toNat < M.modulus.toNat) (exp : BoxedUint) :
    (m.pow base exp).toNat = base.toNat ^ exp.toNat % M.modulus.toNat := by
  have hs := h.limbs_pos
  have hwidth : exp.toNat < 2 ^ (64 * max exp.limbs.length m.limbs) := by
    rw [pow_mul]
    exact (value_lt exp.limbs).trans_le (pow_le_pow_right (Nat.two_pow_pos 64) (le_max_left _ _))
  generalize hw : max exp.limbs.length m.limbs = width at hwidth
  rw [pow,toNat_powBitsPortable h hbase,hw,show 4 * max ((64 * width + 3) / 4) 1 = 64 * width by omega,
    mod_eq_of_lt hwidth]

theorem toNat_pow2BitsPortable {a b : BoxedUint} (ha : a.toNat < M.modulus.toNat) (hb : b.toNat < M.modulus.toNat)
    {x y : BoxedUint} {bits : Nat} (hx : x.toNat < 2 ^ bits) (hy : y.toNat < 2 ^ bits) :
    (m.pow2BitsPortable a x b y bits).toNat = a.toNat ^ x.toNat * b.toNat ^ y.toNat % M.modulus.toNat := by
  obtain ⟨w,hw⟩ : ∃ w, max ((bits + 1) / 2) 1 = w + 1 := ⟨max ((bits + 1) / 2) 1 - 1,by omega⟩
  have hbits : 2 ^ bits ≤ (2 ^ 2) ^ (w + 1) := by
    rw [← pow_mul]
    exact pow_le_pow_right (by decide) (by omega)
  have hbm := holds_base h hb
  have hb2 := holds_mul h _ _ _ _ hbm hbm
  have htable := entriesHold_joint (holds_mul h) (holds_one h) (holds_base h ha) hbm hb2 (holds_mul h _ _ _ _ hb2 hbm)
  have hladder := holds_joint_ladder (holds_mul h) (holds_sqr h) (k := 2) (w := w) (x := x.toNat) (y := y.toNat) (fun v _ => by
    have hg := holds_gather htable (by simp) (show x.toNat / 4 ^ v % 4 + 4 * (y.toNat / 4 ^ v % 4) < _ by simp; omega)
    rwa [show (x.toNat / 4 ^ v % 4 + 4 * (y.toNat / 4 ^ v % 4)) % 4 = x.toNat / 4 ^ v % 4 by omega,
      show (x.toNat / 4 ^ v % 4 + 4 * (y.toNat / 4 ^ v % 4)) / 4 = y.toNat / 4 ^ v % 4 by omega] at hg)
  rw [mod_eq_of_lt (hx.trans_le hbits),mod_eq_of_lt (hy.trans_le hbits)] at hladder
  have hdigit : ∀ v, MontModulus.twoBits x.limbs v ||| (MontModulus.twoBits y.limbs v <<< 2) =
      x.toNat / 4 ^ v % 4 + 4 * (y.toNat / 4 ^ v % 4) := by
    intro v
    rw [twoBits_eq,twoBits_eq,MontModulus.joint_digit (mod_lt _ (by decide))]
    rfl
  rw [← toNat_demont h hladder,pow2BitsPortable,hw]
  simp only [hdigit]
  rfl

theorem toNat_powPublicPortable (hbase : base.toNat < M.modulus.toNat) (exp : BoxedUint) :
    (m.powPublicPortable base exp).toNat = base.toNat ^ exp.toNat % M.modulus.toNat := by
  have hbm := holds_base h hbase
  rw [powPublicPortable,BoxedUint.bitLen_eq]
  by_cases hzero : size exp.toNat = 0
  · rw [if_pos hzero,toNat_demont h (holds_one h),Nat.size_eq_zero.mp hzero,pow_zero]
  rw [if_neg hzero]
  have hpos := Nat.size_pos.mp (pos_of_ne_zero hzero)
  refine toNat_demont h ?_
  by_cases hsmall : size exp.toNat ≤ 64
  · rw [if_pos hsmall]
    exact holds_bit_ladder (holds_mul h) (holds_sqr h) hbm hpos (bit_eq exp.limbs)
  · rw [if_neg hsmall]
    have htable : ∀ d, 0 < d → d < 16 → Holds M (([] :: productChain m.montMulLimbs (m.toMontLimbs (base.limbsAt m.limbs)) 15
        (m.toMontLimbs (base.limbsAt m.limbs))).getD d []) (base.toNat ^ d) := by
      intro d hd hd'
      obtain ⟨d,rfl⟩ : ∃ k, d = k + 1 := ⟨d - 1,by omega⟩
      have hlen : d < (productChain m.montMulLimbs (m.toMontLimbs (base.limbsAt m.limbs)) 15
          (m.toMontLimbs (base.limbsAt m.limbs))).length := by
        rw [length_productChain]
        omega
      have hchain := entriesHold_productChain (holds_mul h) hbm hbm 15 d _ (getElem?_eq_getElem hlen)
      rw [pow_succ']
      rwa [getD_cons_succ,getD_eq_getElem?_getD,getElem?_eq_getElem hlen]
    have hdigit : ∀ v, MontModulus.digit exp.limbs v = exp.toNat / (2 ^ 4) ^ v % 2 ^ 4 := digit_eq exp.limbs
    refine holds_sparse_ladder (holds_mul h) (holds_sqr h) (k := 4) ?_ (fun v _ hd => ?_) fun v _ hd => ?_
    · obtain ⟨hlow,hhigh⟩ := size_top_window hpos (show 0 < 4 by decide)
      rw [hdigit,mod_eq_of_lt hhigh]
      exact htable _ hlow hhigh
    · rw [← hdigit]
      exact htable _ (pos_of_ne_zero hd) (by rw [hdigit]; exact mod_lt _ (by decide))
    · rw [← hdigit]
      exact not_not.mp hd
end Holds
/-- Every exponentiation and the remainder, at any widths, with the numbers of a fixed width. -/
theorem boxedModpow_correct (modulus : BoxedUint) (hodd : modulus.toNat % 2 = 1) :
    ∃ m, new modulus = some m ∧ (∀ x, (m.reduce x).toNat = x.toNat % modulus.toNat) ∧
      ∀ base : BoxedUint, base.toNat < modulus.toNat →
        (∀ e, (m.pow base e).toNat = base.toNat ^ e.toNat % modulus.toNat ∧
          (m.powPublicPortable base e).toNat = base.toNat ^ e.toNat % modulus.toNat ∧
          ∀ bits, (m.powBitsPortable base e bits).toNat =
              base.toNat ^ (e.toNat % 2 ^ (4 * max ((bits + 3) / 4) 1)) % modulus.toNat ∧
            (e.toNat < 2 ^ bits → (m.powBitsPortable base e bits).toNat = base.toNat ^ e.toNat % modulus.toNat)) ∧
        (∀ b : BoxedUint, b.toNat < modulus.toNat → ∀ x y bits, x.toNat < 2 ^ bits → y.toNat < 2 ^ bits →
          (m.pow2BitsPortable base x b y bits).toNat = base.toNat ^ x.toNat * b.toNat ^ y.toNat % modulus.toNat) ∧
        ∀ LIMBS (N base' exp' : Uint LIMBS) (e : BoxedUint) M, N.toNat = modulus.toNat → MontModulus.new N = some M →
          base'.toNat = base.toNat → exp'.toNat = e.toNat → (M.pow base' exp').toNat = (m.pow base e).toNat ∧
            (M.powPublic base' exp').toNat = (m.powPublicPortable base e).toNat ∧
            ∀ bits, (M.powBits base' exp' bits).toNat = (m.powBitsPortable base e bits).toNat := by
  obtain ⟨m,M,hnew,h,hN⟩ := new_refines hodd
  rw [← hN] at hodd ⊢
  refine ⟨m,hnew,toNat_reduce h,fun base hbase => ⟨fun e => ?_,?_,?_⟩⟩
  · refine ⟨toNat_pow h hbase e,toNat_powPublicPortable h hbase e,fun bits => ⟨toNat_powBitsPortable h hbase e bits,?_⟩⟩
    intro he
    have hle : 2 ^ bits ≤ 2 ^ (4 * max ((bits + 3) / 4) 1) := pow_le_pow_right (by decide) (by omega)
    rw [toNat_powBitsPortable h hbase,mod_eq_of_lt (he.trans_le hle)]
  · intro b hb x y bits hx hy
    exact toNat_pow2BitsPortable h hbase hb hx hy
  · intro LIMBS N base' exp' e F hsame hF hbase' hexp'
    obtain ⟨F',hF',hready,hmod,-⟩ := new_spec (show N.toNat % 2 = 1 by rwa [hsame])
    cases hF.symm.trans hF'
    have hlt : base'.toNat < F.modulus.toNat := by rwa [hmod,hsame,hbase']
    rw [MontModulus.toNat_pow hready hlt,MontModulus.toNat_powPublic hready hlt,toNat_pow h hbase,
      toNat_powPublicPortable h hbase,hmod,hsame,hbase',hexp']
    refine ⟨rfl,rfl,fun bits => ?_⟩
    rw [MontModulus.toNat_powBits hready hlt,toNat_powBitsPortable h hbase,hmod,hsame,hbase',hexp']

/-- An exponent of two limbs for a modulus of one that is stored in two. -/
theorem boxedModpow_correct_seven :
    ∃ m, new (.fromLimbs [7#64, 0#64]) = some m ∧ (m.pow (.fromU64 3#64) (.fromLimbs [5#64, 0#64])).toNat = 5 ∧
      (m.reduce (.fromLimbs [5#64, 1#64, 1#64])).toNat = 4 := by
  obtain ⟨m,hnew,hreduce,hpow⟩ := boxedModpow_correct (.fromLimbs [7#64, 0#64]) (by decide +kernel)
  refine ⟨m,hnew,?_,?_⟩
  · rw [((hpow (.fromU64 3#64) (by decide +kernel)).1 _).1]
    decide +kernel
  · rw [hreduce]
    decide +kernel
end BoxedMontModulus
end PureCrypto.Bignum
