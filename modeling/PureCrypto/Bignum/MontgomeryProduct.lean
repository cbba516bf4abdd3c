import PureCrypto.Bignum.Arithmetic
import PureCrypto.Bignum.MontgomeryKernel
import Mathlib.Data.BitVec
import Mathlib.Data.Nat.Prime.Basic

/-! # The Montgomery product -/
namespace PureCrypto.Bignum
open Limbs List
open BitVec (toNat_mul toNat_ofNat)
open Nat (zero_mod)
theorem sum3_eq {a b c lo hi : Limb} (h : sum3 a b c = (lo, hi)) :
    (lo.toNat : ℤ) + 2 ^ 64 * hi.toNat = a.toNat + b.toNat + c.toNat := by
  obtain ⟨rfl,rfl⟩ := Prod.mk.inj h
  simp only [toNat_ofNat,Nat.shiftRight_eq_div_pow]
  omega

private theorem mac_clears {n np s : Limb} (hnp : n * np = -1) : (mac s (s * np) n 0#64).1 = 0#64 := by
  have hzero : s + s * np * n = 0 := by
    linear_combination s * hnp
  have hlow : ∀ m : Limb, (mac s m n 0#64).1 = s + m * n := by
    intro m
    apply BitVec.eq_of_toNat_eq
    simp [mac,BitVec.toNat_add,toNat_mul]
  rw [hlow,hzero]
  rfl

theorem mac_clears_eq {n np s : Limb} (hnp : n * np = -1) :
    (2 : ℤ) ^ 64 * (mac s (s * np) n 0#64).2.toNat = s.toNat + (s * np).toNat * n.toNat := by
  have h := mac_eq (show mac s (s * np) n 0#64 = ((mac s (s * np) n 0#64).1, (mac s (s * np) n 0#64).2) from rfl)
  rw [mac_clears hnp] at h
  simpa using h

/-- The inverse is right in twice as many bits after each step. -/
theorem mul_invMod264 {n : Limb} (hodd : n.toNat % 2 = 1) : n * invMod264 n = 1 := by
  have hstep : ∀ x : Limb, 1 - n * (x * (2#64 - n * x)) = (1 - n * x) ^ 2 := by
    intro x
    rw [show (2#64) = 2 from rfl]
    ring
  obtain ⟨y,hy⟩ : ∃ y : Limb, 1 - n * 1#64 = 2 * y := by
    refine ⟨BitVec.ofNat 64 ((2 ^ 64 + 1 - n.toNat) / 2),?_⟩
    apply BitVec.eq_of_toNat_eq
    rw [BitVec.mul_one,toNat_mul,toNat_ofNat]
    change (2 ^ 64 - n.toNat + 1) % 2 ^ 64 = 2 * ((2 ^ 64 + 1 - n.toNat) / 2 % 2 ^ 64) % 2 ^ 64
    omega
  have hpow : (2 : Limb) ^ 64 = 0 := by decide +kernel
  have hlast : 1 - n * invMod264 n = 0 := by
    have hsteps : 1 - n * invMod264 n = ((((((1 - n * 1#64) ^ 2) ^ 2) ^ 2) ^ 2) ^ 2) ^ 2 := by
      simp only [← hstep]
      rfl
    rw [hsteps,hy]
    linear_combination y ^ 64 * hpow
  exact (sub_eq_zero.mp hlast).symm
variable {n a t : List Limb} {np : Limb}
private theorem rowLoop_spec {b m c1 c2 : Limb} (hta : t.length = a.length) (htn : t.length = n.length) :
    ∀ {out c1' c2'}, rowLoop b m c1 c2 t a n = (out, c1', c2') → out.length = t.length ∧
        (value out : ℤ) + (2 ^ 64) ^ t.length * (c1'.toNat + c2'.toNat) =
          value t + value a * b.toNat + m.toNat * value n + c1.toNat + c2.toNat := by
  induction t generalizing a n c1 c2 with
  | nil =>
    intro out c1' c2' h
    obtain rfl := length_eq_zero_iff.mp hta.symm
    obtain rfl := length_eq_zero_iff.mp htn.symm
    obtain ⟨rfl,rfl,rfl⟩ : out = [] ∧ c1' = c1 ∧ c2' = c2 := by simpa [rowLoop,eq_comm] using h
    simp
  | cons t0 t ih =>
    intro out c1' c2' h
    obtain ⟨a0,a,rfl⟩ := exists_of_length_succ _ hta.symm
    obtain ⟨n0,n,rfl⟩ := exists_of_length_succ _ htn.symm
    rw [rowLoop] at h
    rcases hs : mac t0 a0 b c1 with ⟨s,k1⟩
    rcases hs2 : mac s m n0 c2 with ⟨s2,k2⟩
    rcases hrest : rowLoop b m k1 k2 t a n with ⟨rest,e1,e2⟩
    simp only [hs,hs2,hrest,Prod.mk.injEq] at h
    obtain ⟨rfl,rfl,rfl⟩ := h
    obtain ⟨hlen,hvalue⟩ := ih (Nat.succ.inj hta) (Nat.succ.inj htn) hrest
    refine ⟨by simp [hlen],?_⟩
    push_cast [value_cons,length_cons]
    linear_combination 2 ^ 64 * hvalue + mac_eq hs + mac_eq hs2

/-- What an accumulator with its top limb stands for. -/
def accValue (acc : List Limb × Limb) : ℤ := value acc.1 + (2 ^ 64) ^ acc.1.length * acc.2.toNat

private theorem singleRow_spec {b ts : Limb} (hnp : limbAt n 0 * np = -1) (hl : n ≠ []) (hta : t.length = a.length)
    (htn : t.length = n.length) : (singleRow n np a b (t, ts)).1.length = t.length ∧
      ∃ m : Limb, 2 ^ 64 * accValue (singleRow n np a b (t, ts)) =
        accValue (t, ts) + value a * b.toNat + m.toNat * value n := by
  obtain ⟨n0,n,rfl⟩ := exists_cons_of_ne_nil hl
  obtain ⟨t0,t,rfl⟩ := exists_of_length_succ _ htn
  obtain ⟨a0,a,rfl⟩ := exists_of_length_succ _ hta.symm
  rcases hs : mac t0 a0 b 0#64 with ⟨s0,c1⟩
  have hclear := @mac_clears_eq n0 np s0 hnp
  generalize hc2 : (mac s0 (s0 * np) n0 0#64).2 = c2 at hclear
  rcases hloop : rowLoop b (s0 * np) c1 c2 t a n with ⟨out,k1,k2⟩
  rcases htop : sum3 ts k1 k2 with ⟨top,ts'⟩
  obtain ⟨hlen,hvalue⟩ := rowLoop_spec (Nat.succ.inj hta) (Nat.succ.inj htn) hloop
  simp only [singleRow,hs,hc2,hloop,htop]
  refine ⟨by simp [hlen],s0 * np,?_⟩
  have hs' := mac_eq hs
  have htop' := sum3_eq htop
  push_cast [accValue,value_append,value_cons,value_nil,length_append,length_cons,length_nil,hlen,toNat_ofNat,zero_mod] at hs' ⊢
  linear_combination hs' + hclear + 2 ^ 64 * hvalue + 2 ^ 64 * (2 ^ 64) ^ t.length * htop'

private theorem pairLoop_spec {b0 b1 m0 m1 : Limb} {k k' : PairCarry} {out : List Limb} (hta : t.length = a.length)
    (htn : t.length = n.length) (h : pairLoop b0 b1 m0 m1 k t a n = (out, k')) : out.length = t.length ∧
      (value out : ℤ) + (2 ^ 64) ^ t.length * (k'.c1.toNat + k'.c2.toNat + k'.d1.toNat + k'.d2.toNat +
          k'.a.toNat * b1.toNat + m1.toNat * k'.n.toNat) =
        value t + value a * b0.toNat + m0.toNat * value n + value (k.a :: a) * b1.toNat + m1.toNat * value (k.n :: n) +
          (k.c1.toNat + k.c2.toNat + k.d1.toNat + k.d2.toNat) := by
  induction t generalizing a n k out with
  | nil =>
    obtain rfl := length_eq_zero_iff.mp hta.symm
    obtain rfl := length_eq_zero_iff.mp htn.symm
    obtain ⟨rfl,rfl⟩ : out = [] ∧ k' = k := by simpa [pairLoop,eq_comm] using h
    refine ⟨rfl,?_⟩
    simp only [value_nil,value_cons,length_nil,mul_zero,add_zero]
    ring
  | cons t0 t ih =>
    obtain ⟨a0,a,rfl⟩ := exists_of_length_succ _ hta.symm
    obtain ⟨n0,n,rfl⟩ := exists_of_length_succ _ htn.symm
    rw [pairLoop] at h
    rcases hs : mac t0 a0 b0 k.c1 with ⟨s,c1⟩
    rcases htp : mac s m0 n0 k.c2 with ⟨tp,c2⟩
    rcases hu : mac tp k.a b1 k.d1 with ⟨u,d1⟩
    rcases hu2 : mac u m1 k.n k.d2 with ⟨u2,d2⟩
    rcases hrest : pairLoop b0 b1 m0 m1 ⟨c1,c2,d1,d2,a0,n0⟩ t a n with ⟨rest,k''⟩
    simp only [hs,htp,hu,hu2,hrest,Prod.mk.injEq] at h
    obtain ⟨rfl,rfl⟩ := h
    obtain ⟨hlen,hvalue⟩ := ih (Nat.succ.inj hta) (Nat.succ.inj htn) hrest
    refine ⟨by simp [hlen],?_⟩
    push_cast [value_cons,length_cons] at hvalue ⊢
    linear_combination 2 ^ 64 * hvalue + mac_eq hs + mac_eq htp + mac_eq hu + mac_eq hu2

private theorem pairRow_spec {b0 b1 ts : Limb} (hnp : limbAt n 0 * np = -1) (hl : 2 ≤ n.length) (hta : t.length = a.length)
    (htn : t.length = n.length) : (pairRow n np a b0 b1 (t, ts)).1.length = t.length ∧
      ∃ m0 m1 : Limb, 2 ^ 64 * 2 ^ 64 * accValue (pairRow n np a b0 b1 (t, ts)) =
        accValue (t, ts) + value a * (b0.toNat + 2 ^ 64 * b1.toNat) + (m0.toNat + 2 ^ 64 * m1.toNat) * value n := by
  obtain ⟨n0,n',rfl⟩ := exists_cons_of_length_pos (show 0 < n.length by omega)
  obtain ⟨n1,n,rfl⟩ := exists_cons_of_length_pos (show 0 < n'.length by simp at hl; omega)
  obtain ⟨t0,t',rfl⟩ := exists_of_length_succ _ htn
  obtain ⟨t1,t,rfl⟩ := exists_of_length_succ _ (Nat.succ.inj htn)
  obtain ⟨a0,a',rfl⟩ := exists_of_length_succ _ hta.symm
  obtain ⟨a1,a,rfl⟩ := exists_of_length_succ _ (Nat.succ.inj hta).symm
  rcases hs0 : mac t0 a0 b0 0#64 with ⟨s0,c1⟩
  have hclear0 := @mac_clears_eq n0 np s0 hnp
  generalize hc2 : (mac s0 (s0 * np) n0 0#64).2 = c2 at hclear0
  rcases hs : mac t1 a1 b0 c1 with ⟨s,c1'⟩
  rcases htp : mac s (s0 * np) n1 c2 with ⟨tp0,c2'⟩
  rcases hu0 : mac tp0 a0 b1 0#64 with ⟨u0,d1⟩
  have hclear1 := @mac_clears_eq n0 np u0 hnp
  generalize hd2 : (mac u0 (u0 * np) n0 0#64).2 = d2 at hclear1
  rcases hloop : pairLoop b0 b1 (s0 * np) (u0 * np) ⟨c1',c2',d1,d2,a1,n1⟩ t a n with ⟨out,k⟩
  rcases htpl : sum3 ts k.c1 k.c2 with ⟨tpl1,tpl⟩
  rcases hu : mac tpl1 k.a b1 k.d1 with ⟨u,e1⟩
  rcases hu2 : mac u (u0 * np) k.n k.d2 with ⟨u2,e2⟩
  rcases htop : sum3 tpl e1 e2 with ⟨top,ts'⟩
  obtain ⟨hlen,hvalue⟩ := pairLoop_spec (Nat.succ.inj (Nat.succ.inj hta)) (Nat.succ.inj (Nat.succ.inj htn)) hloop
  simp only [pairRow,hs0,hc2,hs,htp,hu0,hd2,hloop,htpl,hu,hu2,htop]
  refine ⟨by simp [hlen],s0 * np,u0 * np,?_⟩
  have hs0' := mac_eq hs0
  have hu0' := mac_eq hu0
  push_cast [accValue,value_append,value_cons,value_nil,length_append,length_cons,length_nil,hlen,toNat_ofNat,zero_mod] at hs0' hu0' hvalue ⊢
  linear_combination hs0' + hclear0 + 2 ^ 64 * (mac_eq hs + mac_eq htp + hu0' + hclear1) +
    2 ^ 64 * 2 ^ 64 * hvalue + 2 ^ 64 * 2 ^ 64 * (2 ^ 64) ^ t.length *
      (sum3_eq htpl + mac_eq hu + mac_eq hu2 + 2 ^ 64 * sum3_eq htop)

/-- The rows divide by `2 ^ (64 * l)` up to a multiple of the modulus. -/
private theorem mulRows_spec (hnp : limbAt n 0 * np = -1) {b : List Limb} {ts : Limb} (hb : b.length ≤ n.length)
    (hta : t.length = a.length) (htn : t.length = n.length) :
    (mulRows n np a b (t, ts)).1.length = n.length ∧ ∃ m : Nat, m < (2 ^ 64) ^ b.length ∧
        (2 ^ 64) ^ b.length * accValue (mulRows n np a b (t, ts)) =
          accValue (t, ts) + value a * value b + m * value n := by
  induction b using List.twoStepInduction generalizing t ts with
  | nil => exact ⟨htn,0,by simp,by simp [mulRows]⟩
  | singleton b =>
    obtain ⟨hlen,m,hvalue⟩ := @singleRow_spec n a t np b ts hnp (ne_nil_of_length_pos (by simp at hb; omega)) hta htn
    refine ⟨hlen.trans htn,m.toNat,by simpa using m.isLt,?_⟩
    simp only [mulRows,value_cons,value_nil,length_singleton,pow_one]
    linear_combination hvalue
  | cons_cons b0 b1 b ih _ =>
    obtain ⟨hlen,m0,m1,hvalue⟩ := @pairRow_spec n a t np b0 b1 ts hnp (by simp at hb; omega) hta htn
    rw [mulRows]
    rcases hrow : pairRow n np a b0 b1 (t, ts) with ⟨t',ts'⟩
    rw [hrow] at hlen hvalue
    obtain ⟨hlen',m,hm,hrest⟩ := @ih t' ts' (by simp at hb; omega) (hlen.trans hta) (hlen.trans htn)
    refine ⟨hlen',m0.toNat + 2 ^ 64 * (m1.toNat + 2 ^ 64 * m),?_,?_⟩
    · rw [length_cons,length_cons,pow_succ' (2 ^ 64) (b.length + 1),pow_succ' (2 ^ 64) b.length]
      omega
    · simp only [value_cons,length_cons]
      push_cast
      linear_combination hvalue + 2 ^ 64 * 2 ^ 64 * hrest

private theorem montFinalSub_eq (n t : List Limb) (ts : Limb) (htn : t.length = n.length) :
    montFinalSub n t ts =
      if (sbb ts 0#64 (sbbLimbs t n 0#64).2).2 = 0#64 then (sbbLimbs t n 0#64).1 else t := by
  obtain ⟨hdiff,hborrow,-⟩ := sbbLimbs_spec htn 0#64 (Nat.zero_le _)
  obtain ⟨-,hle⟩ := sbb_spec ts 0#64 (sbbLimbs t n 0#64).2 hborrow
  have hassign : montFinalSub n t ts = assignLimbs t (sbbLimbs t n 0#64).1
      ((sbb ts 0#64 (sbbLimbs t n 0#64).2).2 == 0#64) := by
    simp only [montFinalSub,assignLimbs]
    congr 1
    funext d x
    rw [BitVec.xor_comm x d]
    rcases bit_cases hle with h | h <;> rw [h] <;> rfl
  rw [hassign,assignLimbs_eq hdiff.symm]
  simp

private theorem montFinalSub_spec {ts : Limb} (htn : t.length = n.length) (hbound : accValue (t, ts) < 2 * value n) :
    (montFinalSub n t ts).length = n.length ∧ value (montFinalSub n t ts) < value n ∧
      (accValue (t, ts) = value (montFinalSub n t ts) ∨
        accValue (t, ts) = value (montFinalSub n t ts) + value n) := by
  obtain ⟨hdiff,hborrow,hsub⟩ := sbbLimbs_spec htn 0#64 (Nat.zero_le _)
  obtain ⟨hsbb,hle⟩ := sbb_spec ts 0#64 (sbbLimbs t n 0#64).2 hborrow
  have hbelow := value_lt (sbbLimbs t n 0#64).1
  have hn := value_lt n
  rw [hdiff] at hbelow
  rw [← htn] at hn
  rw [montFinalSub_eq n t ts htn]
  simp only [accValue,toNat_ofNat,zero_mod,zero_add,add_zero] at hbound hsbb hsub ⊢
  norm_cast at hbound ⊢
  generalize (2 ^ 64) ^ t.length = width at *
  have hts : ts.toNat < 2 := Nat.lt_of_mul_lt_mul_left (show width * ts.toNat < width * 2 by omega)
  -- a borrow out of the limbs is paid by the limb above them, or the number is below the modulus
  by_cases h : (sbb ts 0#64 (sbbLimbs t n 0#64).2).2 = 0#64
  · rw [if_pos h]
    rw [h] at hsbb
    generalize (sbbLimbs t n 0#64).2.toNat = bo at *
    have hsame : ts.toNat = bo := by
      obtain ht0 | ht1 : ts.toNat = 0 ∨ ts.toNat = 1 := by omega
      · simp only [toNat_ofNat,zero_mod] at hsbb
        omega
      · obtain hb0 | hb1 : bo = 0 ∨ bo = 1 := by omega
        · subst hb0
          rw [ht1] at hbound
          omega
        · omega
    subst hsame
    exact ⟨hdiff.trans htn,by omega,.inr (by omega)⟩
  · rw [if_neg h]
    rw [(bit_cases hle).resolve_left h] at hsbb
    have hts0 : ts.toNat = 0 ∧ (sbbLimbs t n 0#64).2.toNat = 1 := by
      simp only [toNat_ofNat,Nat.reducePow,Nat.reduceMod,mul_one] at hsbb
      omega
    rw [hts0.1] at hbound ⊢
    rw [hts0.2] at hsub
    exact ⟨htn,by omega,.inl (by omega)⟩
section Product
variable {b : List Limb}
theorem value_take_of_zeros (l : Nat) (x : List Limb) (h : value (x.drop l) = 0) : value (x.take l) = value x := by
  conv_rhs => rw [← take_append_drop l x,value_append,h]
  rw [mul_zero,add_zero]

/-- A number below the modulus, the product divided by `2 ^ (64 * l)`. -/
structure IsMontProduct (n : List Limb) (x : Nat) (out : List Limb) : Prop where
  length : out.length = n.length
  lt : value out < value n
  modEq : (2 ^ 64) ^ n.length * value out ≡ x [MOD value n]

theorem isMontProduct_of_rows {ts : Limb} {x m : Nat} (htn : t.length = n.length) (hm : m < (2 ^ 64) ^ n.length)
    (hx : x ≤ (2 ^ 64) ^ n.length * value n) (hn : 0 < value n)
    (h : (2 ^ 64) ^ n.length * accValue (t, ts) = x + m * value n) : IsMontProduct n x (montFinalSub n t ts) := by
  have hcast : accValue (t, ts) = ((value t + (2 ^ 64) ^ t.length * ts.toNat : Nat)) := by
    simp [accValue]
  have hbound : accValue (t, ts) < 2 * value n := by
    rw [hcast] at h ⊢
    norm_cast at h ⊢
    refine Nat.lt_of_mul_lt_mul_left (a := (2 ^ 64) ^ n.length) ?_
    nlinarith
  obtain ⟨hlen,hlt,hvalue⟩ := montFinalSub_spec htn hbound
  refine ⟨hlen,hlt,?_⟩
  rw [← Int.natCast_modEq_iff,Int.modEq_iff_dvd]
  push_cast
  rcases hvalue with hv | hv
  · exact ⟨-m,by rw [hv] at h; linear_combination -h⟩
  · exact ⟨(2 ^ 64) ^ n.length - m,by rw [hv] at h; linear_combination -h⟩

/-- A product has one such number below an odd modulus. -/
theorem IsMontProduct.eq_iff (hodd : value n % 2 = 1) {x : Nat} {out : List Limb} (h : IsMontProduct n x out) {y : Nat}
    (hy : y < value n) : (2 ^ 64) ^ n.length * y ≡ x [MOD value n] ↔ y = value out := by
  have hcop : Nat.Coprime (value n) ((2 ^ 64) ^ n.length) := by
    refine Nat.Coprime.pow_right _ (Nat.Coprime.pow_right _ ?_)
    rw [Nat.coprime_two_right,Nat.odd_iff]
    exact hodd
  constructor
  · intro hmod
    have hsame := Nat.ModEq.cancel_left_of_coprime hcop (hmod.trans h.modEq.symm)
    rwa [Nat.ModEq,Nat.mod_eq_of_lt hy,Nat.mod_eq_of_lt h.lt] at hsame
  · rintro rfl
    exact h.modEq
section
variable (hnp : limbAt n 0 * np = -1)
include hnp
theorem isMontProduct_montMulKernel (ha : n.length ≤ a.length) (hb : n.length ≤ b.length)
    (hab : value (a.take n.length) * value (b.take n.length) ≤ (2 ^ 64) ^ n.length * value n) (hn : 0 < value n) :
    IsMontProduct n (value (a.take n.length) * value (b.take n.length)) (montMulKernel n np a b) := by
  obtain ⟨hlen,m,hm,hvalue⟩ := @mulRows_spec n (a.take n.length) (List.replicate n.length 0#64) np hnp
    (b.take n.length) 0#64 (length_take_le _ _) (by simp [ha]) (by simp)
  rw [length_take_of_le hb] at hm hvalue
  refine isMontProduct_of_rows hlen hm hab hn ?_
  rw [hvalue]
  simp [accValue]

theorem montMulKernel_spec (ha : n.length ≤ a.length) (hb : n.length ≤ b.length)
    (ha0 : value (a.drop n.length) = 0) (hb0 : value (b.drop n.length) = 0)
    (hab : value a * value b ≤ (2 ^ 64) ^ n.length * value n) (hn : 0 < value n) :
    IsMontProduct n (value a * value b) (montMulKernel n np a b) := by
  rw [← value_take_of_zeros _ _ ha0,← value_take_of_zeros _ _ hb0] at hab ⊢
  exact isMontProduct_montMulKernel hnp ha hb hab hn

private theorem mulRows_top_le_one (hn : 0 < value n) (hb : b.length ≤ n.length) (ha : a.length = n.length) :
    (mulRows n np a b (List.replicate n.length 0#64, 0#64)).2.toNat ≤ 1 := by
  obtain ⟨hlen,m,hm,hvalue⟩ := @mulRows_spec n a (List.replicate n.length 0#64) np hnp b 0#64 hb (by simp [ha]) (by simp)
  have han := value_lt a
  have hbn := value_lt b
  have hnn := value_lt n
  rw [ha] at han
  generalize mulRows n np a b (List.replicate n.length 0#64, 0#64) = acc at hlen hvalue ⊢
  have hzero : accValue (List.replicate n.length 0#64, 0#64) = 0 := by simp [accValue]
  rw [hzero,accValue,hlen] at hvalue
  norm_cast at hvalue
  have hbound : value acc.1 + (2 ^ 64) ^ n.length * acc.2.toNat < value a + value n := by
    refine Nat.lt_of_mul_lt_mul_left (a := (2 ^ 64) ^ b.length) ?_
    have hrows : value a * value b ≤ value a * (2 ^ 64) ^ b.length := Nat.mul_le_mul_left _ hbn.le
    have hmultiple : m * value n < (2 ^ 64) ^ b.length * value n := Nat.mul_lt_mul_of_pos_right hm hn
    rw [hvalue,mul_add,mul_comm _ (value a)]
    omega
  have htop : (2 ^ 64) ^ n.length * acc.2.toNat < (2 ^ 64) ^ n.length * 2 := by omega
  exact Nat.le_of_lt_succ (Nat.lt_of_mul_lt_mul_left htop)
end
/-- No sum of the kernels, formed in 128 bits, wraps. -/
private theorem u128_sum_lt (a b c carry : Limb) :
    a.toNat + b.toNat * c.toNat + carry.toNat < 2 ^ 128 ∧ a.toNat + b.toNat + c.toNat < 2 ^ 128 := by
  have hbc : b.toNat * c.toNat ≤ (2 ^ 64 - 1) * (2 ^ 64 - 1) :=
    Nat.mul_le_mul (Nat.le_sub_one_of_lt b.isLt) (Nat.le_sub_one_of_lt c.isLt)
  omega

/-- The result, the carry limb after each row and the width of the sums. -/
theorem montMulKernel_correct (hodd : value n % 2 = 1) (hnp : limbAt n 0 * np = -1) (ha : n.length ≤ a.length)
    (hb : n.length ≤ b.length) (hab : value (a.take n.length) < value n ∨ value (b.take n.length) < value n) :
    (montMulKernel n np a b).length = n.length ∧ value (montMulKernel n np a b) < value n ∧
      (∀ y < value n, y * 2 ^ (64 * n.length) ≡ value (a.take n.length) * value (b.take n.length) [MOD value n] ↔
        y = value (montMulKernel n np a b)) ∧
      (∀ k, (mulRows n np (a.take n.length) ((b.take n.length).take k) (List.replicate n.length 0#64, 0#64)).2.toNat ≤ 1) ∧
      ∀ x y z carry : Limb,
        x.toNat + y.toNat * z.toNat + carry.toNat < 2 ^ 128 ∧ x.toNat + y.toNat + z.toNat < 2 ^ 128 := by
  have hawidth : value (a.take n.length) < (2 ^ 64) ^ n.length := by
    have h := value_lt (a.take n.length)
    rwa [length_take_of_le ha] at h
  have hbwidth : value (b.take n.length) < (2 ^ 64) ^ n.length := by
    have h := value_lt (b.take n.length)
    rwa [length_take_of_le hb] at h
  have hproduct : value (a.take n.length) * value (b.take n.length) ≤ (2 ^ 64) ^ n.length * value n := by
    rcases hab with hlt | hlt
    · rw [mul_comm]
      exact Nat.mul_le_mul hbwidth.le hlt.le
    · exact Nat.mul_le_mul hawidth.le hlt.le
  have h := isMontProduct_montMulKernel hnp ha hb hproduct (by omega)
  refine ⟨h.length,h.lt,fun y hy => ?_,fun k => ?_,u128_sum_lt⟩
  · rw [pow_mul,mul_comm]
    exact h.eq_iff hodd hy
  · refine mulRows_top_le_one hnp (by omega) ?_ (length_take_of_le ha)
    exact (length_take_le' _ _).trans (length_take_le _ _)

/-- The modulus `2 ^ 128 + 3` in three limbs, and a first factor above it. -/
theorem montMulKernel_correct_three :
    let n := [3#64, 0#64, 1#64]
    let a := [5#64, 0x8000000000000000#64, 7#64]
    let b := [9#64, 1#64, 0#64]
    value n < value a ∧
      value [0x2aaaaaaaaaaaaab1#64, 0x2aaaaaaaaaaaaa99#64, 0#64] = value (montMulKernel n 0x5555555555555555#64 a b) := by
  intro n a b
  obtain ⟨-,-,hvalue,-⟩ := @montMulKernel_correct n a 0x5555555555555555#64 b (by decide) (by decide) (by decide)
    (by decide) (.inr (by decide))
  exact ⟨by decide,(hvalue _ (by decide)).mp (by decide)⟩
end Product
end PureCrypto.Bignum
