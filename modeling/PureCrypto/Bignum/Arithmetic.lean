import PureCrypto.Bignum.BoxedUint
import Mathlib.Data.Nat.Size

/-! # The numbers that the limbs compute -/
namespace PureCrypto.Bignum
open Limbs LittleEndian List
open BitVec (eq_of_toNat_eq toNat_and toNat_ofNat)
theorem adc_spec (a b c : Limb) (hc : c.toNat ≤ 1) :
    (adc a b c).1.toNat + 2 ^ 64 * (adc a b c).2.toNat = a.toNat + b.toNat + c.toNat ∧ (adc a b c).2.toNat ≤ 1 := by
  simp only [adc,toNat_ofNat,Nat.shiftRight_eq_div_pow]
  omega

theorem sbb_spec (a b c : Limb) (hc : c.toNat ≤ 1) :
    (sbb a b c).1.toNat + (b.toNat + c.toNat) = a.toNat + 2 ^ 64 * (sbb a b c).2.toNat ∧ (sbb a b c).2.toNat ≤ 1 := by
  simp only [sbb,toNat_ofNat,toNat_and,Nat.shiftRight_eq_div_pow,Nat.reducePow,Nat.reduceMod,Nat.and_one_is_mod]
  omega

theorem sbbLimbs_spec {as bs : List Limb} (hlength : as.length = bs.length) (c : Limb)
    (hc : c.toNat ≤ 1) : (sbbLimbs as bs c).1.length = as.length ∧ (sbbLimbs as bs c).2.toNat ≤ 1 ∧
      value (sbbLimbs as bs c).1 + (value bs + c.toNat) =
        value as + (2 ^ 64) ^ as.length * (sbbLimbs as bs c).2.toNat := by
  induction as generalizing bs c with
  | nil =>
    cases bs with
    | nil => simp [sbbLimbs,hc]
    | cons b bs => cases hlength
  | cons a as ih =>
    cases bs with
    | nil => cases hlength
    | cons b bs =>
      obtain ⟨hdigit,hborrow⟩ := sbb_spec a b c hc
      obtain ⟨hlen,hle,hrest⟩ := ih (Nat.succ.inj hlength) (sbb a b c).2 hborrow
      rw [sbbLimbs]
      refine ⟨by simp [hlen],hle,?_⟩
      rw [length_cons,pow_succ' (2 ^ 64) as.length,mul_assoc]
      simp only [value_cons]
      omega

theorem value_addLimbs (as bs : List Limb) (c : Limb) (hc : c.toNat ≤ 1) :
    value (BoxedUint.addLimbs as bs c) = value as + value bs + c.toNat := by
  fun_induction BoxedUint.addLimbs as bs c with
  | case1 c => simp
  | case2 a as c s c' hadc ih =>
    obtain ⟨hdigit,hcarry⟩ := adc_spec a 0#64 c hc
    rw [hadc] at hdigit hcarry
    rw [value_cons,ih hcarry,value_cons]
    simp only [toNat_ofNat,Nat.zero_mod,value_nil] at hdigit ⊢
    omega
  | case3 b bs c s c' hadc ih =>
    obtain ⟨hdigit,hcarry⟩ := adc_spec 0#64 b c hc
    rw [hadc] at hdigit hcarry
    rw [value_cons,ih hcarry,value_cons]
    simp only [toNat_ofNat,Nat.zero_mod,value_nil] at hdigit ⊢
    omega
  | case4 a as b bs c s c' hadc ih =>
    obtain ⟨hdigit,hcarry⟩ := adc_spec a b c hc
    rw [hadc] at hdigit hcarry
    rw [value_cons,value_cons,value_cons]
    dsimp only at hdigit
    omega

theorem assignLimbs_eq {dst src : List Limb} (hlength : dst.length = src.length) (choice : Bool) :
    assignLimbs dst src choice = if choice then src else dst := by
  induction dst generalizing src with
  | nil => simp [assignLimbs,length_eq_zero_iff.mp hlength.symm]
  | cons d ds ih =>
    cases src with
    | nil => cases hlength
    | cons s ss =>
      have hselect := Ct.conditionalSelect_eq s d choice
      rw [Ct.conditionalSelect,BitVec.xor_comm s d] at hselect
      have hrest := ih (Nat.succ.inj hlength)
      unfold assignLimbs at hrest ⊢
      rw [zipWith_cons_cons,hrest,hselect]
      cases choice <;> rfl

theorem shiftIn_spec (r : List Limb) (bit : Limb) (hbit : bit.toNat ≤ 1) :
    (shiftIn r bit).1.length = r.length ∧ (shiftIn r bit).2.toNat ≤ 1 ∧
      value (shiftIn r bit).1 + (2 ^ 64) ^ r.length * (shiftIn r bit).2.toNat = 2 * value r + bit.toNat := by
  induction r generalizing bit with
  | nil => simp [shiftIn,hbit]
  | cons w ws ih =>
    have hout : (w >>> 63).toNat = w.toNat / 2 ^ 63 := by
      rw [BitVec.toNat_ushiftRight,Nat.shiftRight_eq_div_pow]
    have hlow : (w <<< 1 ||| bit).toNat = 2 * w.toNat % 2 ^ 64 + bit.toNat := by
      rw [BitVec.toNat_or,BitVec.toNat_shiftLeft,Nat.shiftLeft_eq]
      have heven : w.toNat * 2 ^ 1 % 2 ^ 64 = (w.toNat % 2 ^ 63) <<< 1 := by
        omega
      rw [heven,← Nat.shiftLeft_add_eq_or_of_lt (by omega)]
      omega
    obtain ⟨hlen,hle,hrest⟩ := ih (w >>> 63) (by omega)
    rw [shiftIn]
    refine ⟨by simp [hlen],hle,?_⟩
    rw [length_cons,pow_succ' (2 ^ 64) ws.length,mul_assoc]
    simp only [value_cons,hlow]
    omega

theorem bit_cases {x : Limb} (hx : x.toNat ≤ 1) : x = 0#64 ∨ x = 1#64 := by
  rcases Nat.le_one_iff_eq_zero_or_eq_one.mp hx with h | h
  · exact .inl (eq_of_toNat_eq h)
  · exact .inr (eq_of_toNat_eq h)
section Divide
variable {n r : List Limb}
/-- The subtraction borrows from the bit that fell out of the shift, if there is one. -/
theorem divideBit_spec (hlength : r.length = n.length) (hr : value r < value n) {bit : Limb} (hbit : bit.toNat ≤ 1) :
    (divideBit n r bit).length = n.length ∧ value (divideBit n r bit) = (2 * value r + bit.toNat) % value n ∧
      divideFits n r bit = decide (value n ≤ 2 * value r + bit.toNat) := by
  obtain ⟨hshifted,hout,hshift⟩ := shiftIn_spec r bit hbit
  have hlen : (shiftIn r bit).1.length = n.length := hshifted.trans hlength
  obtain ⟨hscratch,hborrow,hsub⟩ := sbbLimbs_spec hlen 0#64 (Nat.zero_le _)
  have hbelow := value_lt (sbbLimbs (shiftIn r bit).1 n 0#64).1
  have hn := value_lt n
  rw [hscratch,hlen] at hbelow
  rw [hlen] at hsub
  rw [hlength] at hshift
  have heq : divideBit n r bit =
      if divideFits n r bit then (sbbLimbs (shiftIn r bit).1 n 0#64).1 else (shiftIn r bit).1 :=
    assignLimbs_eq hscratch.symm _
  have hfits : divideFits n r bit = decide (value n ≤ 2 * value r + bit.toNat) := by
    change ((shiftIn r bit).2 ||| ((sbbLimbs (shiftIn r bit).1 n 0#64).2 ^^^ 1#64) != 0#64) = _
    generalize (2 ^ 64) ^ n.length = width at *
    rcases bit_cases hout with hcarry | hcarry <;> rcases bit_cases hborrow with hborrow | hborrow <;>
      rw [hcarry] at hshift ⊢ <;> rw [hborrow] at hsub ⊢ <;> simp at hshift hsub ⊢ <;> omega
  rw [heq,hfits]
  generalize (2 ^ 64) ^ n.length = width at *
  by_cases hle : value n ≤ 2 * value r + bit.toNat
  · rw [decide_eq_true hle,if_pos rfl]
    refine ⟨hscratch.trans hlen,?_,rfl⟩
    have hsum : value (sbbLimbs (shiftIn r bit).1 n 0#64).1 + value n = 2 * value r + bit.toNat := by
      rcases bit_cases hout with hcarry | hcarry <;> rcases bit_cases hborrow with hborrow | hborrow <;>
        rw [hcarry] at hshift <;> rw [hborrow] at hsub <;> simp at hshift hsub <;> omega
    rw [← hsum,Nat.add_mod_right,Nat.mod_eq_of_lt (by omega)]
  · rw [decide_eq_false hle,if_neg (by simp)]
    refine ⟨hlen,?_,rfl⟩
    rw [Nat.mod_eq_of_lt (by omega)]
    rcases bit_cases hout with hcarry | hcarry <;> rw [hcarry] at hshift <;> simp at hshift <;> omega

/-- The remainder of the number read so far. -/
def IsRemainder (n : List Limb) (a : Nat) (r : List Limb) : Prop := r.length = n.length ∧ value r = a % value n

theorem toNat_bit (x : Limb) (k : Nat) : (x >>> k &&& 1#64).toNat = x.toNat / 2 ^ k % 2 := by
  rw [toNat_and,BitVec.toNat_ushiftRight,Nat.shiftRight_eq_div_pow]
  exact Nat.and_one_is_mod _

theorem IsRemainder.next {a : Nat} (h : IsRemainder n a r) (hpos : 0 < value n) (x : Limb) (k : Nat) :
    IsRemainder n (2 * a + x.toNat / 2 ^ k % 2) (divideBit n r (x >>> k &&& 1#64)) := by
  have hbit := toNat_bit x k
  have hle : (x >>> k &&& 1#64).toNat ≤ 1 := by omega
  obtain ⟨hlen,hval,-⟩ := divideBit_spec h.1 (h.2 ▸ Nat.mod_lt a hpos) hle
  refine ⟨hlen,?_⟩
  rw [hval,hbit,h.2,Nat.add_mod,Nat.mul_mod_mod,← Nat.add_mod]

theorem divideLimbs_spec (xs : List Limb) (hlength : r.length = n.length) (hr : value r < value n) :
    (xs.reverse.foldl (divideLimb n) r).length = n.length ∧ value (xs.reverse.foldl (divideLimb n) r) =
        (value r * (2 ^ 64) ^ xs.length + value xs) % value n := by
  refine foldl_words (P := IsRemainder n) (fun {a r} x h => ?_) ⟨hlength,(Nat.mod_eq_of_lt hr).symm⟩ xs
  have hlimb := foldl_bits (P := fun _ => IsRemainder n) (fun h => h.next (by omega) x _) (k := 64) h
  rwa [Nat.mod_eq_of_lt x.isLt] at hlimb

/-- The limbs that are loaded at once are their own remainder. -/
private theorem preloaded_spec (x : List Limb) (hn : (2 ^ 64) ^ (n.length - 1) ≤ value n) {pre : Nat}
    (hpre : min x.length (n.length - 1) = pre) :
    let top := x.drop (x.length - pre)
    let low := x.take (x.length - pre)
    (top ++ List.replicate (n.length - pre) 0#64).length = n.length ∧
      value (top ++ List.replicate (n.length - pre) 0#64) = value top ∧ value top < value n ∧
      value top * (2 ^ 64) ^ low.length + value low = value x := by
  have hdrop : (x.drop (x.length - pre)).length = pre := by
    rw [length_drop]
    omega
  refine ⟨?_,value_append_zeros _ _,?_,?_⟩
  · rw [length_append,length_replicate]
    omega
  · refine lt_of_lt_of_le (value_lt _) (le_trans ?_ hn)
    exact Nat.pow_le_pow_right (by omega) (by omega)
  · conv_rhs => rw [← take_append_drop (x.length - pre) x,value_append]
    rw [add_comm,mul_comm (value _)]

theorem value_longDivide (x : List Limb) (hn : (2 ^ 64) ^ (n.length - 1) ≤ value n) :
    value (longDivide x n) = value x % value n := by
  unfold longDivide
  generalize hpre : min x.length (n.length - 1) = pre
  obtain ⟨hlen,hvalue,hsmall,htotal⟩ := preloaded_spec x hn hpre
  obtain ⟨-,hval⟩ := divideLimbs_spec (x.take (x.length - pre)) hlen (by rw [hvalue]; exact hsmall)
  rw [hval,hvalue,htotal]
end Divide
namespace BoxedUint
section
variable (limbs : List Limb)
@[simp] theorem toNat_fromLimbs : (fromLimbs limbs).toNat = value limbs := by
  unfold fromLimbs toNat
  split_ifs with h
  · simp [h]
  · rfl

@[simp] theorem toNat_fromU64 (v : Limb) : (fromU64 v).toNat = v.toNat := by
  simp [fromU64,toNat]
@[simp] theorem toNat_add (x y : BoxedUint) : (x.add y).toNat = x.toNat + y.toNat := by
  rw [add,toNat_fromLimbs,value_addLimbs _ _ _ (Nat.zero_le _)]
  rfl

theorem limbsAt_spec (x : BoxedUint) {n : Nat} (hn : x.limbs.length ≤ n) :
    (x.limbsAt n).length = n ∧ value (x.limbsAt n) = x.toNat := by
  rw [limbsAt,take_of_length_le hn]
  refine ⟨?_,value_append_zeros _ _⟩
  rw [length_append,length_replicate]
  omega

theorem toNat_sub {x y : BoxedUint} (h : y.toNat ≤ x.toNat) : (x.sub y).toNat = x.toNat - y.toNat := by
  rw [sub,toNat_fromLimbs]
  generalize hn : max x.limbs.length y.limbs.length = n
  obtain ⟨hxlen,hx⟩ := x.limbsAt_spec (show x.limbs.length ≤ n by omega)
  obtain ⟨hylen,hy⟩ := y.limbsAt_spec (show y.limbs.length ≤ n by omega)
  obtain ⟨hlen,hborrow,hsub⟩ := sbbLimbs_spec (hxlen.trans hylen.symm) 0#64 (Nat.zero_le _)
  have hbelow := value_lt (sbbLimbs (x.limbsAt n) (y.limbsAt n) 0#64).1
  rw [hlen,hxlen] at hbelow
  rw [hxlen] at hsub
  generalize (2 ^ 64) ^ n = width at *
  rcases bit_cases hborrow with hfits | hfits <;> rw [hfits] at hsub
  · simp only [toNat_ofNat,Nat.zero_mod,mul_zero,add_zero] at hsub
    omega
  · simp only [toNat_ofNat,Nat.reducePow,Nat.reduceMod,mul_one] at hsub
    omega

theorem value_take_succ {limbs : List Limb} {i : Nat} {limb : Limb} (h : limbs[i]? = some limb) :
    value (limbs.take (i + 1)) = value (limbs.take i) + (2 ^ 64) ^ i * limb.toNat := by
  have hi := (List.getElem?_eq_some_iff.mp h).1
  rw [take_add_one,h,value_append,length_take,min_eq_left hi.le]
  simp

theorem significantFrom_spec {n : Nat} (hn : n ≤ limbs.length) :
    significantFrom limbs n ≤ n ∧ (0 < n → 0 < significantFrom limbs n) ∧
      value (limbs.take (significantFrom limbs n)) = value (limbs.take n) ∧ (1 < significantFrom limbs n →
        (2 ^ 64) ^ (significantFrom limbs n - 1) ≤ value (limbs.take n)) := by
  fun_induction significantFrom limbs n with
  | case1 => simp
  | case2 => simp
  | case3 n hzero ih =>
    obtain ⟨hle,hpos,hvalue,htop⟩ := ih (by omega)
    have htake : value (limbs.take (n + 2)) = value (limbs.take (n + 1)) := by
      rw [value_take_succ hzero]
      simp
    rw [htake]
    exact ⟨by omega,fun _ => hpos (by omega),hvalue,htop⟩
  | case4 n hnonzero =>
    refine ⟨le_rfl,id,rfl,fun _ => ?_⟩
    have hget := getElem?_eq_getElem (show n + 1 < limbs.length by omega)
    have hlimb : 0 < (limbs[n + 1]).toNat := by
      refine pos_of_ne_zero fun h => hnonzero ?_
      rw [hget,eq_of_toNat_eq (y := 0#64) h]
    rw [value_take_succ hget]
    calc (2 ^ 64) ^ (n + 2 - 1) = (2 ^ 64) ^ (n + 1) * 1 := by rw [mul_one]; rfl
      _ ≤ (2 ^ 64) ^ (n + 1) * (limbs[n + 1]).toNat := Nat.mul_le_mul_left _ hlimb
      _ ≤ _ := Nat.le_add_left _ _

/-- The limbs without leading zeros. -/
theorem significantLimbs_spec (x : BoxedUint) (hpos : 0 < x.toNat) :
    0 < x.significantLimbs ∧ (x.limbsAt x.significantLimbs).length = x.significantLimbs ∧
      value (x.limbsAt x.significantLimbs) = x.toNat ∧ (2 ^ 64) ^ (x.significantLimbs - 1) ≤ x.toNat := by
  obtain ⟨hle,hs,hvalue,htop⟩ := significantFrom_spec x.limbs (le_refl _)
  change x.significantLimbs ≤ _ at hle
  rw [take_length] at hvalue htop
  have hlimbs : x.limbsAt x.significantLimbs = x.limbs.take x.significantLimbs := by
    rw [limbsAt,Nat.sub_eq_zero_of_le hle,replicate_zero,append_nil]
  refine ⟨hs (length_pos_iff.mpr x.ne_nil),by rw [hlimbs,length_take_of_le hle],by rw [hlimbs]; exact hvalue,?_⟩
  by_cases hone : 1 < x.significantLimbs
  · exact htop hone
  · rw [show x.significantLimbs - 1 = 0 by omega]
    exact hpos

theorem not_all_zero {d : BoxedUint} (h : 0 < d.toNat) : ¬ d.limbs.all (· == 0#64) = true := by
  intro hall
  have hzero := (value_eq_zero_iff d.limbs).mpr (by simpa using hall)
  unfold toNat at h
  omega

theorem reduce_spec (x : BoxedUint) {modulus : BoxedUint} (h : 0 < modulus.toNat) :
    ∃ r, x.reduce modulus = some r ∧ r.toNat = x.toNat % modulus.toNat := by
  obtain ⟨-,hlen,hvalue,htop⟩ := modulus.significantLimbs_spec h
  refine ⟨_,if_neg (not_all_zero h),?_⟩
  rw [toNat_fromLimbs,value_longDivide _ (by rwa [hlen,hvalue]),hvalue]
  rfl

/-- A limb that is not zero has the highest bit. -/
private theorem size_value_append (low : List Limb) {limb : Limb} (h : 0 < limb.toNat) :
    Nat.size (value low + (2 ^ 64) ^ low.length * limb.toNat) = 64 * low.length + Nat.size limb.toNat := by
  have hsize : 0 < Nat.size limb.toNat := Nat.size_pos.mpr h
  refine le_antisymm (Nat.size_le.mpr ?_) ?_
  · have hbelow := value_lt low
    rw [pow_add,pow_mul]
    calc value low + (2 ^ 64) ^ low.length * limb.toNat
        < (2 ^ 64) ^ low.length * 1 + (2 ^ 64) ^ low.length * limb.toNat := by omega
      _ = (2 ^ 64) ^ low.length * (limb.toNat + 1) := by ring
      _ ≤ (2 ^ 64) ^ low.length * 2 ^ Nat.size limb.toNat := Nat.mul_le_mul_left _ (Nat.lt_size_self _)
  · have htop : 2 ^ (Nat.size limb.toNat - 1) ≤ limb.toNat := Nat.lt_size.mp (by omega)
    have hlt : 64 * low.length + (Nat.size limb.toNat - 1) < Nat.size (value low + (2 ^ 64) ^ low.length * limb.toNat) := by
      rw [Nat.lt_size,pow_add,pow_mul]
      exact le_trans (Nat.mul_le_mul_left _ htop) (Nat.le_add_left _ _)
    omega

theorem bitLenFrom_eq (i : Nat) : bitLenFrom limbs i = Nat.size (value (limbs.take i)) := by
  induction i with
  | zero => simp [bitLenFrom]
  | succ i ih =>
    unfold bitLenFrom
    cases hget : limbs[i]? with
    | none =>
      have hle := List.getElem?_eq_none_iff.mp hget
      rw [take_of_length_le (by omega)]
      rwa [take_of_length_le hle] at ih
    | some limb =>
      have hlen : (limbs.take i).length = i := length_take_of_le (List.getElem?_eq_some_iff.mp hget).1.le
      have hsize : Nat.size limb.toNat ≤ 64 := Nat.size_le.mpr limb.isLt
      dsimp only
      rw [value_take_succ hget]
      split_ifs with hnonzero
      · have hlimb : 0 < limb.toNat := pos_of_ne_zero fun h => by
          simp [eq_of_toNat_eq (show limb.toNat = (0#64).toNat from h)] at hnonzero
        have htotal := size_value_append (limbs.take i) hlimb
        rw [hlen] at htotal
        rw [htotal,leadingZeros]
        omega
      · have hzero : limb = 0#64 := by simpa using hnonzero
        simpa [hzero] using ih

theorem bitLen_eq (x : BoxedUint) : x.bitLen = Nat.size x.toNat := by
  rw [bitLen,bitLenFrom_eq,take_length]
  rfl

theorem leNat_limbs : leNat (limbs.flatMap fun limb => leBytes 8 limb.toNat) = value limbs := by
  induction limbs with
  | nil => rfl
  | cons limb limbs ih =>
    rw [flatMap_cons,leNat_append,ih,leNat_leBytes,length_leBytes,value_cons,
      Nat.mod_eq_of_lt (show limb.toNat < 256 ^ 8 from limb.isLt),show 256 ^ 8 = 2 ^ 64 from rfl]
end
theorem toBeBytes_spec {x : BoxedUint} {len : Nat} (h : x.toNat < 256 ^ len) :
    x.toBeBytes len = some (leBytes len x.toNat).reverse := by
  have hbytes := leNat_limbs x.limbs
  have hfits : ¬ (((x.limbs.flatMap fun limb => leBytes 8 limb.toNat).drop len).any (· != 0)) = true := by
    intro hany
    have hzero : leNat ((x.limbs.flatMap fun limb => leBytes 8 limb.toNat).drop len) = 0 := by
      rw [← leNat_div,hbytes]
      exact Nat.div_eq_of_lt h
    rw [leNat_eq_zero_iff] at hzero
    obtain ⟨b,hb,hne⟩ := List.any_eq_true.mp hany
    rw [hzero b hb] at hne
    cases hne
  unfold toBeBytes
  rw [if_neg hfits]
  refine congrArg (fun l => some (List.reverse l)) (leNat_inj ?_ ?_)
  · rw [length_append,length_take,length_replicate,length_leBytes]
    omega
  · rw [leNat_append,leNat_replicate_zero,mul_zero,← leNat_mod,hbytes,leNat_leBytes]
    rfl
end BoxedUint
end PureCrypto.Bignum
