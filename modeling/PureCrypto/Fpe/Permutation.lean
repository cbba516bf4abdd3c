import PureCrypto.Framework.Trace
import PureCrypto.Bignum.Arithmetic
import PureCrypto.Fpe.Ff1

/-! # FF1 is a permutation -/
namespace PureCrypto.Fpe
open Bignum Limbs List
open ByteArrays (beBytes)
open BoxedUint (toBeBytes_spec toNat_add toNat_fromLimbs toNat_sub)
open Nat (mod_eq_of_lt mod_lt)
def numeral (radix : Nat) (digits : List UInt16) : Nat :=
  Nat.ofDigits radix (digits.reverse.map UInt16.toNat)

@[simp] theorem numeral_nil (radix : Nat) : numeral radix [] = 0 := rfl

theorem numeral_concat (radix : Nat) (digits : List UInt16) (d : UInt16) :
    numeral radix (digits ++ [d]) = d.toNat + radix * numeral radix digits := by
  simp [numeral,Nat.ofDigits_cons]
section Numeral
variable {radix : Nat} (hradix : 2 ≤ radix) {digits digits' : List UInt16}
include hradix
variable (hdigits : ∀ d ∈ digits, d.toNat < radix)
include hdigits
theorem numeral_lt : numeral radix digits < radix ^ digits.length := by
  have h := Nat.ofDigits_lt_base_pow_length (l := digits.reverse.map UInt16.toNat)
    (show 1 < radix by omega) (by simpa using hdigits)
  rwa [length_map,length_reverse] at h

theorem numeral_inj (hdigits' : ∀ d ∈ digits', d.toNat < radix)
    (hlength : digits.length = digits'.length) (h : numeral radix digits = numeral radix digits') :
    digits = digits' := by
  have hmap := Nat.ofDigits_inj_of_len_eq (show 1 < radix by omega) (by simpa using hlength)
    (by simpa using hdigits) (by simpa using hdigits') h
  have hinj : Function.Injective UInt16.toNat := fun _ _ => UInt16.toNat_inj.mp
  exact reverse_injective (map_injective_iff.mpr hinj hmap)
end Numeral
theorem value_mulAddLoop {m : Nat} (hm : m < 2 ^ 64) (limbs : List Limb) {carry : Nat}
    (hcarry : carry < 2 ^ 64) : value (mulAddLoop m limbs carry) = value limbs * m + carry := by
  induction limbs generalizing carry with
  | nil =>
    unfold mulAddLoop
    split_ifs with hzero
    · rw [value_cons,BitVec.toNat_ofNat,mod_eq_of_lt hcarry]
      simp
    · simpa using (not_not.mp hzero).symm
  | cons l ls ih =>
    have hprod : l.toNat * m ≤ (2 ^ 64 - 1) * (2 ^ 64 - 1) :=
      Nat.mul_le_mul (Nat.le_sub_one_of_lt l.isLt) (Nat.le_sub_one_of_lt hm)
    have hnext : (l.toNat * m + carry) >>> 64 < 2 ^ 64 := by
      omega
    rw [mulAddLoop,value_cons,ih hnext,value_cons,BitVec.toNat_ofNat,add_mul,mul_assoc (2 ^ 64)]
    omega

theorem divremSmall_spec {d : Nat} (hpos : 0 < d) (limbs : List Limb) :
    value (divremSmall d limbs).1 = value limbs / d ∧ (divremSmall d limbs).2 = value limbs % d := by
  induction limbs with
  | nil => simp [divremSmall]
  | cons l ls ih =>
    obtain ⟨hquot,hrem⟩ := ih
    have hl := l.isLt
    have hlt : (divremSmall d ls).2 < d := hrem ▸ mod_lt _ hpos
    have ht : (divremSmall d ls).2 <<< 64 ||| l.toNat = (divremSmall d ls).2 * 2 ^ 64 + l.toNat := by
      rw [← Nat.shiftLeft_add_eq_or_of_lt hl,Nat.shiftLeft_eq]
    have hfits : ((divremSmall d ls).2 * 2 ^ 64 + l.toNat) / d < 2 ^ 64 := by
      rw [Nat.div_lt_iff_lt_mul hpos]
      calc (divremSmall d ls).2 * 2 ^ 64 + l.toNat
          < (divremSmall d ls).2 * 2 ^ 64 + 1 * 2 ^ 64 := by omega
        _ = ((divremSmall d ls).2 + 1) * 2 ^ 64 := by ring
        _ ≤ d * 2 ^ 64 := Nat.mul_le_mul_right _ hlt
        _ = 2 ^ 64 * d := mul_comm _ _
    -- the dividend is that of the higher limbs with the remainder brought down
    have hsplit : value (l :: ls) =
        (divremSmall d ls).2 * 2 ^ 64 + l.toNat + d * (2 ^ 64 * value (divremSmall d ls).1) := by
      have hdiv := Nat.div_add_mod (value ls) d
      rw [← hquot,← hrem] at hdiv
      rw [value_cons]
      conv_lhs => rw [← hdiv]
      ring
    rw [divremSmall]
    dsimp only
    rw [ht,value_cons,BitVec.toNat_ofNat,mod_eq_of_lt hfits,hsplit,
      Nat.add_mul_div_left _ _ hpos,Nat.add_mul_mod_self_left]
    exact ⟨rfl,rfl⟩
variable {radix : Nat}
theorem strDigits_spec (hpos : 0 < radix) (hradix : radix ≤ 65536) (m : Nat) (limbs : List Limb) :
    (strDigits radix m limbs).length = m ∧ (∀ d ∈ strDigits radix m limbs, d.toNat < radix) ∧
      numeral radix (strDigits radix m limbs) = value limbs % radix ^ m := by
  induction m generalizing limbs with
  | zero => simp [strDigits,Nat.mod_one]
  | succ m ih =>
    obtain ⟨hquot,hrem⟩ := divremSmall_spec hpos limbs
    obtain ⟨hlength,hdigits,hvalue⟩ := ih (divremSmall radix limbs).1
    have hlt : (divremSmall radix limbs).2 < radix := hrem ▸ mod_lt _ hpos
    have hlast : (UInt16.ofNat (divremSmall radix limbs).2).toNat = (divremSmall radix limbs).2 := by
      exact mod_eq_of_lt (by omega)
    rw [strDigits]
    refine ⟨by simp [hlength],?_,?_⟩
    · exact List.forall_mem_append.mpr ⟨hdigits,List.forall_mem_singleton.mpr (by rwa [hlast])⟩
    · rw [numeral_concat,hlast,hvalue,hquot,hrem,pow_succ',Nat.mod_mul]

theorem strRadix_spec (hpos : 0 < radix) (hradix : radix ≤ 65536) (m : Nat) (x : BoxedUint) :
    (strRadix x m radix).length = m ∧ (∀ d ∈ strRadix x m radix, d.toNat < radix) ∧
      numeral radix (strRadix x m radix) = x.toNat % radix ^ m :=
  strDigits_spec hpos hradix m x.limbs

theorem toNat_numRadix (hradix : radix ≤ 65536) (digits : List UInt16) :
    (numRadix digits radix).toNat = numeral radix digits := by
  rw [numRadix,toNat_fromLimbs]
  induction digits using List.reverseRecOn with
  | nil => simp
  | append_singleton digits d ih =>
    have hd := d.toNat_lt
    rw [foldl_append,foldl_cons,foldl_nil,mulAddSmall,
      value_mulAddLoop (by omega) _ (by omega),ih,numeral_concat,add_comm,mul_comm]

theorem toNat_radixPow (hradix : radix ≤ 65536) (m : Nat) : (radixPow radix m).toNat = radix ^ m := by
  rw [radixPow,toNat_fromLimbs]
  induction m with
  | zero => simp
  | succ m ih =>
    rw [List.range_succ,foldl_append,foldl_cons,foldl_nil,mulAddSmall,
      value_mulAddLoop (by omega) _ (by omega),ih,add_zero,pow_succ]
namespace Ff1
variable (f : Ff1) (tweak : List UInt8) (n : Nat)
def halfLen (k : Nat) : Nat := if k % 2 = 0 then lenU n else lenV n

def roundNat (k x : Nat) : Nat := (f.roundY tweak n k (beBytes (f.blen n) x)).toNat
def encStage (k : Nat) (s : Nat × Nat) : Nat × Nat :=
  (s.2, (s.1 + f.roundNat tweak n k s.2) % f.radix ^ halfLen n k)
def decStage (k : Nat) (s : Nat × Nat) : Nat × Nat :=
  ((s.2 + f.radix ^ halfLen n k - f.roundNat tweak n k s.1 % f.radix ^ halfLen n k) %
    f.radix ^ halfLen n k, s.1)

/-- The halves are below the powers of the radix for their lengths before round `k`. -/
def InRange (k : Nat) (s : Nat × Nat) : Prop :=
  s.1 < f.radix ^ halfLen n k ∧ s.2 < f.radix ^ halfLen n (k + 1)

theorem halfLen_add_two (k : Nat) : halfLen n (k + 2) = halfLen n k := by
  rw [halfLen,halfLen,Nat.add_mod_right]

theorem pow_halfLen_pos (k : Nat) : 0 < f.radix ^ halfLen n k :=
  Nat.pow_pos (by have := f.two_le_radix; omega)
variable {x y m k radix minDomain : Nat} {a b : BoxedUint}
private theorem sub_after_add (hx : x < m) : ((x + y) % m + m - y % m) % m = x := by
  have hy := mod_lt y (show 0 < m by omega)
  refine Nat.mod_eq_of_modEq (Nat.ModEq.add_right_cancel' (y % m) ?_) hx
  rw [Nat.sub_add_cancel (by omega),Nat.ModEq,Nat.add_mod_right,Nat.mod_mod,Nat.add_mod_mod]

private theorem add_after_sub (hx : x < m) : ((x + m - y % m) % m + y) % m = x := by
  have hy := mod_lt y (show 0 < m by omega)
  rw [Nat.mod_add_mod,← Nat.add_mod_mod,show x + m - y % m + y % m = x + m by omega,Nat.add_mod_right,mod_eq_of_lt hx]

theorem stages : Reversible.Stages (f.encStage tweak n) (f.decStage tweak n) (f.InRange n) where
  enc_mem := by
    rintro k ⟨x,y⟩ ⟨-,hy⟩
    refine ⟨hy,?_⟩
    rw [halfLen_add_two]
    exact mod_lt _ (f.pow_halfLen_pos n k)
  dec_mem := by
    rintro k ⟨x,y⟩ ⟨hx,-⟩
    exact ⟨mod_lt _ (f.pow_halfLen_pos n k),hx⟩
  dec_enc := by
    rintro k ⟨x,y⟩ ⟨hx,-⟩
    simp only [encStage,decStage,sub_after_add hx]
  enc_dec := by
    rintro k ⟨x,y⟩ ⟨-,hy⟩
    rw [halfLen_add_two] at hy
    simp only [encStage,decStage,add_after_sub hy]

theorem toNat_modulus (k : Nat) : (f.modulus n k).toNat = f.radix ^ halfLen n k := by
  unfold modulus halfLen
  split_ifs
  · exact toNat_radixPow f.radix_le _
  · exact toNat_radixPow f.radix_le _

theorem lt_blen (hx : x < f.radix ^ halfLen n k) : x < 256 ^ f.blen n := by
  have hmodV : (f.modV n).toNat = f.radix ^ lenV n := toNat_radixPow f.radix_le _
  have hpos : 0 < f.radix ^ lenV n := Nat.pow_pos (by have := f.two_le_radix; omega)
  have hone : (BoxedUint.fromU64 1#64).toNat = 1 := by simp
  have hbits := Nat.lt_size_self ((f.modV n).sub (.fromU64 1#64)).toNat
  rw [← BoxedUint.bitLen_eq,toNat_sub (by omega)] at hbits
  have hshort : f.radix ^ halfLen n k ≤ f.radix ^ lenV n := by
    refine Nat.pow_le_pow_right (by have := f.two_le_radix; omega) ?_
    unfold halfLen lenV lenU
    split_ifs <;> omega
  have hbytes : 2 ^ ((f.modV n).sub (.fromU64 1#64)).bitLen ≤ 256 ^ f.blen n := by
    rw [show 256 = 2 ^ 8 from rfl,← pow_mul]
    refine Nat.pow_le_pow_right (by omega) ?_
    unfold blen
    omega
  omega

def nums (s : BoxedUint × BoxedUint) : Nat × Nat := (s.1.toNat, s.2.toNat)

theorem encryptRound_spec (h : f.InRange n k (nums (a, b))) :
    ∃ s, f.encryptRound tweak n k a b = some s ∧ nums s = f.encStage tweak n k (nums (a, b)) := by
  obtain ⟨c,hc,hval⟩ := (a.add (f.roundY tweak n k (beBytes (f.blen n) b.toNat))).reduce_spec
    (f.toNat_modulus n k ▸ f.pow_halfLen_pos n k)
  refine ⟨(b, c),?_,?_⟩
  · exact Option.bind_eq_some_iff.mpr ⟨_,toBeBytes_spec (f.lt_blen n h.2),Option.bind_eq_some_iff.mpr ⟨c,hc,rfl⟩⟩
  · rw [nums,hval,f.toNat_modulus,toNat_add]
    rfl

theorem decryptRound_spec (h : f.InRange n (k + 1) (nums (a, b))) :
    ∃ s, f.decryptRound tweak n k a b = some s ∧ nums s = f.decStage tweak n k (nums (a, b)) := by
  have hpos := f.toNat_modulus n k ▸ f.pow_halfLen_pos n k
  obtain ⟨y,hy,hynum⟩ := (f.roundY tweak n k (beBytes (f.blen n) a.toNat)).reduce_spec hpos
  obtain ⟨c,hc,hcnum⟩ := ((b.add (f.modulus n k)).sub y).reduce_spec hpos
  have hle : y.toNat ≤ (b.add (f.modulus n k)).toNat := by
    have hlt := mod_lt (f.roundY tweak n k (beBytes (f.blen n) a.toNat)).toNat hpos
    rw [toNat_add]
    omega
  refine ⟨(c, a),?_,?_⟩
  · exact Option.bind_eq_some_iff.mpr ⟨_,toBeBytes_spec (f.lt_blen n h.1),
      Option.bind_eq_some_iff.mpr ⟨y,hy,Option.bind_eq_some_iff.mpr ⟨c,hc,rfl⟩⟩⟩
  · rw [nums,hcnum,toNat_sub hle,toNat_add,hynum,f.toNat_modulus]
    rfl

theorem run_forward (h : f.InRange n 0 (nums (a, b))) (k : Nat) : ∃ s, f.run tweak n true a b k = some s ∧
      nums s = Reversible.forward (f.encStage tweak n) k (nums (a, b)) ∧ f.InRange n k (nums s) := by
  induction k with
  | zero => exact ⟨(a, b),rfl,rfl,h⟩
  | succ k ih =>
    obtain ⟨⟨a',b'⟩,hrun,hnums,hrange⟩ := ih
    obtain ⟨s,hs,hstage⟩ := f.encryptRound_spec tweak n hrange
    refine ⟨s,?_,?_,?_⟩
    · rw [run,hrun]
      exact hs
    · rw [hstage,hnums,Reversible.forward]
    · rw [hstage]
      exact (f.stages tweak n).enc_mem k _ hrange

theorem run_backward (h : f.InRange n rounds (nums (a, b))) (hk : k ≤ rounds) :
    ∃ s, f.run tweak n false a b k = some s ∧ Reversible.backward (f.decStage tweak n) (rounds - k) (nums s) =
        Reversible.backward (f.decStage tweak n) rounds (nums (a, b)) ∧ f.InRange n (rounds - k) (nums s) := by
  induction k with
  | zero => exact ⟨(a, b),rfl,rfl,h⟩
  | succ k ih =>
    obtain ⟨⟨a',b'⟩,hrun,hnums,hrange⟩ := ih (by omega)
    obtain ⟨j,hj⟩ : ∃ j, rounds - k = j + 1 := ⟨rounds - k - 1,by omega⟩
    have hlast : rounds - 1 - k = j := by omega
    have hnext : rounds - (k + 1) = j := by omega
    rw [hj] at hnums hrange
    obtain ⟨s,hs,hstage⟩ := f.decryptRound_spec tweak n hrange
    rw [hnext]
    refine ⟨s,?_,?_,?_⟩
    · rw [run,hrun,hlast]
      exact hs
    · rw [hstage,← hnums,Reversible.backward]
    · rw [hstage]
      exact (f.stages tweak n).dec_mem j _ hrange

/-- What the cipher takes: a tweak and digits of admissible length, each below the radix. -/
structure Admissible (digits : List UInt16) : Prop where
  tweak_lt : tweak.length < 2 ^ 32
  minLen_le : f.minLen ≤ digits.length
  length_lt : digits.length < 2 ^ 32
  digit_lt : ∀ d ∈ digits, d.toNat < f.radix

def halves (digits : List UInt16) : Nat × Nat :=
  (numeral f.radix (digits.take (lenU digits.length)),
    numeral f.radix (digits.drop (lenU digits.length)))

def mix (forward : Bool) (s : Nat × Nat) : Nat × Nat :=
  if forward then Reversible.forward (f.encStage tweak n) rounds s
  else Reversible.backward (f.decStage tweak n) rounds s
variable {f tweak n} {digits digits' : List UInt16}
section
variable (h : f.Admissible tweak digits)
include h
theorem Admissible.inRange : f.InRange digits.length 0 (f.halves digits) := by
  have hu : (f.halves digits).1 < f.radix ^ (digits.take (lenU digits.length)).length :=
    numeral_lt f.two_le_radix fun d hd => h.digit_lt d (mem_of_mem_take hd)
  have hv : (f.halves digits).2 < f.radix ^ (digits.drop (lenU digits.length)).length :=
    numeral_lt f.two_le_radix fun d hd => h.digit_lt d (mem_of_mem_drop hd)
  have hle : lenU digits.length ≤ digits.length := Nat.div_le_self _ _
  rw [length_take,min_eq_left hle] at hu
  rw [length_drop] at hv
  exact ⟨hu,hv⟩

theorem halves_inj (h' : f.Admissible tweak digits')
    (hlength : digits.length = digits'.length) (heq : f.halves digits = f.halves digits') : digits = digits' := by
  unfold halves at heq
  rw [hlength] at heq
  obtain ⟨hu,hv⟩ := Prod.mk.inj heq
  have htake : digits.take (lenU digits'.length) = digits'.take (lenU digits'.length) := by
    refine numeral_inj f.two_le_radix (fun d hd => h.digit_lt d (mem_of_mem_take hd))
      (fun d hd => h'.digit_lt d (mem_of_mem_take hd)) ?_ hu
    rw [length_take,length_take,hlength]
  have hdrop : digits.drop (lenU digits'.length) = digits'.drop (lenU digits'.length) := by
    refine numeral_inj f.two_le_radix (fun d hd => h.digit_lt d (mem_of_mem_drop hd))
      (fun d hd => h'.digit_lt d (mem_of_mem_drop hd)) ?_ hv
    rw [length_drop,length_drop,hlength]
  calc digits = digits.take (lenU digits'.length) ++ digits.drop (lenU digits'.length) :=
        (take_append_drop _ _).symm
    _ = digits'.take (lenU digits'.length) ++ digits'.drop (lenU digits'.length) := by rw [htake,hdrop]
    _ = digits' := take_append_drop _ _
variable (forward : Bool)
theorem run_spec (hk : k ≤ rounds) :
    ∃ s, f.run tweak digits.length forward (numRadix (digits.take (lenU digits.length)) f.radix)
        (numRadix (digits.drop (lenU digits.length)) f.radix) k = some s ∧
      f.InRange digits.length (if forward then k else rounds - k) (nums s) ∧
      (k = rounds → nums s = f.mix tweak digits.length forward (f.halves digits)) := by
  have hnums : nums (numRadix (digits.take (lenU digits.length)) f.radix,
      numRadix (digits.drop (lenU digits.length)) f.radix) = f.halves digits := by
    rw [nums,toNat_numRadix f.radix_le,toNat_numRadix f.radix_le,halves]
  have hrange := h.inRange
  rw [← hnums] at hrange ⊢
  cases forward with
  | true =>
    obtain ⟨s,hs,hmix,hin⟩ := f.run_forward tweak digits.length hrange k
    exact ⟨s,hs,hin,fun heq => by rw [hmix,heq]; rfl⟩
  | false =>
    -- ten rounds are an even number, so the ranges are those of the start
    obtain ⟨s,hs,hmix,hin⟩ := f.run_backward tweak digits.length hrange hk
    refine ⟨s,hs,hin,fun heq => ?_⟩
    rw [heq] at hmix
    exact hmix

theorem feistel_spec : ∃ out, f.feistel tweak digits forward = some (.ok out) ∧ f.Admissible tweak out ∧
      out.length = digits.length ∧ f.halves out = f.mix tweak digits.length forward (f.halves digits) := by
  obtain ⟨⟨a,b⟩,hrun,hrange,hmix⟩ := run_spec h forward le_rfl
  have hpos : 0 < f.radix := by have := f.two_le_radix; omega
  obtain ⟨hlenU,hdigitU,hnumU⟩ := strRadix_spec hpos f.radix_le (lenU digits.length) a
  obtain ⟨hlenV,hdigitV,hnumV⟩ := strRadix_spec hpos f.radix_le (lenV digits.length) b
  have hends : a.toNat < f.radix ^ lenU digits.length ∧ b.toNat < f.radix ^ lenV digits.length := by
    cases forward with
    | true => exact hrange
    | false => exact hrange
  have hlength : (strRadix a (lenU digits.length) f.radix ++
      strRadix b (lenV digits.length) f.radix).length = digits.length := by
    rw [length_append,hlenU,hlenV,lenV,lenU]
    omega
  refine ⟨strRadix a (lenU digits.length) f.radix ++ strRadix b (lenV digits.length) f.radix,
    ?_,⟨h.tweak_lt,h.minLen_le.trans_eq hlength.symm,hlength.trans_lt h.length_lt,?_⟩,hlength,?_⟩
  · have hdigits : ¬ (digits.any fun d => decide (f.radix ≤ d.toNat)) = true := by
      simpa using h.digit_lt
    unfold feistel
    rw [if_neg (by have := h.minLen_le; have := h.length_lt; omega),
      if_neg (by have := h.tweak_lt; omega),if_neg hdigits]
    exact Option.bind_eq_some_iff.mpr ⟨(a, b),hrun,rfl⟩
  · exact List.forall_mem_append.mpr ⟨hdigitU,hdigitV⟩
  · rw [halves,hlength,take_left' hlenU,drop_left' hlenU,hnumU,hnumV,mod_eq_of_lt hends.1,mod_eq_of_lt hends.2]
    exact hmix rfl

theorem mix_mix : f.mix tweak digits.length (!forward) (f.mix tweak digits.length forward (f.halves digits)) =
      f.halves digits := by
  cases forward with
  | true => exact (f.stages tweak digits.length).backward_forward rounds h.inRange
  | false => exact (f.stages tweak digits.length).forward_backward rounds h.inRange

theorem feistel_feistel : ∃ out, f.feistel tweak digits forward = some (.ok out) ∧ f.Admissible tweak out ∧
      out.length = digits.length ∧ f.feistel tweak out (!forward) = some (.ok digits) := by
  obtain ⟨out,hout,hadmissible,hlength,hhalves⟩ := feistel_spec h forward
  obtain ⟨back,hback,hadmissible',hlength',hhalves'⟩ := feistel_spec hadmissible (!forward)
  rw [hlength,hhalves,mix_mix h forward] at hhalves'
  rw [halves_inj hadmissible' h (hlength'.trans hlength) hhalves'] at hback
  exact ⟨out,hout,hadmissible,hlength,hback⟩
end
/-- Encryption and decryption are inverse on the admissible strings, and no round panics. -/
theorem encrypt_decrypt (f : Ff1) (tweak : List UInt8) (digits : List UInt16)
    (htweak : tweak.length < 2 ^ 32) (hmin : f.minLen ≤ digits.length)
    (hlength : digits.length < 2 ^ 32) (hdigits : ∀ d ∈ digits, d.toNat < f.radix) :
    (∃ c, f.encrypt tweak digits = some (.ok c) ∧ f.decrypt tweak c = some (.ok digits) ∧
      c.length = digits.length ∧ ∀ d ∈ c, d.toNat < f.radix) ∧
    (∃ p, f.decrypt tweak digits = some (.ok p) ∧ f.encrypt tweak p = some (.ok digits) ∧
      p.length = digits.length ∧ ∀ d ∈ p, d.toNat < f.radix) ∧
    ∀ forward, ∀ k ≤ rounds, ∃ a b,
      f.run tweak digits.length forward (numRadix (digits.take (lenU digits.length)) f.radix)
        (numRadix (digits.drop (lenU digits.length)) f.radix) k = some (a, b) ∧
      a.toNat < f.radix ^ (if k % 2 = 0 then lenU digits.length else lenV digits.length) ∧
      b.toNat < f.radix ^ (if k % 2 = 0 then lenV digits.length else lenU digits.length) ∧
      a.toNat < 256 ^ f.blen digits.length ∧ b.toNat < 256 ^ f.blen digits.length := by
  have h : f.Admissible tweak digits := ⟨htweak,hmin,hlength,hdigits⟩
  refine ⟨?_,?_,fun forward k hk => ?_⟩
  · obtain ⟨c,hc,hadmissible,hlen,hback⟩ := feistel_feistel h true
    exact ⟨c,hc,hback,hlen,hadmissible.digit_lt⟩
  · obtain ⟨p,hp,hadmissible,hlen,hback⟩ := feistel_feistel h false
    exact ⟨p,hp,hback,hlen,hadmissible.digit_lt⟩
  · obtain ⟨⟨a,b⟩,hrun,hrange,-⟩ := run_spec h forward hk
    have hparity : (if forward then k else rounds - k) % 2 = k % 2 := by
      cases forward with
      | true => rfl
      | false =>
        rw [if_neg Bool.false_ne_true,rounds] at *
        omega
    obtain ⟨ha,hb⟩ := hrange
    refine ⟨a,b,hrun,?_,?_,f.lt_blen _ ha,f.lt_blen _ hb⟩
    · rwa [halfLen,hparity] at ha
    · rw [halfLen,Nat.add_mod,hparity] at hb
      rcases Nat.mod_two_eq_zero_or_one k with heven | hodd
      · simpa [heven,nums] using hb
      · simpa [hodd,nums] using hb

/-- Decimal strings of six digits, with blocks turned around for a cipher. -/
theorem encrypt_decrypt_decimal :
    ∃ c, Ff1.encrypt ⟨List.reverse, 10, 6, by decide, by decide⟩ [7] [1, 2, 3, 4, 5, 6] = some (.ok c) ∧
      Ff1.decrypt ⟨List.reverse, 10, 6, by decide, by decide⟩ [7] c = some (.ok [1, 2, 3, 4, 5, 6]) ∧
      c.length = 6 ∧ ∀ d ∈ c, d.toNat < 10 :=
  (encrypt_decrypt ⟨List.reverse,10,6,by decide,by decide⟩ [7] [1, 2, 3, 4, 5, 6] (by decide)
    (by decide) (by decide) (by simp)).1
end Ff1
end PureCrypto.Fpe
