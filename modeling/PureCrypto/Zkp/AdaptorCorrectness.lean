import PureCrypto.Framework.GroupSignatures
import PureCrypto.Framework.Trace
import PureCrypto.Zkp.Adaptor
import Mathlib.Algebra.Field.ZMod

/-! # Correctness of adaptor signatures -/
namespace PureCrypto.Zkp.Adaptor
open ByteArrays
open Scalar (toBytesBe fromBytesBeReduce fromBytesBe)
def flag (b : Bool) : UInt8 := if b then 1 else 0

theorem flag_or (g x : Bool) : flag g ||| flag x = flag (g || x) := by
  revert g x
  decide
theorem flag_and (e x : Bool) : flag e &&& flag x = flag (e && x) := by
  revert e x
  decide

private theorem toUInt8_and_one {v : UInt16} {b : Bool} (h : v.toNat % 2 = if b then 1 else 0) :
    (v &&& 1).toUInt8 = flag b := by
  apply UInt8.toNat_inj.mp
  rw [UInt16.toNat_toUInt8,UInt16.toNat_and,show (1 : UInt16).toNat = 1 from rfl,Nat.and_one_is_mod,h]
  cases b <;> rfl

theorem ctGtStep_eq (g e : Bool) (x y : UInt8) :
    ctGtStep (flag g, flag e) x y = (flag (g || (decide (y < x) && e)), flag (e && decide (x = y))) := by
  have hx := x.toNat_lt
  have hy := y.toNat_lt
  have hxor := (x ^^^ y).toNat_lt
  have hgt : (((y.toUInt16 - x.toUInt16) >>> 8) &&& 1).toUInt8 = flag (decide (y < x)) := by
    apply toUInt8_and_one
    rw [UInt16.toNat_shiftRight,Nat.shiftRight_eq_div_pow]
    simp only [UInt8.lt_iff_toNat_lt,decide_eq_true_eq]
    change (2 ^ 16 - x.toNat + y.toNat) % 2 ^ 16 / 2 ^ 8 % 2 = _
    split_ifs <;> omega
  have heq : ((((x ^^^ y).toUInt16 - 1) >>> 8) &&& 1).toUInt8 = flag (decide (x = y)) := by
    apply toUInt8_and_one
    rw [UInt16.toNat_shiftRight,Nat.shiftRight_eq_div_pow]
    simp only [decide_eq_true_eq]
    change (2 ^ 16 - 1 + (x ^^^ y).toNat) % 2 ^ 16 / 2 ^ 8 % 2 = _
    have hzero : x = y ↔ (x ^^^ y).toNat = 0 := by
      rw [← UInt8.xor_eq_zero_iff,← UInt8.toNat_inj]
      rfl
    rw [if_congr hzero rfl rfl]
    split_ifs <;> omega
  rw [ctGtStep]
  simp only [hgt,heq,flag_or,flag_and]

private theorem lt_of_digit_lt {a b x y m : Nat} (h : a < b) (hx : x < m) : a * m + x < b * m + y := by
  have hmul := Nat.mul_le_mul_right m (Nat.succ_le_of_lt h)
  rw [Nat.succ_mul] at hmul
  omega

theorem foldl_ctGtStep {xs ys : List UInt8} (h : xs.length = ys.length) (g e : Bool) :
    ((xs.zip ys).foldl (fun acc p => ctGtStep acc p.1 p.2) (flag g, flag e)).1 =
      flag (g || (e && decide (beNat ys < beNat xs))) := by
  induction xs generalizing ys g e with
  | nil =>
    cases ys with
    | nil => simp [beNat]
    | cons y ys => cases h
  | cons x xs ih =>
    cases ys with
    | nil => cases h
    | cons y ys =>
      have hlen : xs.length = ys.length := by simpa using h
      rw [List.zip_cons_cons,List.foldl_cons,ctGtStep_eq,ih hlen,beNat_cons,beNat_cons,← hlen]
      have hxs := beNat_lt xs
      have hys := beNat_lt ys
      rw [← hlen] at hys
      rcases lt_trichotomy x.toNat y.toNat with hlt | heq | hgt
      · have hne : x ≠ y := fun hxy => by simp [hxy] at hlt
        have hnot : ¬y < x := by rw [UInt8.lt_iff_toNat_lt]; omega
        simp [hne,hnot,(lt_of_digit_lt hlt hxs).not_gt]
      · obtain rfl : x = y := UInt8.toNat_inj.mp heq
        simp
      · have hne : x ≠ y := fun hxy => by simp [hxy] at hgt
        have hyes : y < x := UInt8.lt_iff_toNat_lt.mpr hgt
        simp [hne,hyes,lt_of_digit_lt hgt hys]

theorem ctGtMask_eq (a b : Vector UInt8 32) :
    ctGtMask a b = if beNat b.toList < beNat a.toList then 0xff else 0 := by
  have hfold := @foldl_ctGtStep a.toList b.toList (by simp) false true
  change -((a.toList.zip b.toList).foldl _ (flag false, flag true)).1 = _
  rw [hfold]
  by_cases h : beNat b.toList < beNat a.toList
  · simp only [h,decide_true,if_true]
    rfl
  · simp only [h,decide_false,if_false]
    rfl

theorem select_eq (c : Bool) (lo hi : Vector UInt8 32) :
    Vector.zipWith (fun lo hi => (lo &&& ~~~(if c then 0xff else 0)) ||| (hi &&& (if c then 0xff else 0))) lo hi =
      if c then hi else lo := by
  have hnot : ~~~(255 : UInt8) = 0 := rfl
  have hand : ∀ x : UInt8, x &&& 255 = x := fun x => UInt8.and_neg_one
  apply Vector.ext
  cases c with
  | true => simp [hnot,hand]
  | false => simp
section Layout
variable {q : Nat} {P : Type} [AddCommGroup P] (C : AffineCurve q P)
theorem toList_serialize (rPoint rA : P) (sA : ZMod q) (proof : Vector UInt8 32 × Vector UInt8 32) :
    (serialize C rPoint rA sA proof).toList = (C.toSec1Compressed rPoint).toList ++
      ((C.toSec1Compressed rA).toList ++ ((toBytesBe sA).toList ++ (proof.1.toList ++ proof.2.toList))) := by
  apply toList_arrayAt
  simp [adaptorSignatureLen]

theorem parse_serialize_eq [NeZero q] {rPoint rA : P} {sA : ZMod q} (hr : rPoint ≠ 0) (ha : rA ≠ 0) (hs : sA ≠ 0)
    (proof : Vector UInt8 32 × Vector UInt8 32) :
    parse C (serialize C rPoint rA sA proof) = .ok ⟨rPoint, rA, sA, proof⟩ := by
  have hfirst : arrayAt 33 (serialize C rPoint rA sA proof).toList 0 = C.toSec1Compressed rPoint := by
    rw [toList_serialize,arrayAt_append]
  have hsecond : arrayAt 33 (serialize C rPoint rA sA proof).toList 33 = C.toSec1Compressed rA := by
    rw [toList_serialize,arrayAt_behind (by simp)]
  have hthird : arrayAt 32 (serialize C rPoint rA sA proof).toList 66 = toBytesBe sA := by
    rw [toList_serialize,← List.append_assoc,arrayAt_behind (by simp)]
  have hfourth : arrayAt 32 (serialize C rPoint rA sA proof).toList 98 = proof.1 := by
    rw [toList_serialize,← List.append_assoc,← List.append_assoc,arrayAt_behind (by simp)]
  have hfifth : arrayAt 32 (serialize C rPoint rA sA proof).toList 130 = proof.2 := by
    rw [toList_serialize,← List.append_nil proof.2.toList,← List.append_assoc,← List.append_assoc,
      ← List.append_assoc,arrayAt_behind (by simp)]
  rw [parse,hfirst,hsecond,hthird,hfourth,hfifth,C.fromSec1_toSec1Compressed _ hr,
    C.fromSec1_toSec1Compressed _ ha,fromBytesBe_toBytesBe C.order_le]
  change (if sA = 0 then _ else _) = _
  rw [if_neg hs]
  rfl

theorem compact_halves (r s : Vector UInt8 32) :
    arrayAt 32 (compact r s).toList 0 = r ∧ arrayAt 32 (compact r s).toList 32 = s := by
  have hlist : (compact r s).toList = r.toList ++ s.toList := by
    apply toList_arrayAt
    simp
  rw [hlist,← List.append_nil s.toList]
  exact ⟨arrayAt_append r _,arrayAt_behind r.length_toList s []⟩
variable {sig : Vector UInt8 adaptorSignatureLen}
def challengeOf (sig : Vector UInt8 adaptorSignatureLen) : ZMod q :=
  fromBytesBeReduce (arrayAt 32 sig.toList 98)

def responseOf (sig : Vector UInt8 adaptorSignatureLen) : ZMod q :=
  fromBytesBeReduce (arrayAt 32 sig.toList 130)

theorem parse_eq_ok {p : Parsed q P} (h : parse C sig = .ok p) : (p.rPoint ≠ 0 ∧ p.sA ≠ 0) ∧
    fromBytesBeReduce p.proof.1 = (challengeOf sig : ZMod q) ∧
      fromBytesBeReduce p.proof.2 = (responseOf sig : ZMod q) := by
  rw [parse,bind_eq_ok] at h
  obtain ⟨rPoint,hr,h⟩ := h
  obtain ⟨rA,-,h⟩ := bind_eq_ok.mp h
  obtain ⟨sA,-,h⟩ := bind_eq_ok.mp h
  split_ifs at h with hs
  cases h
  exact ⟨⟨C.ne_zero_of_fromSec1 _ _ hr,hs⟩,rfl,rfl⟩
end Layout
theorem toAffine_eq_ok {P : Type} [AddCommGroup P] [DecidableEq P] {p p' : P} {e : Error} : toAffine p e = .ok p' ↔ p ≠ 0 ∧ p' = p := by
  rw [toAffine]
  split_ifs with h
  · simp [h]
  · simp [h,eq_comm]

theorem proofScalar_toBytesBe {q : Nat} [NeZero q] (hq : q ≤ 256 ^ 32) (s : ZMod q) :
    proofScalar (toBytesBe s) = .ok s := by
  rw [proofScalar,fromBytesBe_toBytesBe hq]
  rfl
variable {q : Nat} [Fact q.Prime] {P : Type} [AddCommGroup P] [DecidableEq P] [Module (ZMod q) P] {C : AffineCurve q P}
variable {aux : Option (Vector UInt8 32)} {msg32 : Vector UInt8 32}
  {enckey pubkey : Vector UInt8 33} {sig : Vector UInt8 adaptorSignatureLen}
theorem dleqVerify_of_dleqProve {k : ZMod q} {kBytes : Vector UInt8 32} {y : P}
    {proof : Vector UInt8 32 × Vector UInt8 32} (h : dleqProve C k kBytes (k • C.generator) y (k • y) aux = .ok proof)
    (hchallenge : (fromBytesBeReduce proof.1 : ZMod q) ≠ 0) (hresponse : (fromBytesBeReduce proof.2 : ZMod q) ≠ 0) :
    dleqVerify C (k • C.generator) y (k • y) proof = .ok () := by
  rw [dleqProve,bind_eq_ok] at h
  obtain ⟨a,-,h⟩ := h
  split_ifs at h
  obtain ⟨aG,haG,h⟩ := bind_eq_ok.mp h
  obtain ⟨aY,haY,h⟩ := bind_eq_ok.mp h
  obtain ⟨hG,rfl⟩ := toAffine_eq_ok.mp haG
  obtain ⟨hY,rfl⟩ := toAffine_eq_ok.mp haY
  generalize hb : dleqChallenge C (k • C.generator) y (k • y) (a • C.generator) (a • y) = b at h
  obtain rfl : (toBytesBe b, toBytesBe (a + b * k)) = proof := Except.ok.inj h
  rw [fromBytesBe_eq_ok (fromBytesBe_toBytesBe C.order_le _)] at hchallenge hresponse
  rw [dleqVerify,bind_eq_ok]
  refine ⟨b,proofScalar_toBytesBe C.order_le b,?_⟩
  rw [bind_eq_ok]
  refine ⟨a + b * k,proofScalar_toBytesBe C.order_le _,?_⟩
  rw [if_neg (by simp [hchallenge,hresponse]),Ecdsa.commitment_of_response,Ecdsa.commitment_of_response,bind_eq_ok]
  refine ⟨a • C.generator,toAffine_eq_ok.mpr ⟨hG,rfl⟩,?_⟩
  rw [bind_eq_ok]
  exact ⟨a • y,toAffine_eq_ok.mpr ⟨hY,rfl⟩,if_pos hb⟩

theorem verify_of_encrypt {seckey : Vector UInt8 32} {x : ZMod q}
    (hx : fromBytesBe seckey = .ok x) (h : encryptInner C seckey enckey msg32 aux = .ok sig)
    (hchallenge : (challengeOf sig : ZMod q) ≠ 0) (hresponse : (responseOf sig : ZMod q) ≠ 0) :
    verify C sig (C.toSec1Compressed (x • C.generator)) enckey msg32 = .ok () := by
  rw [encryptInner,hx] at h
  change (if x = 0 then _ else _) = _ at h
  by_cases hxzero : x = 0
  · rw [if_pos hxzero] at h
    cases h
  rw [if_neg hxzero,bind_eq_ok] at h
  obtain ⟨yPoint,hy,h⟩ := h
  obtain ⟨k,-,h⟩ := bind_eq_ok.mp h
  split_ifs at h with hk
  obtain ⟨rA,haffineA,h⟩ := bind_eq_ok.mp h
  obtain ⟨rPoint,haffine,h⟩ := bind_eq_ok.mp h
  obtain ⟨hrA,rfl⟩ := toAffine_eq_ok.mp haffineA
  obtain ⟨hrPoint,rfl⟩ := toAffine_eq_ok.mp haffine
  obtain ⟨proof,hproof,h⟩ := bind_eq_ok.mp h
  change (if (rOf C (k • yPoint)) = 0 then _ else
    if k⁻¹ * (fromBytesBeReduce msg32 + rOf C (k • yPoint) * x) = 0 then _ else _) = _ at h
  split_ifs at h with hr hs
  obtain rfl := Except.ok.inj h
  have hparse := parse_serialize_eq C hrPoint hrA hs proof
  obtain ⟨-,hc,hresp⟩ := parse_eq_ok C hparse
  rw [← hc] at hchallenge
  rw [← hresp] at hresponse
  have hkey : x • C.generator ≠ 0 := smul_ne_zero hxzero C.generator_ne_zero
  rw [verify,hparse,C.fromSec1_toSec1Compressed _ hkey,hy]
  change (dleqVerify C (k • C.generator) yPoint (k • yPoint) proof >>= fun _ => _) = _
  rw [dleqVerify_of_dleqProve hproof hchallenge hresponse]
  change (if _ then _ else if _ then _ else _) = _
  rw [if_neg hr,if_pos]
  exact Ecdsa.point_sign C.generator hk hs

/-- At most half the order. -/
def LowS (s : ZMod q) : Prop := 2 * s.val ≤ q

/-- The ECDSA verifier's equation. -/
def EcdsaVerifies (C : AffineCurve q P) (key : P) (m r s : ZMod q) : Prop :=
  r ≠ 0 ∧ s ≠ 0 ∧ Ecdsa.point C.generator key m r s ≠ 0 ∧ rOf C (Ecdsa.point C.generator key m r s) = r

/-- The half that decryption returns. -/
def normalize (s : ZMod q) : ZMod q := if (q - 1) / 2 < s.val then -s else s

theorem normalize_eq_or (s : ZMod q) : normalize s = s ∨ normalize s = -s := by
  rw [normalize]
  split_ifs
  · exact .inr rfl
  · exact .inl rfl

theorem lowS_normalize {s : ZMod q} (hs : s ≠ 0) : LowS (normalize s) := by
  have hneg : (-s).val = q - s.val := by
    have : NeZero s := ⟨hs⟩
    exact ZMod.val_neg_of_ne_zero s
  rw [LowS,normalize]
  split_ifs with h
  · omega
  · omega

theorem beNat_toBytesBe (hq : q ≤ 256 ^ 32) (s : ZMod q) : beNat (toBytesBe s).toList = s.val := by
  rw [toBytesBe,toList_arrayAt (length_beBytes ..),beNat_beBytes,Nat.mod_eq_of_lt (s.val_lt.trans_le hq)]
section
variable {p : Parsed q P} {key : P} {y : ZMod q} (hparse : parse C sig = .ok p)
include hparse
omit [DecidableEq P] [Module (ZMod q) P] in
theorem decrypt_eq {secretY : Vector UInt8 32} (hy : fromBytesBe secretY = .ok y) (hne : y ≠ 0) :
    decrypt C sig secretY = .ok (compact (toBytesBe (rOf C p.rPoint : ZMod q))
      (toBytesBe (normalize (p.sA * y⁻¹)))) := by
  have hs : p.sA * y⁻¹ ≠ 0 := mul_ne_zero (parse_eq_ok C hparse).1.2 (inv_ne_zero hne)
  have hhalf : beNat (halfOrder q).toList = (q - 1) / 2 := by
    have := C.order_le
    rw [halfOrder,toList_arrayAt (length_beBytes ..),beNat_beBytes,Nat.mod_eq_of_lt (by omega)]
  rw [decrypt,hparse,hy]
  change (if y = 0 then _ else if p.sA * y⁻¹ = 0 then _ else _) = _
  rw [if_neg hne,if_neg hs]
  simp only [ctGtMask_eq,hhalf,beNat_toBytesBe C.order_le]
  have hselect := select_eq (decide ((q - 1) / 2 < (p.sA * y⁻¹).val)) (toBytesBe (p.sA * y⁻¹))
    (toBytesBe (-(p.sA * y⁻¹)))
  simp only [decide_eq_true_eq] at hselect
  rw [hselect,normalize,apply_ite toBytesBe]
  rfl

theorem of_verify_eq_ok (hkey : C.fromSec1 pubkey = .ok key) (h : verify C sig pubkey enckey msg32 = .ok ()) :
    (rOf C p.rPoint : ZMod q) ≠ 0 ∧
      Ecdsa.point C.generator key (fromBytesBeReduce msg32) (rOf C p.rPoint) p.sA = p.rA := by
  rw [verify,hparse,hkey] at h
  change (C.fromSec1 enckey >>= fun yPoint => _) = _ at h
  obtain ⟨yPoint,-,h⟩ := bind_eq_ok.mp h
  obtain ⟨_,-,h⟩ := bind_eq_ok.mp h
  change (if (rOf C p.rPoint) = 0 then _ else
    if Ecdsa.point C.generator key (fromBytesBeReduce msg32) (rOf C p.rPoint) p.sA = p.rA then _ else _) = _ at h
  split_ifs at h with hr hpoint
  exact ⟨hr,hpoint⟩

theorem decrypt_verifies (hkey : C.fromSec1 pubkey = .ok key) (hne : y ≠ 0)
    (hR : p.rPoint = y • p.rA) (h : verify C sig pubkey enckey msg32 = .ok ()) :
    EcdsaVerifies C key (fromBytesBeReduce msg32) (rOf C p.rPoint) (normalize (p.sA * y⁻¹)) := by
  obtain ⟨hr,hpoint⟩ := of_verify_eq_ok hparse hkey h
  obtain ⟨⟨hRne,hsA⟩,-⟩ := parse_eq_ok C hparse
  have hs : p.sA * y⁻¹ ≠ 0 := mul_ne_zero hsA (inv_ne_zero hne)
  have hsigned : Ecdsa.point C.generator key (fromBytesBeReduce msg32) (rOf C p.rPoint) (p.sA * y⁻¹) =
      p.rPoint := by
    rw [Ecdsa.point_mul_inv,hpoint,hR]
  rcases normalize_eq_or (p.sA * y⁻¹) with hsame | hneg
  · rw [hsame]
    exact ⟨hr,hs,by rw [hsigned]; exact hRne,by rw [hsigned]⟩
  · rw [hneg,EcdsaVerifies,Ecdsa.point_neg,hsigned]
    refine ⟨hr,neg_ne_zero.mpr hs,neg_ne_zero.mpr hRne,?_⟩
    rw [rOf,rOf,C.xBytes_neg]

theorem recover_eq {s : ZMod q} (hr : (rOf C p.rPoint : ZMod q) ≠ 0) (hne : y ≠ 0)
    (hs : s = p.sA * y⁻¹ ∨ s = -(p.sA * y⁻¹)) : recover C (C.toSec1Compressed (y • C.generator)) sig
      (compact (toBytesBe (rOf C p.rPoint : ZMod q)) (toBytesBe s)) = .ok (toBytesBe y) := by
  have hsA := (parse_eq_ok C hparse).1.2
  have hpoint : y • C.generator ≠ 0 := smul_ne_zero hne C.generator_ne_zero
  obtain ⟨hfirst,hsecond⟩ := compact_halves (toBytesBe (rOf C p.rPoint)) (toBytesBe s)
  rw [recover,hparse,C.fromSec1_toSec1Compressed _ hpoint,hfirst,hsecond,fromBytesBe_toBytesBe C.order_le,
    fromBytesBe_toBytesBe C.order_le]
  change (if s = 0 then _ else if (rOf C p.rPoint) = 0 then _ else
    if (rOf C p.rPoint) ≠ rOf C p.rPoint then _ else if s⁻¹ * p.sA = 0 then _ else _) = _
  -- the quotient of the halves is the key or its negative
  have hquotient : s⁻¹ * p.sA = y ∨ s⁻¹ * p.sA = -y := by
    rcases hs with rfl | rfl
    · left
      field_simp
    · right
      field_simp
  have hsne : s ≠ 0 := by
    rcases hs with rfl | rfl
    · exact mul_ne_zero hsA (inv_ne_zero hne)
    · exact neg_ne_zero.mpr (mul_ne_zero hsA (inv_ne_zero hne))
  have hqne : s⁻¹ * p.sA ≠ 0 := mul_ne_zero (inv_ne_zero hsne) hsA
  rw [if_neg hsne,if_neg hr,if_neg (not_not.mpr rfl),if_neg hqne]
  rcases hquotient with hq | hq
  · rw [hq,if_pos rfl]
  · rw [hq]
    by_cases hsame : -y • C.generator = y • C.generator
    · -- only in a group of two elements
      have : -y = y := smul_left_injective (ZMod q) C.generator_ne_zero hsame
      rw [if_pos hsame,this]
    · rw [if_neg hsame,if_pos (neg_smul _ _),neg_neg]
end
/-- Encryption is accepted up to a zero challenge or response; an accepted signature whose two points have
the ratio `y` decrypts with `y` to a low ECDSA signature, from which `y` is recovered. -/
theorem adaptor_correct (C : AffineCurve q P) :
    (∀ (seckey msg32 : Vector UInt8 32) (enckey : Vector UInt8 33) (x : ZMod q) (aux : Option (Vector UInt8 32))
        (sig : Vector UInt8 adaptorSignatureLen),
      Scalar.fromBytesBe seckey = .ok x → encryptInner C seckey enckey msg32 aux = .ok sig →
      (challengeOf sig : ZMod q) ≠ 0 → (responseOf sig : ZMod q) ≠ 0 →
      verify C sig (C.toSec1Compressed (x • C.generator)) enckey msg32 = .ok ()) ∧
    ∀ (sig : Vector UInt8 adaptorSignatureLen) (p : Parsed q P) (pubkey : Vector UInt8 33) (key : P)
        (secretY msg32 : Vector UInt8 32) (y : ZMod q),
      parse C sig = .ok p → C.fromSec1 pubkey = .ok key → Scalar.fromBytesBe secretY = .ok y → y ≠ 0 →
      verify C sig pubkey (C.toSec1Compressed (y • C.generator)) msg32 = .ok () → p.rPoint = y • p.rA →
      ∃ r s : ZMod q, decrypt C sig secretY = .ok (compact (Scalar.toBytesBe r) (Scalar.toBytesBe s)) ∧ LowS s ∧
        EcdsaVerifies C key (Scalar.fromBytesBeReduce msg32) r s ∧
        recover C (C.toSec1Compressed (y • C.generator)) sig (compact (Scalar.toBytesBe r) (Scalar.toBytesBe s)) =
          .ok secretY := by
  constructor
  · intro seckey msg32 enckey x aux sig hx h hchallenge hresponse
    exact verify_of_encrypt hx h hchallenge hresponse
  · intro sig p pubkey key secretY msg32 y hparse hkey hy hne hverify hR
    have hs : p.sA * y⁻¹ ≠ 0 := mul_ne_zero (parse_eq_ok C hparse).1.2 (inv_ne_zero hne)
    refine ⟨rOf C p.rPoint,normalize (p.sA * y⁻¹),decrypt_eq hparse hy hne,lowS_normalize hs,
      decrypt_verifies hparse hkey hne hR hverify,?_⟩
    rw [recover_eq hparse (of_verify_eq_ok hparse hkey hverify).1 hne (normalize_eq_or _),toBytesBe_of_fromBytesBe hy]

/-- The residues modulo 7, a residue and its negative with one x-coordinate, and a hash that is always one. -/
private def residueCurve : AffineCurve 7 (ZMod 7) where
  generator := 1
  toSec1Compressed p := arrayAt 33 (beBytes 33 p.val) 0
  sha256 _ := arrayAt 32 (beBytes 32 1) 0
  order_le := by decide
  fromSec1 b := if 0 < beNat b.toList ∧ beNat b.toList < 7 then .ok (beNat b.toList) else .error .malformed
  xBytes p := arrayAt 32 (beBytes 32 (min p.val (-p).val)) 0
  generator_ne_zero := by decide
  fromSec1_toSec1Compressed := by decide +kernel
  ne_zero_of_fromSec1 b p h := by
    split_ifs at h with hb
    rw [← Except.ok.inj h, Ne, ZMod.natCast_eq_zero_iff]
    exact Nat.not_dvd_of_pos_of_lt hb.1 hb.2
  xBytes_neg p := by rw [neg_neg, min_comm]

local instance prime_seven : Fact (Nat.Prime 7) := ⟨by decide⟩

private def small (n : Nat) : Vector UInt8 32 := arrayAt 32 (beBytes 32 n) 0
private def residueSig : Except Error (Vector UInt8 adaptorSignatureLen) :=
  encryptInner residueCurve (small 2) (residueCurve.toSec1Compressed ((2 : ZMod 7) • residueCurve.generator)) (small 1) none

/-- The proof's scalars, and whether the points have the ratio 2. -/
private def residueChecks (sig : Vector UInt8 adaptorSignatureLen) : ZMod 7 × ZMod 7 × Option Bool :=
  (challengeOf sig, responseOf sig, (parse residueCurve sig).toOption.map fun p => decide (p.rPoint = (2 : ZMod 7) • p.rA))

/-- Keys 2 and 2 and message 1: the half is negated. -/
theorem adaptor_correct_residues : ∃ sig, residueSig = .ok sig ∧
      verify residueCurve sig (residueCurve.toSec1Compressed ((2 : ZMod 7) • residueCurve.generator))
        (residueCurve.toSec1Compressed ((2 : ZMod 7) • residueCurve.generator)) (small 1) = .ok () ∧
      ∃ r s : ZMod 7, decrypt residueCurve sig (small 2) = .ok (compact (Scalar.toBytesBe r) (Scalar.toBytesBe s)) ∧
        LowS s ∧ EcdsaVerifies residueCurve ((2 : ZMod 7) • residueCurve.generator)
          (Scalar.fromBytesBeReduce (small 1)) r s ∧
        recover residueCurve (residueCurve.toSec1Compressed ((2 : ZMod 7) • residueCurve.generator)) sig
          (compact (Scalar.toBytesBe r) (Scalar.toBytesBe s)) = .ok (small 2) := by
  have hchecks : residueSig.toOption.map residueChecks = some (1, 2, some true) := by decide +kernel
  have hkey : (fromBytesBe (small 2) : Except Error (ZMod 7)) = .ok 2 := by decide +kernel
  cases hsig : residueSig with
  | error e =>
    rw [hsig] at hchecks
    cases hchecks
  | ok sig =>
    rw [hsig] at hchecks
    have hvalues : residueChecks sig = (1, 2, some true) := Option.some.inj hchecks
    rw [residueChecks,Prod.mk.injEq,Prod.mk.injEq] at hvalues
    obtain ⟨hchallenge,hresponse,hratio⟩ := hvalues
    obtain ⟨hcomplete,hsound⟩ := adaptor_correct residueCurve
    have hverify := hcomplete (small 2) (small 1) _ 2 none sig hkey hsig
      (by rw [hchallenge]; decide) (by rw [hresponse]; decide)
    refine ⟨sig,rfl,hverify,?_⟩
    cases hparse : parse residueCurve sig with
    | error e =>
      rw [hparse] at hratio
      cases hratio
    | ok p =>
      rw [hparse] at hratio
      exact hsound sig p _ _ (small 2) (small 1) 2 hparse
        (residueCurve.fromSec1_toSec1Compressed _ (by decide)) hkey (by decide) hverify
        (of_decide_eq_true (Option.some.inj hratio))
end PureCrypto.Zkp.Adaptor
