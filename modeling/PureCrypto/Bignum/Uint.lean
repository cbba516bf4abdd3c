import PureCrypto.Bignum.Mul

/-!
# Integers of fixed width

`Uint` of `bignum/uint.rs` and its wide product of `bignum/mul.rs`: arrays of `LIMBS` limbs, least significant
first.  A call that panics has no result.
-/
namespace PureCrypto.Bignum
open Limbs List
def adcLimbs : List Limb → List Limb → Limb → List Limb × Limb
  | a :: as, b :: bs, carry =>
    let (s, carry) := adc a b carry
    let (rest, carry) := adcLimbs as bs carry
    (s :: rest, carry)
  | _, _, carry => ([], carry)

theorem length_adcLimbs (as bs : List Limb) (c : Limb) : (adcLimbs as bs c).1.length = min as.length bs.length := by
  induction as generalizing bs c with
  | nil => simp [adcLimbs]
  | cons a as ih =>
    cases bs with
    | nil => simp [adcLimbs]
    | cons b bs =>
      rw [adcLimbs]
      simp [ih,Nat.add_min_add_right]

theorem length_sbbLimbs (as bs : List Limb) (c : Limb) : (sbbLimbs as bs c).1.length = min as.length bs.length := by
  induction as generalizing bs c with
  | nil => simp [sbbLimbs]
  | cons a as ih =>
    cases bs with
    | nil => simp [sbbLimbs]
    | cons b bs =>
      rw [sbbLimbs]
      simp [ih,Nat.add_min_add_right]

structure Uint (LIMBS : Nat) where
  limbs : List Limb
  length_limbs : limbs.length = LIMBS
deriving DecidableEq
namespace Uint
variable {LIMBS : Nat}
def toNat (x : Uint LIMBS) : Nat := value x.limbs

def zero : Uint LIMBS := ⟨List.replicate LIMBS 0#64, length_replicate⟩

/-- An array of zeros with the limbs of `src` written into it. -/
def fromSlice (src : List Limb) : Uint LIMBS :=
  ⟨(src ++ List.replicate LIMBS 0#64).take LIMBS, by simp⟩

def fromU64 (v : Limb) : Uint LIMBS := fromSlice [v]
def one : Uint LIMBS := fromU64 1#64
def adc (x y : Uint LIMBS) (carry : Limb) : Uint LIMBS × Limb :=
  let r := adcLimbs x.limbs y.limbs carry
  (⟨r.1, by rw [length_adcLimbs, x.length_limbs, y.length_limbs, Nat.min_self]⟩, r.2)
def sbb (x y : Uint LIMBS) (borrow : Limb) : Uint LIMBS × Limb :=
  let r := sbbLimbs x.limbs y.limbs borrow
  (⟨r.1, by rw [length_sbbLimbs, x.length_limbs, y.length_limbs, Nat.min_self]⟩, r.2)
def wrappingAdd (x y : Uint LIMBS) : Uint LIMBS := (x.adc y 0#64).1
def wrappingSub (x y : Uint LIMBS) : Uint LIMBS := (x.sbb y 0#64).1
def ctEq (x y : Uint LIMBS) : Bool :=
  (x.limbs.zip y.limbs).foldl (fun acc ab => acc && Ct.ctEq ab.1 ab.2) true
def ctGt (x y : Uint LIMBS) : Bool := (y.sbb x 0#64).2 != 0#64
def ctLt (x y : Uint LIMBS) : Bool := y.ctGt x
def conditionalSelect (a b : Uint LIMBS) (choice : Bool) : Uint LIMBS :=
  ⟨List.zipWith (fun a b => Ct.conditionalSelect a b choice) a.limbs b.limbs,
    by rw [length_zipWith, a.length_limbs, b.length_limbs, Nat.min_self]⟩
def isZero (x : Uint LIMBS) : Bool := x.ctEq zero
def isOdd (x : Uint LIMBS) : Bool := limbAt x.limbs 0 &&& 1#64 != 0#64
def bitLen (x : Uint LIMBS) : Nat := BoxedUint.bitLenFrom x.limbs LIMBS

def shrBits (x : Uint LIMBS) (shift : Nat) : Uint LIMBS :=
  let limbShift := shift / 64
  let bitShift := shift % 64
  ⟨(List.range LIMBS).map fun i =>
    let src := i + limbShift
    if src < LIMBS then
      let val := limbAt x.limbs src >>> bitShift
      if 0 < bitShift ∧ src + 1 < LIMBS then val ||| limbAt x.limbs (src + 1) <<< (64 - bitShift) else val
    else 0#64,
    by simp⟩

/-- Double, take the next bit in, subtract the modulus if it fits. -/
def reduceBit (modulus r : Uint LIMBS) (bit : Limb) : Uint LIMBS :=
  let (doubled, carry) := r.adc r 0#64
  let shifted : Uint LIMBS := ⟨doubled.limbs.set 0 (limbAt doubled.limbs 0 ||| bit), by
    rw [length_set, doubled.length_limbs]⟩
  let (diff, borrow) := shifted.sbb modulus 0#64
  conditionalSelect diff shifted (carry ||| (borrow ^^^ 1#64) != 0#64)

def reduce (x modulus : Uint LIMBS) : Option (Uint LIMBS) :=
  if modulus.isZero then none
  else some (x.limbs.reverse.foldl
    (fun r limb => (List.range 64).reverse.foldl (fun r bit => reduceBit modulus r (limb >>> bit &&& 1#64)) r) zero)

def mulWide (x y : Uint LIMBS) : Uint LIMBS × Uint LIMBS :=
  let (lo, hi) := mulRowsWide y.limbs x.limbs (List.replicate LIMBS 0#64)
  (fromSlice lo, fromSlice hi)
end Uint
end PureCrypto.Bignum
