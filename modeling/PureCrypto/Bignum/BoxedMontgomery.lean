import PureCrypto.Bignum.Montgomery
import PureCrypto.Framework.PowerLadder

/-!
# Modular arithmetic at the width of the modulus

`BoxedMontModulus` of `bignum/boxed_montgomery.rs` with its portable kernels, as on every machine without the
vector ones.  Tables are lists of entries, each as wide as the modulus.
-/
namespace PureCrypto.Bignum
/-- `(a + b) mod n`; the difference is kept unless the sum was below the modulus. -/
def addModInPlace (n a b : List Limb) : List Limb :=
  let (a, carry) := adcLimbs a b 0#64
  let (out, borrow) := sbbLimbs a n 0#64
  assignLimbs out a !(carry ||| (borrow ^^^ 1#64) != 0#64)

structure BoxedMontModulus where
  n : List Limb
  nPrime : Limb
  r2 : List Limb
  limbs : Nat
namespace BoxedMontModulus
def montMulLimbs (m : BoxedMontModulus) (a b : List Limb) : List Limb := montMulKernel m.n m.nPrime a b

def montSqrLimbs (m : BoxedMontModulus) (a : List Limb) : List Limb := montSqrKernel m.n m.nPrime a

/-- `2x mod n`: a round of the long division that takes a zero bit in. -/
def doubleInPlace (m : BoxedMontModulus) (x : List Limb) : List Limb := divideBit m.n x 0#64

def computeR2 (m : BoxedMontModulus) : List Limb :=
  let bits := 64 * m.limbs - BoxedUint.leadingZeros (limbAt m.n (m.limbs - 1))
  let x := (List.replicate m.limbs 0#64).set ((bits - 1) / 64) (1#64 <<< ((bits - 1) % 64))
  m.montSqrLimbs^[6] (m.doubleInPlace^[64 * m.limbs - bits + 1 + m.limbs] x)

/-- Panics on an even modulus or zero. -/
def new (modulus : BoxedUint) : Option BoxedMontModulus :=
  if modulus.limbs.all (· == 0#64) then none
  else
    let limbs := modulus.significantLimbs
    let n := modulus.limbsAt limbs
    if limbAt n 0 &&& 1#64 = 1#64 then
      let m : BoxedMontModulus := ⟨n, -invMod264 (limbAt n 0), List.replicate limbs 0#64, limbs⟩
      some { m with r2 := m.computeR2 }
    else none

def oneLimbs (m : BoxedMontModulus) : List Limb := (List.replicate m.limbs 0#64).set 0 1#64
def toMontLimbs (m : BoxedMontModulus) (x : List Limb) : List Limb := m.montMulLimbs x m.r2
def demontLimbs (m : BoxedMontModulus) (x : List Limb) : List Limb := m.montMulLimbs x m.oneLimbs

def reduce (m : BoxedMontModulus) (x : BoxedUint) : BoxedUint :=
  let chunks := (x.limbs.length + m.limbs - 1) / m.limbs
  .fromLimbs (m.demontLimbs (countdown (fun acc i =>
    let cm := m.toMontLimbs ((List.range m.limbs).map fun j => limbAt x.limbs (i * m.limbs + j))
    if i + 1 = chunks then cm else addModInPlace m.n (m.toMontLimbs acc) cm) chunks (List.replicate m.limbs 0#64)))

/-- The entry of the table, its limbs gathered by a scan of all of it. -/
def gather (m : BoxedMontModulus) (table : List (List Limb)) (idx : Nat) : List Limb :=
  table.zipIdx.foldl (fun sel entry =>
    let mask := Ct.mask 64 (Ct.ctEq (BitVec.ofNat 64 entry.2) (BitVec.ofNat 64 idx))
    List.zipWith (fun s e => s ||| (e &&& mask)) sel entry.1) (List.replicate m.limbs 0#64)

def windowLadder (m : BoxedMontModulus) (table : List (List Limb)) (windows width : Nat) (digit : Nat → Nat) : BoxedUint :=
  .fromLimbs (m.demontLimbs (countdown
    (fun acc w => m.montMulLimbs (m.montSqrLimbs^[width] acc) (m.gather table (digit w))) (windows - 1)
    (m.gather table (digit (windows - 1)))))

def powBitsPortable (m : BoxedMontModulus) (base exp : BoxedUint) (bits : Nat) : BoxedUint :=
  let baseM := m.toMontLimbs (base.limbsAt m.limbs)
  let table := m.toMontLimbs m.oneLimbs :: productChain m.montMulLimbs baseM 15 baseM
  m.windowLadder table (max ((bits + 3) / 4) 1) 4 (MontModulus.digit exp.limbs)

/-- The storage of the exponent, at least as wide as the modulus. -/
def pow (m : BoxedMontModulus) (base exp : BoxedUint) : BoxedUint :=
  m.powBitsPortable base exp (64 * max exp.limbs.length m.limbs)

def pow2BitsPortable (m : BoxedMontModulus) (a x b y : BoxedUint) (bits : Nat) : BoxedUint :=
  let t1 := m.toMontLimbs (a.limbsAt m.limbs)
  let t4 := m.toMontLimbs (b.limbsAt m.limbs)
  let t8 := m.montMulLimbs t4 t4
  let t12 := m.montMulLimbs t8 t4
  let row := productChain m.montMulLimbs t1
  let table := m.toMontLimbs m.oneLimbs :: row 3 t1 ++ row 4 t4 ++ row 4 t8 ++ row 4 t12
  m.windowLadder table (max ((bits + 1) / 2) 1) 2
    fun w => MontModulus.twoBits x.limbs w ||| (MontModulus.twoBits y.limbs w <<< 2)

/-- Bit by bit up to 64 bits, in windows of which the zero ones are skipped above. -/
def powPublicPortable (m : BoxedMontModulus) (base exp : BoxedUint) : BoxedUint :=
  let bits := exp.bitLen
  if bits = 0 then .fromLimbs (m.demontLimbs (m.toMontLimbs m.oneLimbs))
  else
    let baseM := m.toMontLimbs (base.limbsAt m.limbs)
    .fromLimbs (m.demontLimbs (
      if bits ≤ 64 then
        countdown (fun acc i =>
          let acc := m.montSqrLimbs acc
          if limbAt exp.limbs (i / 64) >>> (i % 64) &&& 1#64 = 1#64 then m.montMulLimbs acc baseM else acc) (bits - 1) baseM
      else
        -- the entry 0 is never read
        let table := [] :: productChain m.montMulLimbs baseM 15 baseM
        let digit := MontModulus.digit exp.limbs
        countdown (fun acc w =>
          let acc := m.montSqrLimbs^[4] acc
          if digit w ≠ 0 then m.montMulLimbs acc (table.getD (digit w) []) else acc) ((bits - 1) / 4)
          (table.getD (digit ((bits - 1) / 4)) [])))
end BoxedMontModulus
end PureCrypto.Bignum
