import PureCrypto.Bignum.MontgomeryKernel
import PureCrypto.Bignum.Uint
import PureCrypto.Framework.PowerLadder

/-!
# Modular arithmetic in Montgomery form

`MontModulus` of `bignum/montgomery.rs` and the exponentiations of `bignum/modpow.rs`.  The assertions of debug
builds are left out, as are the steps that only keep values from the timing of the code.
-/
namespace PureCrypto.Bignum
variable {LIMBS : Nat}
/-- `a` for the bit one, `b` for zero. -/
def select (a b : Uint LIMBS) (bit : Limb) : Uint LIMBS :=
  let mask := -bit
  ⟨List.zipWith (fun a b => b ^^^ (mask &&& (a ^^^ b))) a.limbs b.limbs,
    by rw [List.length_zipWith, a.length_limbs, b.length_limbs, Nat.min_self]⟩

def addMod (n a b : Uint LIMBS) : Uint LIMBS :=
  let (sum, carry) := a.adc b 0#64
  let (diff, borrow) := sum.sbb n 0#64
  select diff sum (carry ||| (borrow ^^^ 1#64))

def subMod (n a b : Uint LIMBS) : Uint LIMBS :=
  let (diff, borrow) := a.sbb b 0#64
  let (wrapped, _) := diff.adc n 0#64
  select wrapped diff borrow

/-- The modulus, `-N⁻¹` modulo `2 ^ 64`, `R ^ 2` modulo `N` and the limbs in use. -/
structure MontModulus (LIMBS : Nat) where
  modulus : Uint LIMBS
  nPrime : Limb
  r2 : Uint LIMBS
  limbs : Nat
deriving DecidableEq
namespace MontModulus
def montMul (m : MontModulus LIMBS) (a b : Uint LIMBS) : Uint LIMBS :=
  .fromSlice (montMulKernel (m.modulus.limbs.take m.limbs) m.nPrime a.limbs b.limbs)

def montSqr (m : MontModulus LIMBS) (a : Uint LIMBS) : Uint LIMBS :=
  .fromSlice (montSqrKernel (m.modulus.limbs.take m.limbs) m.nPrime a.limbs)

/-- `2 ^ (bits - 1)`, doubled to `R * 2 ^ s` and squared six times. -/
def withShape (modulus : Uint LIMBS) (s bits : Nat) : MontModulus LIMBS :=
  let m : MontModulus LIMBS := ⟨modulus, -invMod264 (limbAt modulus.limbs 0), .zero, s⟩
  let start : Uint LIMBS :=
    ⟨(List.replicate LIMBS 0#64).set ((bits - 1) / 64) (1#64 <<< ((bits - 1) % 64)), by simp⟩
  let x := (fun x => addMod modulus x x)^[64 * s - bits + 1 + s] start
  let x := (fun x => m.montMul x x)^[6] x
  { m with r2 := x }

/-- Panics on an even modulus. -/
def new (modulus : Uint LIMBS) : Option (MontModulus LIMBS) :=
  let n := modulus.limbs
  if limbAt n 0 &&& 1#64 = 1#64 then
    let s := BoxedUint.significantFrom n LIMBS
    let bits := 64 * s - BoxedUint.leadingZeros (limbAt n (s - 1))
    some (withShape modulus s bits)
  else none

/-- `new` with its width scan declassified. -/
def newSecret (modulus : Uint LIMBS) : Option (MontModulus LIMBS) := new modulus

def toMont (m : MontModulus LIMBS) (x : Uint LIMBS) : Uint LIMBS := m.montMul x m.r2
def fromMont (m : MontModulus LIMBS) (x : Uint LIMBS) : Uint LIMBS := m.montMul x .one
def mulMod (m : MontModulus LIMBS) (a b : Uint LIMBS) : Uint LIMBS := m.montMul (m.montMul a b) m.r2
def chunk (m : MontModulus LIMBS) (x : Uint LIMBS) (i : Nat) : Uint LIMBS :=
  .fromSlice ((List.range m.limbs).map fun j => limbAt x.limbs (i * m.limbs + j))

def reduce (m : MontModulus LIMBS) (x : Uint LIMBS) : Uint LIMBS :=
  let chunks := (LIMBS + m.limbs - 1) / m.limbs
  m.fromMont (countdown (fun acc i =>
    let cm := m.montMul (m.chunk x i) m.r2
    if i + 1 = chunks then cm else addMod m.modulus (m.montMul acc m.r2) cm) chunks .zero)

def gather (table : List (Uint LIMBS)) (idx : Nat) : Uint LIMBS :=
  table.zipIdx.foldl
    (fun sel tj => Uint.conditionalSelect tj.1 sel (Ct.ctEq (BitVec.ofNat 64 tj.2) (BitVec.ofNat 64 idx)))
    (table.headD .zero)

def digit (exp : List Limb) (w : Nat) : Nat := (limbAt exp (w / 16) >>> (4 * (w % 16)) &&& 0xf#64).toNat

def powBits (m : MontModulus LIMBS) (base exp : Uint LIMBS) (bits : Nat) : Uint LIMBS :=
  let baseM := m.toMont base
  let oneM := m.toMont .one
  let table := oneM :: productChain m.montMul baseM 15 baseM
  let windows := max ((bits + 3) / 4) 1
  let acc := gather table (digit exp.limbs (windows - 1))
  m.fromMont (countdown
    (fun acc w => m.montMul (m.montSqr^[4] acc) (gather table (digit exp.limbs w))) (windows - 1) acc)

def pow (m : MontModulus LIMBS) (base exp : Uint LIMBS) : Uint LIMBS := m.powBits base exp (LIMBS * 64)
def twoBits (e : List Limb) (w : Nat) : Nat := (limbAt e (w / 32) >>> (2 * (w % 32)) &&& 3#64).toNat

/-- The products of a power of `a` below the fourth with one of `b`. -/
def pow2Table (m : MontModulus LIMBS) (a b : Uint LIMBS) : List (Uint LIMBS) :=
  let t1 := m.toMont a
  let t4 := m.toMont b
  let t8 := m.montSqr t4
  let t12 := m.montMul t8 t4
  let row := productChain m.montMul t1
  m.toMont .one :: row 3 t1 ++ row 4 t4 ++ row 4 t8 ++ row 4 t12

def pow2Bits (m : MontModulus LIMBS) (a x b y : Uint LIMBS) (bits : Nat) : Uint LIMBS :=
  let table := m.pow2Table a b
  let windows := max ((bits + 1) / 2) 1
  let digit w := twoBits x.limbs w ||| (twoBits y.limbs w <<< 2)
  let acc := gather table (digit (windows - 1))
  m.fromMont (countdown
    (fun acc w => m.montMul (m.montSqr (m.montSqr acc)) (gather table (digit w))) (windows - 1) acc)

def pow2 (m : MontModulus LIMBS) (a x b y : Uint LIMBS) : Uint LIMBS := m.pow2Bits a x b y (LIMBS * 64)

def powPublic (m : MontModulus LIMBS) (base exp : Uint LIMBS) : Uint LIMBS :=
  let bits := exp.bitLen
  if bits = 0 then m.fromMont (m.toMont .one)
  else
    let baseM := m.toMont base
    m.fromMont (countdown (fun acc i =>
      let acc := m.montSqr acc
      if limbAt exp.limbs (i / 64) >>> (i % 64) &&& 1#64 = 1#64 then m.montMul acc baseM else acc) (bits - 1) baseM)

/-- By Fermat's little theorem, for a prime modulus. -/
def invPrime (m : MontModulus LIMBS) (a : Uint LIMBS) : Uint LIMBS :=
  m.pow a (m.modulus.wrappingSub (.fromU64 2#64))
end MontModulus
end PureCrypto.Bignum
