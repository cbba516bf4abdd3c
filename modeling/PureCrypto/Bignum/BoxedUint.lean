import PureCrypto.Ct
import PureCrypto.Framework.LittleEndian
import PureCrypto.Framework.Limbs

/-!
# Integers of any width

`BoxedUint` of `bignum/boxed.rs` as the format-preserving cipher uses it: bytes, bit length, sums,
differences and the remainder by bitwise long division.  A call that panics has no result.
-/
namespace PureCrypto.Bignum
open Limbs
abbrev Limb := BitVec 64

def adc (a b carry : Limb) : Limb × Limb :=
  let ret := a.toNat + b.toNat + carry.toNat
  (BitVec.ofNat 64 ret, BitVec.ofNat 64 (ret >>> 64))

/-- Difference and borrow, in 128 bits that wrap. -/
def sbb (a b borrow : Limb) : Limb × Limb :=
  let ret := (2 ^ 128 + a.toNat - (b.toNat + borrow.toNat)) % 2 ^ 128
  (BitVec.ofNat 64 ret, BitVec.ofNat 64 (ret >>> 64) &&& 1#64)

def sbbLimbs : List Limb → List Limb → Limb → List Limb × Limb
  | a :: as, b :: bs, borrow =>
    let (d, borrow) := sbb a b borrow
    let (ds, borrow) := sbbLimbs as bs borrow
    (d :: ds, borrow)
  | _, _, borrow => ([], borrow)

def assignLimbs (dst src : List Limb) (choice : Bool) : List Limb :=
  List.zipWith (fun d s => d ^^^ (Ct.mask 64 choice &&& (d ^^^ s))) dst src

/-- `(r << 1) | bit`, with the bit that falls out. -/
def shiftIn : List Limb → Limb → List Limb × Limb
  | [], carry => ([], carry)
  | w :: ws, carry =>
    let (rest, out) := shiftIn ws (w >>> 63)
    ((w <<< 1 ||| carry) :: rest, out)

/-- One round of the division by `n`: take the next bit in, subtract `n` if it fits. -/
def divideBit (n r : List Limb) (bit : Limb) : List Limb :=
  let (r, carry) := shiftIn r bit
  let (scratch, borrow) := sbbLimbs r n 0#64
  assignLimbs r scratch (carry ||| (borrow ^^^ 1#64) != 0#64)

/-- Whether it fits: the quotient bit of the round. -/
def divideFits (n r : List Limb) (bit : Limb) : Bool :=
  let (r, carry) := shiftIn r bit
  let (_, borrow) := sbbLimbs r n 0#64
  carry ||| (borrow ^^^ 1#64) != 0#64

/-- The 64 rounds for one limb of the dividend. -/
def divideLimb (n r : List Limb) (x : Limb) : List Limb :=
  (List.range 64).reverse.foldl (fun r bit => divideBit n r (x >>> bit &&& 1#64)) r

/-- The remainder of `x` by `n`; the top limbs, too short for `n`, are loaded at once. -/
def longDivide (x n : List Limb) : List Limb :=
  let pre := min x.length (n.length - 1)
  let rest := x.length - pre
  let r := x.drop rest ++ List.replicate (n.length - pre) 0#64
  (x.take rest).reverse.foldl (divideLimb n) r

structure BoxedUint where
  limbs : List Limb
  ne_nil : limbs ≠ []
namespace BoxedUint
def toNat (x : BoxedUint) : Nat := value x.limbs

def fromU64 (v : Limb) : BoxedUint := ⟨[v], List.cons_ne_nil _ _⟩
def fromLimbs (limbs : List Limb) : BoxedUint :=
  if h : limbs = [] then ⟨[0#64], List.cons_ne_nil _ _⟩ else ⟨limbs, h⟩
def limbOfBeBytes (bytes : List UInt8) : Limb :=
  BitVec.ofNat 64 (bytes.foldl (fun acc b => acc <<< 8 ||| b.toNat) 0)

/-- The limbs of big-endian bytes, eight at a time from the end. -/
def limbsOfBeBytes : Nat → List UInt8 → List Limb
  | 0, _ => []
  | n + 1, bytes =>
    limbOfBeBytes (bytes.drop (bytes.length - 8)) ::
      limbsOfBeBytes n (bytes.take (bytes.length - 8))

def fromBeBytes (bytes : List UInt8) : BoxedUint :=
  fromLimbs (limbsOfBeBytes (max ((bytes.length + 7) / 8) 1) bytes)

/-- Big-endian in `len` bytes.  Panics if a byte past `len` is not zero. -/
def toBeBytes (x : BoxedUint) (len : Nat) : Option (List UInt8) :=
  let bytes := x.limbs.flatMap fun limb => LittleEndian.leBytes 8 limb.toNat
  if (bytes.drop len).any (· != 0) then none
  else some (bytes.take len ++ List.replicate (len - bytes.length) 0).reverse

def leadingZeros (limb : Limb) : Nat := 64 - Nat.size limb.toNat

/-- The position of the highest bit set among the limbs `0 .. i`. -/
def bitLenFrom (limbs : List Limb) : Nat → Nat
  | 0 => 0
  | i + 1 =>
    match limbs[i]? with
    | some limb => if limb != 0#64 then i * 64 + (64 - leadingZeros limb) else bitLenFrom limbs i
    | none => bitLenFrom limbs i

def bitLen (x : BoxedUint) : Nat := bitLenFrom x.limbs x.limbs.length

/-- The number of limbs without leading zeros, at least one. -/
def significantFrom (limbs : List Limb) : Nat → Nat
  | 0 => 0
  | 1 => 1
  | n + 2 => if limbs[n + 1]? = some 0#64 then significantFrom limbs (n + 1) else n + 2

def significantLimbs (x : BoxedUint) : Nat := significantFrom x.limbs x.limbs.length

/-- Padded or cut to `n` limbs. -/
def limbsAt (x : BoxedUint) (n : Nat) : List Limb :=
  x.limbs.take n ++ List.replicate (n - x.limbs.length) 0#64

/-- Wraps at the width of the wider operand. -/
def sub (x y : BoxedUint) : BoxedUint :=
  let n := max x.limbs.length y.limbs.length
  fromLimbs (sbbLimbs (x.limbsAt n) (y.limbsAt n) 0#64).1

/-- The sum of two limb lists of any lengths, with a limb for the carry. -/
def addLimbs : List Limb → List Limb → Limb → List Limb
  | [], [], c => [c]
  | a :: as, [], c =>
    let (s, c) := adc a 0#64 c
    s :: addLimbs as [] c
  | [], b :: bs, c =>
    let (s, c) := adc 0#64 b c
    s :: addLimbs [] bs c
  | a :: as, b :: bs, c =>
    let (s, c) := adc a b c
    s :: addLimbs as bs c

/-- One limb wider than the wider operand. -/
def add (x y : BoxedUint) : BoxedUint := fromLimbs (addLimbs x.limbs y.limbs 0#64)

/-- Panics for a zero modulus. -/
def reduce (x modulus : BoxedUint) : Option BoxedUint :=
  if modulus.limbs.all (· == 0#64) then none
  else some (fromLimbs (longDivide x.limbs (modulus.limbsAt modulus.significantLimbs)))
end BoxedUint
end PureCrypto.Bignum
