import PureCrypto.Bignum.BoxedUint
import PureCrypto.Framework.ByteArrays

/-!
# Format-preserving encryption

FF1 of `fpe/mod.rs` over any block function: ten Feistel rounds on the two halves of a numeral string,
kept as integers, with a CBC-MAC of the tweak and one half as round function.
-/
namespace PureCrypto.Fpe
open Bignum ByteArrays
inductive Error
  | invalidRadix
  | invalidLength
  | invalidDigit
deriving DecidableEq, Repr

def mulAddLoop (m : Nat) : List Limb → Nat → List Limb
  | [], carry => if carry ≠ 0 then [BitVec.ofNat 64 carry] else []
  | l :: ls, carry =>
    let t := l.toNat * m + carry
    BitVec.ofNat 64 t :: mulAddLoop m ls (t >>> 64)

def mulAddSmall (limbs : List Limb) (m a : Nat) : List Limb := mulAddLoop m limbs a

/-- Quotient and remainder, from the most significant limb down. -/
def divremSmall (d : Nat) : List Limb → List Limb × Nat
  | [] => ([], 0)
  | l :: ls =>
    let (qs, rem) := divremSmall d ls
    let t := rem <<< 64 ||| l.toNat
    (BitVec.ofNat 64 (t / d) :: qs, t % d)

def numRadix (digits : List UInt16) (radix : Nat) : BoxedUint :=
  .fromLimbs (digits.foldl (fun limbs d => mulAddSmall limbs radix d.toNat) [0#64])

/-- The `m` low digits, written from the last one to the first. -/
def strDigits (radix : Nat) : Nat → List Limb → List UInt16
  | 0, _ => []
  | m + 1, limbs =>
    let (qs, rem) := divremSmall radix limbs
    strDigits radix m qs ++ [UInt16.ofNat rem]

def strRadix (x : BoxedUint) (m radix : Nat) : List UInt16 := strDigits radix m x.limbs
def radixPow (radix m : Nat) : BoxedUint :=
  .fromLimbs ((List.range m).foldl (fun limbs _ => mulAddSmall limbs radix 0) [1#64])
def minDomain : Nat := 1000000
def legacyMinDomain : Nat := 100
def rounds : Nat := 10

structure Ff1 where
  /-- The block cipher's encryption. -/
  encryptBlock : List UInt8 → List UInt8
  radix : Nat
  minLen : Nat
  two_le_radix : 2 ≤ radix
  radix_le : radix ≤ 65536

/-- The smallest length from `len` on whose power, starting at `pow`, reaches the domain. -/
def minLenFrom (radix minDomain : Nat) : Nat → Nat → Nat → Nat
  | 0, _, len => len
  | fuel + 1, pow, len =>
    if pow < minDomain then minLenFrom radix minDomain fuel (pow * radix) (len + 1) else len
namespace Ff1
/-- The power at least doubles in every round, so the domain bounds their number. -/
def withMinDomain (encryptBlock : List UInt8 → List UInt8) (radix minDomain : Nat) :
    Except Error Ff1 :=
  if h : 2 ≤ radix ∧ radix ≤ 65536 then
    .ok ⟨encryptBlock, radix, minLenFrom radix minDomain minDomain (radix * radix) 2, h.1, h.2⟩
  else .error .invalidRadix

def new (encryptBlock : List UInt8 → List UInt8) (radix : Nat) : Except Error Ff1 :=
  withMinDomain encryptBlock radix minDomain

def newLegacy (encryptBlock : List UInt8 → List UInt8) (radix : Nat) : Except Error Ff1 :=
  withMinDomain encryptBlock radix legacyMinDomain
variable (f : Ff1)
def xorBytes (x y : List UInt8) : List UInt8 := List.zipWith (· ^^^ ·) x y

/-- The CBC-MAC over the whole blocks of `data`, from `state`. -/
def prfFrom (state data : List UInt8) : List UInt8 :=
  (List.range (data.length / 16)).foldl
    (fun r i => f.encryptBlock (xorBytes r ((data.drop (16 * i)).take 16))) state
section Layout
variable (tweak : List UInt8) (n : Nat)
def lenU : Nat := n / 2
def lenV : Nat := n - lenU n

def modU : BoxedUint := radixPow f.radix (lenU n)
def modV : BoxedUint := radixPow f.radix (lenV n)
def blen : Nat := (((f.modV n).sub (.fromU64 1#64)).bitLen + 7) / 8
def dlen : Nat := 4 * ((f.blen n + 3) / 4) + 4
def blockP : List UInt8 :=
  [1, 2, 1] ++ beBytes 3 f.radix ++ [UInt8.ofNat rounds, UInt8.ofNat (lenU n % 256)] ++ beBytes 4 n ++
    beBytes 4 tweak.length
def pad : Nat := (16 - (tweak.length + f.blen n + 1) % 16) % 16

/-- The part of the second operand that comes before the round number. -/
def fixedQ : List UInt8 := tweak ++ List.replicate (f.pad tweak n) 0

/-- The bytes of `Q` that are the same in every round and fill blocks. -/
def fixed : Nat := (tweak.length + f.pad tweak n) / 16 * 16

/-- The chaining value after them. -/
def mac0Fixed : List UInt8 :=
  f.prfFrom (f.prfFrom (List.replicate 16 0) (f.blockP tweak n))
    ((f.fixedQ tweak n).take (f.fixed tweak n))

/-- The round value of round `i` for a half that is encoded as `num`. -/
def roundY (i : Nat) (num : List UInt8) : BoxedUint :=
  let q := f.fixedQ tweak n ++ [UInt8.ofNat i] ++ num
  let r := f.prfFrom (f.mac0Fixed tweak n) (q.drop (f.fixed tweak n))
  let blocks := (f.dlen n + 15) / 16
  let s := r ++ (List.range' 1 (blocks - 1)).flatMap fun j =>
    f.encryptBlock (xorBytes r (beBytes 16 j))
  .fromBeBytes (s.take (f.dlen n))

def modulus (i : Nat) : BoxedUint := if i % 2 = 0 then f.modU n else f.modV n

def encryptRound (i : Nat) (a b : BoxedUint) : Option (BoxedUint × BoxedUint) := do
  let num ← b.toBeBytes (f.blen n)
  let c ← (a.add (f.roundY tweak n i num)).reduce (f.modulus n i)
  return (b, c)

def decryptRound (i : Nat) (a b : BoxedUint) : Option (BoxedUint × BoxedUint) := do
  let num ← a.toBeBytes (f.blen n)
  let y ← (f.roundY tweak n i num).reduce (f.modulus n i)
  let c ← ((b.add (f.modulus n i)).sub y).reduce (f.modulus n i)
  return (c, a)

def run (forward : Bool) (a b : BoxedUint) : Nat → Option (BoxedUint × BoxedUint)
  | 0 => some (a, b)
  | k + 1 => do
      let (a, b) ← run forward a b k
      if forward then f.encryptRound tweak n k a b else f.decryptRound tweak n (rounds - 1 - k) a b
end Layout
/-- Algorithms 7 and 8.  No result means that a conversion or a reduction panicked. -/
def feistel (tweak : List UInt8) (digits : List UInt16) (forward : Bool) :
    Option (Except Error (List UInt16)) :=
  let n := digits.length
  if n < f.minLen ∨ 2 ^ 32 ≤ n then some (.error .invalidLength)
  else if 2 ^ 32 ≤ tweak.length then some (.error .invalidLength)
  else if digits.any (fun d => decide (f.radix ≤ d.toNat)) then some (.error .invalidDigit)
  else do
    let a := numRadix (digits.take (lenU n)) f.radix
    let b := numRadix (digits.drop (lenU n)) f.radix
    let (a, b) ← f.run tweak n forward a b rounds
    return .ok (strRadix a (lenU n) f.radix ++ strRadix b (lenV n) f.radix)

def encrypt (tweak : List UInt8) (digits : List UInt16) : Option (Except Error (List UInt16)) :=
  f.feistel tweak digits true

def decrypt (tweak : List UInt8) (digits : List UInt16) : Option (Except Error (List UInt16)) :=
  f.feistel tweak digits false
end Ff1
end PureCrypto.Fpe
