import PureCrypto.Zkp.Curve

/-!
# ECDSA adaptor signatures

`zkp/adaptor.rs`: an ECDSA signature encrypted under a point, with a proof that its two nonce points have
one logarithm.  162 bytes: `R`, `R_a`, `s_a` and the proof's challenge and response.
-/
namespace PureCrypto.Zkp
open ByteArrays
open Scalar (toBytesBe fromBytesBeReduce fromBytesBe)
/-- A point shares its x-coordinate with its negative. -/
structure AffineCurve (q : Nat) (P : Type) [AddCommGroup P] extends Curve q P where
  fromSec1 : Vector UInt8 33 → Except Error P
  xBytes : P → Vector UInt8 32
  generator_ne_zero : generator ≠ 0
  fromSec1_toSec1Compressed : ∀ p, p ≠ 0 → fromSec1 (toSec1Compressed p) = .ok p
  ne_zero_of_fromSec1 : ∀ b p, fromSec1 b = .ok p → p ≠ 0
  xBytes_neg : ∀ p, xBytes (-p) = xBytes p
namespace Adaptor
variable {q : Nat} {P : Type} [AddCommGroup P] [DecidableEq P] [Module (ZMod q) P] (C : AffineCurve q P)
def adaptorSignatureLen : Nat := 162

/-- The largest low half of a signature. -/
def halfOrder (q : Nat) : Vector UInt8 32 := arrayAt 32 (beBytes 32 ((q - 1) / 2)) 0

-- The constant of the source, for the order of its curve.
example : (halfOrder 0xfffffffffffffffffffffffffffffffebaaedce6af48a03bbfd25e8cd0364141).toList =
    [0x7f, 0xff, 0xff, 0xff, 0xff, 0xff, 0xff, 0xff, 0xff, 0xff, 0xff, 0xff, 0xff, 0xff, 0xff, 0xff,
      0x5d, 0x57, 0x6e, 0x73, 0x57, 0xa4, 0x50, 0x1d, 0xdf, 0xe9, 0x2f, 0x46, 0x68, 0x1b, 0x20, 0xa0] := by
  decide +kernel

def tagBytes (tag : String) : List UInt8 := tag.toList.map fun c => c.val.toUInt8
def algoEncrypt : List UInt8 := tagBytes "ECDSAadaptor/non"
def algoDleq : List UInt8 := tagBytes "DLEQ"
def tagAux : List UInt8 := tagBytes "ECDSAadaptor/aux"
def tagDleq : List UInt8 := tagBytes "DLEQ"
def taggedHash (tag : List UInt8) (parts : List (List UInt8)) : Vector UInt8 32 :=
  C.sha256 ((C.sha256 tag).toList ++ (C.sha256 tag).toList ++ parts.flatten)

def hardenedNonce (algo : List UInt8) (key32 : Vector UInt8 32) (pk33 : Vector UInt8 33) (msg32 : Vector UInt8 32)
    (aux : Option (Vector UInt8 32)) : Vector UInt8 32 :=
  let t := match aux with
    | some a => Vector.zipWith (· ^^^ ·) key32 (taggedHash C tagAux [a.toList])
    | none => key32
  taggedHash C algo [t.toList, pk33.toList, msg32.toList]

/-- The identity has no affine form. -/
def toAffine (p : P) (e : Error) : Except Error P := if p = 0 then .error e else .ok p

def dleqChallenge (x y z aG aY : P) : ZMod q :=
  fromBytesBeReduce (taggedHash C tagDleq
    [(C.toSec1Compressed x).toList, (C.toSec1Compressed y).toList, (C.toSec1Compressed z).toList,
      (C.toSec1Compressed aG).toList, (C.toSec1Compressed aY).toList])

/-- The challenge and the response. -/
def dleqProve (k : ZMod q) (kBytes : Vector UInt8 32) (x y z : P) (aux : Option (Vector UInt8 32)) :
    Except Error (Vector UInt8 32 × Vector UInt8 32) := do
  let inner := C.sha256 ((C.toSec1Compressed x).toList ++ (C.toSec1Compressed z).toList)
  let a : ZMod q ← fromBytesBe (hardenedNonce C algoDleq kBytes (C.toSec1Compressed y) inner aux)
  if a = 0 then .error .invalidInput
  else do
    let aG ← toAffine (a • C.generator) .invalidInput
    let aY ← toAffine (a • y) .invalidInput
    let b := dleqChallenge C x y z aG aY
    return (toBytesBe b, toBytesBe (a + b * k))

/-- A scalar of the proof. -/
def proofScalar (b : Vector UInt8 32) : Except Error (ZMod q) :=
  (fromBytesBe b).mapError fun _ => .verification

def dleqVerify (x y z : P) (proof : Vector UInt8 32 × Vector UInt8 32) : Except Error Unit := do
  let b : ZMod q ← proofScalar proof.1
  let c : ZMod q ← proofScalar proof.2
  if b = 0 ∨ c = 0 then .error .verification
  else do
    let aG ← toAffine (c • C.generator + -b • x) .verification
    let aY ← toAffine (c • y + -b • z) .verification
    if dleqChallenge C x y z aG aY = b then .ok () else .error .verification

structure Parsed (q : Nat) (P : Type) where
  rPoint : P
  rA : P
  sA : ZMod q
  proof : Vector UInt8 32 × Vector UInt8 32

def parse (sig : Vector UInt8 adaptorSignatureLen) : Except Error (Parsed q P) := do
  let rPoint ← C.fromSec1 (arrayAt 33 sig.toList 0)
  let rA ← C.fromSec1 (arrayAt 33 sig.toList 33)
  let sA : ZMod q ← fromBytesBe (arrayAt 32 sig.toList 66)
  if sA = 0 then .error .invalidInput
  else return ⟨rPoint, rA, sA, (arrayAt 32 sig.toList 98, arrayAt 32 sig.toList 130)⟩

def serialize (rPoint rA : P) (sA : ZMod q) (proof : Vector UInt8 32 × Vector UInt8 32) :
    Vector UInt8 adaptorSignatureLen :=
  arrayAt adaptorSignatureLen ((C.toSec1Compressed rPoint).toList ++ ((C.toSec1Compressed rA).toList ++
    ((toBytesBe sA).toList ++ (proof.1.toList ++ proof.2.toList)))) 0

def rOf (p : P) : ZMod q := fromBytesBeReduce (C.xBytes p)

def encryptInner (seckey : Vector UInt8 32) (enckey : Vector UInt8 33) (msg32 : Vector UInt8 32)
    (aux : Option (Vector UInt8 32)) : Except Error (Vector UInt8 adaptorSignatureLen) := do
  let x : ZMod q ← fromBytesBe seckey
  if x = 0 then .error .invalidInput
  else do
    let yPoint ← C.fromSec1 enckey
    let kBytes := hardenedNonce C algoEncrypt seckey (C.toSec1Compressed yPoint) msg32 aux
    let k : ZMod q ← fromBytesBe kBytes
    if k = 0 then .error .invalidInput
    else do
      let rA ← toAffine (k • C.generator) .invalidInput
      let rPoint ← toAffine (k • yPoint) .invalidInput
      let proof ← dleqProve C k kBytes rA yPoint rPoint aux
      let m : ZMod q := fromBytesBeReduce msg32
      let r : ZMod q := rOf C rPoint
      if r = 0 then .error .invalidInput
      else
        let sA := k⁻¹ * (m + r * x)
        if sA = 0 then .error .invalidInput else return serialize C rPoint rA sA proof

def encrypt (seckey : Vector UInt8 32) (enckey : Vector UInt8 33) (msg32 : Vector UInt8 32) :
    Except Error (Vector UInt8 adaptorSignatureLen) :=
  encryptInner C seckey enckey msg32 none
def encryptWithAux (seckey : Vector UInt8 32) (enckey : Vector UInt8 33) (msg32 auxRand : Vector UInt8 32) :
    Except Error (Vector UInt8 adaptorSignatureLen) :=
  encryptInner C seckey enckey msg32 (some auxRand)

def verify (adaptorSig : Vector UInt8 adaptorSignatureLen) (pubkey enckey : Vector UInt8 33)
    (msg32 : Vector UInt8 32) : Except Error Unit := do
  let p : Parsed q P ← parse C adaptorSig
  let xPoint ← C.fromSec1 pubkey
  let yPoint ← C.fromSec1 enckey
  dleqVerify C p.rA yPoint p.rPoint p.proof
  let m : ZMod q := fromBytesBeReduce msg32
  let r : ZMod q := rOf C p.rPoint
  if r = 0 then .error .verification
  else if (p.sA⁻¹ * m) • C.generator + (p.sA⁻¹ * r) • xPoint = p.rA then .ok ()
  else .error .verification

/-- Whether an earlier byte was greater, and whether all were equal. -/
def ctGtStep (acc : UInt8 × UInt8) (x y : UInt8) : UInt8 × UInt8 :=
  let xGt := (((y.toUInt16 - x.toUInt16) >>> 8) &&& 1).toUInt8
  let xEq := ((((x ^^^ y).toUInt16 - 1) >>> 8) &&& 1).toUInt8
  (acc.1 ||| (xGt &&& acc.2), acc.2 &&& xEq)

def ctGtMask (a b : Vector UInt8 32) : UInt8 :=
  -((a.toList.zip b.toList).foldl (fun acc p => ctGtStep acc p.1 p.2) (0, 1)).1
def compact (r s : Vector UInt8 32) : Vector UInt8 64 := arrayAt 64 (r.toList ++ s.toList) 0

def decrypt (adaptorSig : Vector UInt8 adaptorSignatureLen) (secretY : Vector UInt8 32) :
    Except Error (Vector UInt8 64) := do
  let p : Parsed q P ← parse C adaptorSig
  let y : ZMod q ← fromBytesBe secretY
  if y = 0 then .error .invalidInput
  else
    let s := p.sA * y⁻¹
    if s = 0 then .error .invalidInput
    else
      let sBe := toBytesBe s
      let negBe := toBytesBe (-s)
      let high := ctGtMask sBe (halfOrder q)
      return compact (toBytesBe (rOf C p.rPoint : ZMod q))
        (Vector.zipWith (fun lo hi => (lo &&& ~~~high) ||| (hi &&& high)) sBe negBe)

def recover (enckey : Vector UInt8 33) (adaptorSig : Vector UInt8 adaptorSignatureLen) (sig : Vector UInt8 64) :
    Except Error (Vector UInt8 32) := do
  let p : Parsed q P ← parse C adaptorSig
  let yPoint ← C.fromSec1 enckey
  let r : ZMod q ← fromBytesBe (arrayAt 32 sig.toList 0)
  let s : ZMod q ← fromBytesBe (arrayAt 32 sig.toList 32)
  if s = 0 then .error .invalidInput
  else if r = 0 then .error .verification
  else if r ≠ rOf C p.rPoint then .error .verification
  else
    let y := s⁻¹ * p.sA
    if y = 0 then .error .verification
    else if y • C.generator = yPoint then .ok (toBytesBe y)
    else if y • C.generator = -yPoint then .ok (toBytesBe (-y))
    else .error .verification
end Adaptor
end PureCrypto.Zkp
