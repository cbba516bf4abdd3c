import PureCrypto.Bignum.Montgomery
import PureCrypto.Framework.ByteArrays

/-!
# The private operation of RSA

`rsa/keys.rs`: the exponentiation `c ^ d` modulo `n`, blinded by a random factor, at full width or through the
prime factors.  A call that panics has no result.
-/
namespace PureCrypto.Rsa
open Bignum ByteArrays
/-- The hash functions, of 32 bytes each. -/
structure Hashes where
  sha256 : List UInt8 → Vector UInt8 32
  hmacSha256 : Vector UInt8 32 → List UInt8 → Vector UInt8 32

/-- The counter of a key and the salt of one operation. -/
structure BlindNonce where
  counter : BitVec 32
  salt : Vector UInt8 16

/-- Fresh entropy where the system has it, else the salt of the key. -/
def perOpBlindSalt (osEntropy : Option (Vector UInt8 16)) (saltOfKey : Vector UInt8 16) : Vector UInt8 16 :=
  osEntropy.getD saltOfKey

structure FixedRsaCrt (LIMBS : Nat) where
  dp : Uint LIMBS
  dq : Uint LIMBS
  qinv : Uint LIMBS
  montP : MontModulus LIMBS
  montQ : MontModulus LIMBS

structure RsaPrivateKey (LIMBS : Nat) where
  n : Uint LIMBS
  e : Uint LIMBS
  d : Uint LIMBS
  p : Uint LIMBS
  q : Uint LIMBS
  phiNMinus1 : Uint LIMBS
  blindingSeed : Vector UInt8 32
  blindCounter : BitVec 32
  blindSalt : Vector UInt8 16
  mont : Option (MontModulus LIMBS)
  crt : Option (FixedRsaCrt LIMBS)
variable {LIMBS : Nat} (H : Hashes)
def limbBytes (x : Uint LIMBS) : List UInt8 := x.limbs.reverse.flatMap fun limb => beBytes 8 limb.toNat

def montFor (n : Uint LIMBS) : Option (MontModulus LIMBS) := if n.isOdd then MontModulus.new n else none
def usable (r : Uint LIMBS) : Bool := r.isOdd && !(r.shrBits 2).isZero

def deriveCrtFixed (p q d : Uint LIMBS) : Option (Option (FixedRsaCrt LIMBS)) :=
  if !usable p || !usable q || p.ctEq q then some none
  else do
    let dp ← d.reduce (p.wrappingSub .one)
    let dq ← d.reduce (q.wrappingSub .one)
    let montP ← MontModulus.newSecret p
    let montQ ← MontModulus.newSecret q
    let qinv := montP.powBits (montP.reduce q) (p.wrappingSub (.fromU64 2#64)) (64 * montP.limbs)
    some (some ⟨dp, dq, qinv, montP, montQ⟩)

def seedDomain : List UInt8 := "purecrypto-rsa-blinding-seed-v1".toList.map fun c => c.val.toUInt8

def deriveBlinding (p q d : Uint LIMBS) : Uint LIMBS × Vector UInt8 32 :=
  let phiNMinus1 :=
    if p.ctEq .zero || q.ctEq .zero then .zero
    else (((p.wrappingSub .one).mulWide (q.wrappingSub .one)).1).wrappingSub .one
  (phiNMinus1, H.sha256 (seedDomain ++ limbBytes d))

/-- The blinder's limbs, the most significant first: four from each tag, as many as remain. -/
def blinderLimbs (tag : Nat → Vector UInt8 32) (remaining counter : Nat) : List Limb :=
  if remaining = 0 then []
  else
    let limbs := (List.range 4).map fun j => BitVec.ofNat 64 (beNat (arrayAt 8 (tag counter).toList (j * 8)).toList)
    limbs.take remaining ++ blinderLimbs tag (remaining - 4) (counter + 1)
termination_by remaining

def deriveBlinderFixed (modulus : MontModulus LIMBS) (blindingSeed : Vector UInt8 32) (nonce : BlindNonce)
    (c : Uint LIMBS) : Uint LIMBS :=
  let tag counter := H.hmacSha256 blindingSeed
    ([0x72] ++ beBytes 4 counter ++ beBytes 4 nonce.counter.toNat ++ nonce.salt.toList ++ limbBytes c)
  let rRaw : Uint LIMBS := .fromSlice (blinderLimbs tag LIMBS 0).reverse
  let r := modulus.reduce rRaw
  let bad := r.ctEq .zero || r.ctEq .one
  Uint.conditionalSelect (.fromU64 2#64) r bad

def rawPrivateBlinded (modulus : MontModulus LIMBS) (e d phiNMinus1 : Uint LIMBS) (blindingSeed : Vector UInt8 32)
    (nonce : BlindNonce) (c : Uint LIMBS) : Uint LIMBS :=
  if phiNMinus1.ctEq .zero then modulus.pow c d
  else
    let r := deriveBlinderFixed H modulus blindingSeed nonce c
    let rE := modulus.powPublic r e
    let cBlind := modulus.mulMod c rE
    modulus.pow2 cBlind d r phiNMinus1

/-- The power modulo one prime, with the inverse of the blinder in the same ladder. -/
def half (cBlind r : Uint LIMBS) (mp : MontModulus LIMBS) (prime dx : Uint LIMBS) : Uint LIMBS :=
  let cx := mp.reduce cBlind
  let rx := mp.reduce r
  let xm2 := prime.wrappingSub (.fromU64 2#64)
  mp.pow2Bits cx dx rx xm2 (64 * mp.limbs)

def rawPrivateCrtBlinded (key : RsaPrivateKey LIMBS) (modulus : MontModulus LIMBS) (crt : FixedRsaCrt LIMBS)
    (nonce : BlindNonce) (c : Uint LIMBS) : Uint LIMBS :=
  let r := deriveBlinderFixed H modulus key.blindingSeed nonce c
  let rE := modulus.powPublic r key.e
  let cBlind := modulus.mulMod c rE
  let mP := half cBlind r crt.montP key.p crt.dp
  let mQ := half cBlind r crt.montQ key.q crt.dq
  let mQModP := crt.montP.reduce mQ
  let diff := subMod crt.montP.modulus mP mQModP
  let h := crt.montP.mulMod diff crt.qinv
  mQ.wrappingAdd (key.q.mulWide h).1
namespace RsaPrivateKey
def fromComponentsWithPrimes (freshSalt : Vector UInt8 16) (n e d p q : Uint LIMBS) : Option (RsaPrivateKey LIMBS) := do
  let (phiNMinus1, blindingSeed) := deriveBlinding H p q d
  let mont := montFor n
  let crt ← deriveCrtFixed p q d
  some ⟨n, e, d, p, q, phiNMinus1, blindingSeed, 0, freshSalt, mont, crt⟩

/-- The result, and the key with its counter advanced. -/
def raw (osEntropy : Option (Vector UInt8 16)) (key : RsaPrivateKey LIMBS) (c : Uint LIMBS) :
    Option (Uint LIMBS × RsaPrivateKey LIMBS) := do
  let modulus ← key.mont
  let nonce : BlindNonce := ⟨key.blindCounter, perOpBlindSalt osEntropy key.blindSalt⟩
  let key' := { key with blindCounter := key.blindCounter + 1 }
  let fullWidth := rawPrivateBlinded H modulus key.e key.d key.phiNMinus1 key.blindingSeed nonce c
  match key.crt with
  | none => some (fullWidth, key')
  | some crt =>
    let m := rawPrivateCrtBlinded H key modulus crt nonce c
    let cModN := if c.ctLt key.n then c else modulus.reduce c
    if (modulus.powPublic m key.e).ctEq cModN then some (m, key')
    else if (modulus.powPublic fullWidth key.e).ctEq cModN then some (fullWidth, key')
    else some (.zero, key')
end RsaPrivateKey
end PureCrypto.Rsa
