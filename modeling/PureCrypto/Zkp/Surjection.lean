import PureCrypto.Framework.GroupSignatures
import PureCrypto.Zkp.Curve

/-!
# Asset surjection proofs

`zkp/surjection.rs` over any group whose scalars are the residues of an order below `2 ^ 256`, with any
hash function and any encoding of points.
-/
namespace PureCrypto.Zkp
open ByteArrays LittleEndian
open Scalar (fromBytesBe fromBytesBeReduce toBytesBe)
namespace Curve
variable {q : Nat} {P : Type} (C : Curve q P)
def challenge (prev : List UInt8) (m : Vector UInt8 32) (ring idx : Nat) : Vector UInt8 32 :=
  C.sha256 (prev ++ m.toList ++ beBytes 4 ring ++ beBytes 4 idx)

/-- The hash that closes the ring. -/
def close (r : Vector UInt8 33) (m : Vector UInt8 32) : Vector UInt8 32 := C.sha256 (r.toList ++ m.toList)
variable [AddCommGroup P] [DecidableEq P]
/-- Zeros stand for the identity. -/
def serPoint (p : P) : Vector UInt8 33 := if p = 0 then Vector.replicate 33 0 else C.toSec1Compressed p

/-- Every input generator, and the output generator last. -/
def message (inputs : List P) (output : P) : Vector UInt8 32 :=
  C.sha256 (inputs.flatMap (fun g => (C.serPoint g).toList) ++ (C.serPoint output).toList)
end Curve
def maxNInputs : Nat := 256

def bitmapLen (nInputs : Nat) : Nat := (nInputs + 7) / 8
def bit (bitmap : List UInt8) (i : Nat) : Bool := (bitmap.getD (i / 8) 0).toNat.testBit (i % 8)

/-- A bitmap with no bits beyond the inputs. -/
structure AnonymitySet where
  nInputs : Nat
  used : List UInt8
  nInputs_le : nInputs ≤ maxNInputs
  length_used : used.length = bitmapLen nInputs
  bit_beyond : ∀ i, nInputs ≤ i → bit used i = false

def AnonymitySet.usedInputs (a : AnonymitySet) : List Nat := (List.range a.nInputs).filter (bit a.used)

/-- One scalar for each input in the set. -/
@[ext] structure SurjectionProof extends AnonymitySet where
  e0 : Vector UInt8 32
  s : List (Vector UInt8 32)
  length_s : s.length = toAnonymitySet.usedInputs.length
section Generate
variable {q : Nat} {P : Type} (C : Curve q P)
/-- At most `tries` draws from `k` on, until one is a scalar other than zero. -/
def randomScalar (draws : Nat → Vector UInt8 32) : Nat → Nat → Except Error (ZMod q × Nat)
  | _, 0 => .error .invalidInput
  | k, tries + 1 =>
    match (fromBytesBe (draws k) : Except Error (ZMod q)) with
    | .ok s => if s = 0 then randomScalar draws (k + 1) tries else .ok (s, k + 1)
    | .error _ => randomScalar draws (k + 1) tries

def randomScalars (draws : Nat → Vector UInt8 32) :
    Nat → (count : Nat) → Except Error (List.Vector (ZMod q) count × Nat)
  | k, 0 => .ok (List.Vector.nil, k)
  | k, count + 1 => do
      let (s, k) ← randomScalar draws k 64
      let (rest, k) ← randomScalars draws k count
      return (s ::ᵥ rest, k)

/-- The bytes `purecrypto/zkp-surjection/nonce`. -/
def nonceTag : List UInt8 := "purecrypto/zkp-surjection/nonce".toList.map fun c => c.val.toUInt8

def deriveNonces (a : AnonymitySet) (secret : ZMod q) (m : Vector UInt8 32) (pos ring : Nat) :
    ZMod q × List.Vector (ZMod q) ring :=
  let seed := C.sha256 (nonceTag ++ (toBytesBe secret).toList ++ m.toList ++ leBytes 2 a.nInputs ++
    a.used ++ beBytes 4 pos)
  let derive (counter : Nat) : ZMod q := fromBytesBeReduce (C.sha256 (seed.toList ++ beBytes 4 counter))
  (derive (2 ^ 32 - 1), List.Vector.ofFn fun j => derive j)

/-- The nonce and the decoys, drawn or derived. -/
def nonces (a : AnonymitySet) (rng : Option (Nat → Vector UInt8 32)) (secret : ZMod q)
    (m : Vector UInt8 32) (pos ring : Nat) : Except Error (ZMod q × List.Vector (ZMod q) ring) :=
  match rng with
  | some draws => do
      let (s, k) ← randomScalars draws 0 ring
      let (nonce, _) ← randomScalar draws k 64
      return (nonce, s)
  | none => .ok (deriveNonces C a secret m pos ring)
variable [AddCommGroup P] [DecidableEq P] [Module (ZMod q) P]
/-- The last position of `index`, and whether there is one. -/
def findPos (index : Nat) (used : List Nat) : Nat × Bool :=
  used.zipIdx.foldl (fun (pos, found) (u, j) => if u = index then (j, true) else (pos, found)) (0, false)

def selectKey (keys : List P) (pos : Nat) : P :=
  keys.zipIdx.foldl (fun selected (k, j) => if j = pos then k else selected) 0

/-- The first walk, seeded again behind the signer. -/
def forwardWalk (m : Vector UInt8 32) (nonceCommit : Vector UInt8 33) (pos : Nat) :
    Nat → Vector UInt8 33 → List (ZMod q × P) → Vector UInt8 33
  | _, prev, [] => prev
  | j, prev, (sj, kj) :: rest =>
    let input := if j = pos + 1 then nonceCommit else prev
    let e : ZMod q := fromBytesBeReduce (C.challenge input.toList m 0 j)
    forwardWalk m nonceCommit pos (j + 1) (C.serPoint (sj • C.generator + e • kj)) rest

def signerWalk (m : Vector UInt8 32) (pos : Nat) :
    Nat → Vector UInt8 32 → Vector UInt8 32 → List (ZMod q × P) → Vector UInt8 32
  | _, _, eSigner, [] => eSigner
  | j, e, eSigner, (sj, kj) :: rest =>
    let eSigner := if j = pos then e else eSigner
    let es : ZMod q := fromBytesBeReduce e
    let r := C.serPoint (sj • C.generator + es • kj)
    signerWalk m pos (j + 1) (C.challenge r.toList m 0 (j + 1)) eSigner rest

def ringKeys (inputs : List P) (output : P) (used : List Nat) : List P :=
  used.map fun i => output + -inputs.getD i 0

/-- The point that closes the ring, the nonce's own where the signer is the last member. -/
def lastPoint (m : Vector UInt8 32) (keys : List P) (nonce : ZMod q) (pos : Nat) {ring : Nat}
    (s : List.Vector (ZMod q) ring) : Vector UInt8 33 :=
  let nonceCommit := C.serPoint (nonce • C.generator)
  let prev := forwardWalk C m nonceCommit pos 0 (Vector.replicate 33 0) (s.toList.zip keys)
  if pos = ring - 1 then nonceCommit else prev

/-- The scalars, the signer's solved for its challenge. -/
def solve (m : Vector UInt8 32) (keys : List P) (secret nonce : ZMod q) (pos : Nat) {ring : Nat}
    (s : List.Vector (ZMod q) ring) (e0 : Vector UInt8 32) : List.Vector (Vector UInt8 32) ring :=
  let eSigner := signerWalk C m pos 0 (C.challenge e0.toList m 0 0) (Vector.replicate 32 0) (s.toList.zip keys)
  let signer := nonce - fromBytesBeReduce eSigner * secret
  ⟨s.toList.zipIdx.map fun (sj, j) => if j = pos then toBytesBe signer else toBytesBe sj, by simp⟩

def SurjectionProof.generate (self : SurjectionProof) (inputs : List P) (output : P) (inputIndex : Nat)
    (inputBlind outputBlind : Vector UInt8 32) (rng : Option (Nat → Vector UInt8 32)) :
    Except Error SurjectionProof :=
  let used := self.usedInputs
  if inputs.length ≠ self.nInputs ∨ used.length = 0 ∨ self.nInputs ≤ inputIndex then .error .invalidInput
  else do
    let m := C.message inputs output
    let keys := ringKeys inputs output used
    let outputBlind ← (fromBytesBe outputBlind : Except Error (ZMod q))
    let inputBlind ← (fromBytesBe inputBlind : Except Error (ZMod q))
    let secret := outputBlind - inputBlind
    if secret = 0 then .error .invalidInput
    else
      let (pos, found) := findPos inputIndex used
      if found = false then .error .invalidInput
      else if secret • C.generator ≠ selectKey keys pos then .error .invalidInput
      else do
        let (nonce, s) ← nonces C self.toAnonymitySet rng secret m pos used.length
        let e0 := C.close (lastPoint C m keys nonce pos s) m
        let out := solve C m keys secret nonce pos s e0
        return { self with e0 := e0, s := out.toList, length_s := out.toList_length }
end Generate
section Verify
variable {q : Nat} {P : Type} [AddCommGroup P] [DecidableEq P] [Module (ZMod q) P] (C : Curve q P)
/-- Over the keys and scalars from position `j` on, with `r` the last point. -/
def verifyLoop (m : Vector UInt8 32) (ring : Nat) :
    Nat → Vector UInt8 32 → Vector UInt8 33 → List (P × Vector UInt8 32) → Except Error (Vector UInt8 33)
  | _, _, r, [] => .ok r
  | j, e, _, (key, sj) :: rest =>
    match (fromBytesBe sj : Except Error (ZMod q)) with
    | .error _ => .error .verification
    | .ok s =>
      if s = 0 ∨ key = 0 then .error .verification
      else
        let es : ZMod q := fromBytesBeReduce e
        let point := s • C.generator + es • key
        if point = 0 then .error .verification
        else
          let r := C.toSec1Compressed point
          verifyLoop m ring (j + 1) (if j + 1 < ring then C.challenge r.toList m 0 (j + 1) else e) r rest

def SurjectionProof.verify (self : SurjectionProof) (inputs : List P) (output : P) : Except Error Unit :=
  if inputs.length ≠ self.nInputs then .error .invalidInput
  else
    let used := self.usedInputs
    if used.length = 0 ∨ used.length ≠ self.s.length then .error .verification
    else do
      let m := C.message inputs output
      let r ← verifyLoop C m used.length 0 (C.challenge self.e0.toList m 0 0) (Vector.replicate 33 0)
        ((ringKeys inputs output used).zip self.s)
      if C.close r m = self.e0 then .ok () else .error .verification
end Verify
end PureCrypto.Zkp
