import Mathlib.Data.ZMod.Basic
import PureCrypto.Framework.ByteArrays

/-! # The group of the proofs -/
namespace PureCrypto.Zkp
open ByteArrays LittleEndian
inductive Error
  | invalidInput
  | verification
  | malformed
deriving DecidableEq, Repr

structure Curve (q : Nat) (P : Type) where
  generator : P
  /-- Of any point but the identity. -/
  toSec1Compressed : P → Vector UInt8 33
  sha256 : List UInt8 → Vector UInt8 32
  order_le : q ≤ 256 ^ 32
namespace Scalar
variable {q : Nat}
/-- A canonical scalar. -/
def fromBytesBe (b : Vector UInt8 32) : Except Error (ZMod q) :=
  if beNat b.toList < q then .ok (beNat b.toList : ZMod q) else .error .invalidInput

def fromBytesBeReduce (b : Vector UInt8 32) : ZMod q := (beNat b.toList : ZMod q)

def toBytesBe (s : ZMod q) : Vector UInt8 32 := arrayAt 32 (beBytes 32 s.val) 0
end Scalar
section Scalars
variable {q : Nat}
theorem fromBytesBe_eq_ok {b : Vector UInt8 32} {s : ZMod q} (h : Scalar.fromBytesBe b = .ok s) :
    Scalar.fromBytesBeReduce b = s := by
  unfold Scalar.fromBytesBe at h
  split_ifs at h
  exact Except.ok.inj h

theorem fromBytesBe_toBytesBe [NeZero q] (hq : q ≤ 256 ^ 32) (s : ZMod q) :
    Scalar.fromBytesBe (Scalar.toBytesBe s) = .ok s := by
  have hlt := s.val_lt
  have hread : beNat (Scalar.toBytesBe s).toList = s.val := by
    rw [Scalar.toBytesBe,toList_arrayAt (length_beBytes ..),beNat_beBytes,Nat.mod_eq_of_lt (hlt.trans_le hq)]
  rw [Scalar.fromBytesBe,hread,if_pos hlt,ZMod.natCast_zmod_val]

theorem toBytesBe_of_fromBytesBe {b : Vector UInt8 32} {s : ZMod q} (h : Scalar.fromBytesBe b = .ok s) :
    Scalar.toBytesBe s = b := by
  unfold Scalar.fromBytesBe at h
  split_ifs at h with hlt
  rw [← Except.ok.inj h,Scalar.toBytesBe,ZMod.val_natCast_of_lt hlt]
  have hbytes := beBytes_beNat b.toList
  rw [b.length_toList] at hbytes
  rw [hbytes]
  simpa using arrayAt_append b []
end Scalars
end PureCrypto.Zkp
