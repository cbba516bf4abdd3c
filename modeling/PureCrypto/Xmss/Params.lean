import Mathlib.Algebra.Group.Nat.Defs
import Mathlib.Data.Nat.Basic

/-!
# Parameter sets

`xmss/params.rs`.
-/
namespace PureCrypto.Xmss
inductive HashFamily
  | sha2_256
  | shake128
  | shake256
deriving DecidableEq, Repr

structure Params where
  n : Nat
  paddingLen : Nat
  /-- The height of the whole tree. -/
  fullHeight : Nat
  /-- The number of layers. -/
  d : Nat
  /-- The height of one subtree. -/
  treeHeight : Nat
  wotsLogW : Nat
  wotsW : Nat
  wotsLen1 : Nat
  wotsLen2 : Nat
  wotsLen : Nat
  family : HashFamily
  indexBytes : Nat
namespace Params
def wotsSigBytes (p : Params) : Nat := p.wotsLen * p.n

def sigBytes (p : Params) : Nat := p.indexBytes + p.n + p.d * p.wotsSigBytes + p.fullHeight * p.n
def skBytes (p : Params) : Nat := p.indexBytes + 4 * p.n
def pkBytes (p : Params) : Nat := 2 * p.n

/-- Where the index field has no bit to spare for `2 ^ h`, the last leaf is given up. -/
def exhaustedIndex (p : Params) : Option Nat :=
  if 64 ≤ p.fullHeight then none
  else if p.indexBytes * 8 = p.fullHeight then some (2 ^ p.fullHeight - 1)
  else some (2 ^ p.fullHeight)
end Params
def make (n fullHeight d : Nat) (family : HashFamily) : Params where
  n := n
  paddingLen := if n = 24 then 4 else n
  fullHeight := fullHeight
  d := d
  treeHeight := fullHeight / d
  wotsLogW := 4
  wotsW := 16
  wotsLen1 := 8 * n / 4
  wotsLen2 := 3
  wotsLen := 8 * n / 4 + 3
  family := family
  indexBytes := if d = 1 then 4 else (fullHeight + 7) / 8

inductive XmssParamSet
  | sha2_10_256
  | sha2_16_256
  | sha2_20_256
  | shake_10_256
  | shake_16_256
  | shake_20_256
  | sha2_10_192
  | sha2_16_192
  | sha2_20_192
  | shake256_10_256
  | shake256_16_256
  | shake256_20_256
deriving DecidableEq, Repr
namespace XmssParamSet
def oid : XmssParamSet → Nat
  | sha2_10_256 => 0x1
  | sha2_16_256 => 0x2
  | sha2_20_256 => 0x3
  | shake_10_256 => 0x7
  | shake_16_256 => 0x8
  | shake_20_256 => 0x9
  | sha2_10_192 => 0xd
  | sha2_16_192 => 0xe
  | sha2_20_192 => 0xf
  | shake256_10_256 => 0x10
  | shake256_16_256 => 0x11
  | shake256_20_256 => 0x12

def fromOid (oid : Nat) : Option XmssParamSet :=
  match oid with
  | 0x1 => some sha2_10_256
  | 0x2 => some sha2_16_256
  | 0x3 => some sha2_20_256
  | 0x7 => some shake_10_256
  | 0x8 => some shake_16_256
  | 0x9 => some shake_20_256
  | 0xd => some sha2_10_192
  | 0xe => some sha2_16_192
  | 0xf => some sha2_20_192
  | 0x10 => some shake256_10_256
  | 0x11 => some shake256_16_256
  | 0x12 => some shake256_20_256
  | _ => none

def params : XmssParamSet → Params
  | sha2_10_256 => make 32 10 1 .sha2_256
  | sha2_16_256 => make 32 16 1 .sha2_256
  | sha2_20_256 => make 32 20 1 .sha2_256
  | shake_10_256 => make 32 10 1 .shake128
  | shake_16_256 => make 32 16 1 .shake128
  | shake_20_256 => make 32 20 1 .shake128
  | sha2_10_192 => make 24 10 1 .sha2_256
  | sha2_16_192 => make 24 16 1 .sha2_256
  | sha2_20_192 => make 24 20 1 .sha2_256
  | shake256_10_256 => make 32 10 1 .shake256
  | shake256_16_256 => make 32 16 1 .shake256
  | shake256_20_256 => make 32 20 1 .shake256

theorem fromOid_oid (set : XmssParamSet) : fromOid set.oid = some set := by
  cases set <;> rfl
end XmssParamSet
inductive XmssMtParamSet
  | sha2_20_2_256
  | sha2_20_4_256
  | sha2_40_2_256
  | sha2_40_4_256
  | sha2_40_8_256
  | sha2_60_3_256
  | sha2_60_6_256
  | sha2_60_12_256
  | shake_20_2_256
  | shake_20_4_256
deriving DecidableEq, Repr
namespace XmssMtParamSet
def oid : XmssMtParamSet → Nat
  | sha2_20_2_256 => 0x1
  | sha2_20_4_256 => 0x2
  | sha2_40_2_256 => 0x3
  | sha2_40_4_256 => 0x4
  | sha2_40_8_256 => 0x5
  | sha2_60_3_256 => 0x6
  | sha2_60_6_256 => 0x7
  | sha2_60_12_256 => 0x8
  | shake_20_2_256 => 0x11
  | shake_20_4_256 => 0x12

def fromOid (oid : Nat) : Option XmssMtParamSet :=
  match oid with
  | 0x1 => some sha2_20_2_256
  | 0x2 => some sha2_20_4_256
  | 0x3 => some sha2_40_2_256
  | 0x4 => some sha2_40_4_256
  | 0x5 => some sha2_40_8_256
  | 0x6 => some sha2_60_3_256
  | 0x7 => some sha2_60_6_256
  | 0x8 => some sha2_60_12_256
  | 0x11 => some shake_20_2_256
  | 0x12 => some shake_20_4_256
  | _ => none

def params : XmssMtParamSet → Params
  | sha2_20_2_256 => make 32 20 2 .sha2_256
  | sha2_20_4_256 => make 32 20 4 .sha2_256
  | sha2_40_2_256 => make 32 40 2 .sha2_256
  | sha2_40_4_256 => make 32 40 4 .sha2_256
  | sha2_40_8_256 => make 32 40 8 .sha2_256
  | sha2_60_3_256 => make 32 60 3 .sha2_256
  | sha2_60_6_256 => make 32 60 6 .sha2_256
  | sha2_60_12_256 => make 32 60 12 .sha2_256
  | shake_20_2_256 => make 32 20 2 .shake128
  | shake_20_4_256 => make 32 20 4 .shake128

theorem fromOid_oid (set : XmssMtParamSet) : fromOid set.oid = some set := by
  cases set <;> rfl
end XmssMtParamSet
/-- A single-tree or a multi-tree set. -/
inductive ParamSet
  | xmss (set : XmssParamSet)
  | xmssMt (set : XmssMtParamSet)

def ParamSet.params : ParamSet → Params
  | xmss set => set.params
  | xmssMt set => set.params

/-- Layers of one height make up the tree, and its index fits in the field and in 64 bits. -/
structure Params.Valid (p : Params) : Prop where
  fullHeight_eq : p.fullHeight = p.d * p.treeHeight
  treeHeight_pos : 0 < p.treeHeight
  treeHeight_lt : p.treeHeight < 32
  d_pos : 0 < p.d
  fullHeight_lt : p.fullHeight < 64
  fullHeight_le : p.fullHeight ≤ 8 * p.indexBytes
  indexBytes_le : p.indexBytes ≤ 8
  wotsW_eq : p.wotsW = 16
  wotsLogW_eq : p.wotsLogW = 4
  wotsLen_eq : p.wotsLen = p.wotsLen1 + p.wotsLen2

theorem ParamSet.valid (set : ParamSet) : set.params.Valid := by
  cases set with
  | xmss set => cases set <;> constructor <;> decide
  | xmssMt set => cases set <;> constructor <;> decide

theorem XmssParamSet.valid (set : XmssParamSet) : set.params.Valid := (ParamSet.xmss set).valid
theorem XmssMtParamSet.valid (set : XmssMtParamSet) : set.params.Valid := (ParamSet.xmssMt set).valid
end PureCrypto.Xmss
