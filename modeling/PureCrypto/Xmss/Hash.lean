import PureCrypto.Framework.ByteArrays
import PureCrypto.Xmss.Params

/-!
# Addresses and keyed hash functions

`xmss/adrs.rs` and `xmss/hash.rs`.  The keyed functions are any functions of the key, the address and
the input; `ofCore` are those of the source over a hash of its family.
-/
namespace PureCrypto.Xmss
open ByteArrays
inductive AdrsType
  | ots
  | ltree
  | hashTree
deriving DecidableEq, Repr

def AdrsType.toUInt32 : AdrsType → UInt32
  | ots => 0
  | ltree => 1
  | hashTree => 2

structure Adrs where
  word0 : UInt32
  word1 : UInt32
  word2 : UInt32
  word3 : UInt32
  word4 : UInt32
  word5 : UInt32
  word6 : UInt32
  word7 : UInt32
deriving DecidableEq, Repr
namespace Adrs
def new : Adrs := ⟨0, 0, 0, 0, 0, 0, 0, 0⟩

def toBytes (a : Adrs) : Vector UInt8 32 :=
  arrayAt 32 ([a.word0, a.word1, a.word2, a.word3, a.word4, a.word5, a.word6, a.word7].flatMap
    fun w => beBytes 4 w.toNat) 0
def setLayer (a : Adrs) (layer : Nat) : Adrs := { a with word0 := UInt32.ofNat layer }
def setTree (a : Adrs) (tree : Nat) : Adrs :=
  { a with word1 := UInt32.ofNat (tree >>> 32), word2 := UInt32.ofNat tree }

/-- The words after the type start again from zero. -/
def setType (a : Adrs) (ty : AdrsType) : Adrs :=
  { a with word3 := ty.toUInt32, word4 := 0, word5 := 0, word6 := 0, word7 := 0 }

def copySubtree (a src : Adrs) : Adrs :=
  { a with word0 := src.word0, word1 := src.word1, word2 := src.word2 }
def setOts (a : Adrs) (ots : Nat) : Adrs := { a with word4 := UInt32.ofNat ots }
def setChain (a : Adrs) (chain : Nat) : Adrs := { a with word5 := UInt32.ofNat chain }
def setHash (a : Adrs) (hash : Nat) : Adrs := { a with word6 := UInt32.ofNat hash }
def setLtree (a : Adrs) (ltree : Nat) : Adrs := { a with word4 := UInt32.ofNat ltree }
def setTreeHeight (a : Adrs) (height : Nat) : Adrs := { a with word5 := UInt32.ofNat height }
def setTreeIndex (a : Adrs) (index : Nat) : Adrs := { a with word6 := UInt32.ofNat index }

def setKeyAndMask (a : Adrs) (k : Nat) : Adrs := { a with word7 := UInt32.ofNat k }
end Adrs
/-- `n` bytes: a hash value, a seed or a key. -/
abbrev Node (p : Params) : Type := Vector UInt8 p.n

def Node.xor {p : Params} (a b : Node p) : Node p := Vector.zipWith (· ^^^ ·) a b

structure HashFunctions (p : Params) where
  prf : Node p → Vector UInt8 32 → Node p
  /-- On the public seed and an address. -/
  prfKeygen : Node p → Node p → Vector UInt8 32 → Node p
  f : Node p → Node p → Node p
  /-- On two masked nodes. -/
  h : Node p → Node p → Node p → Node p
  hMsg : Node p → Node p → Nat → List UInt8 → Node p

/-- The functions of the source, over the hash of its family cut to `n` bytes. -/
def HashFunctions.ofCore (p : Params) (coreHash : HashFamily → List UInt8 → Node p) : HashFunctions p where
  prf key input := coreHash p.family (beBytes p.paddingLen 3 ++ key.toList ++ input.toList)
  prfKeygen key pubSeed adrs :=
    coreHash p.family (beBytes p.paddingLen 4 ++ key.toList ++ (pubSeed.toList ++ adrs.toList))
  f key masked := coreHash p.family (beBytes p.paddingLen 0 ++ key.toList ++ masked.toList)
  h key left right :=
    coreHash p.family (beBytes p.paddingLen 1 ++ key.toList ++ (left.toList ++ right.toList))
  hMsg r root idx msg :=
    coreHash p.family (beBytes p.paddingLen 2 ++ r.toList ++ root.toList ++ beBytes p.n idx ++ msg)
end PureCrypto.Xmss
