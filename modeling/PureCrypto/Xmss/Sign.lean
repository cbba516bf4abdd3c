import Mathlib.Data.List.Induction
import PureCrypto.Framework.Trace
import PureCrypto.Xmss.Tree

/-!
# Signing keys

Signing and verification over the layers, key generation, and the stateful keys of `xmss/mod.rs` with
their serialised form.
-/
namespace PureCrypto.Xmss
open ByteArrays Nat
section Core
variable {p : Params} (H : HashFunctions p)
/-- Big-endian, in 64 bits. -/
def bytesToIdx (b : List UInt8) : Nat := b.foldl (fun acc v => ((acc <<< 8) % 2 ^ 64) ||| v.toNat) 0

def idxToBytes (idx len : Nat) : List UInt8 := beBytes len idx

theorem bytesToIdx_eq (b : List UInt8) (h : b.length ≤ 8) : bytesToIdx b = beNat b := by
  induction b using List.reverseRecOn with
  | nil => rfl
  | append_singleton b v ih =>
    rw [List.length_append,List.length_singleton] at h
    have hlt : beNat b < 2 ^ 56 := by
      have hpow : 256 ^ b.length ≤ 256 ^ 7 := Nat.pow_le_pow_right (by decide) (by omega)
      have hbound := beNat_lt b
      omega
    have hstep : bytesToIdx (b ++ [v]) = ((bytesToIdx b <<< 8) % 2 ^ 64) ||| v.toNat := by
      simp [bytesToIdx]
    have hshift : beNat b <<< 8 = beNat b * 256 := shiftLeft_eq ..
    rw [hstep,ih (by omega),mod_eq_of_lt (by omega),← shiftLeft_add_eq_or_of_lt v.toNat_lt,hshift]
    simp [beNat]

theorem bytesToIdx_idxToBytes {idx len : Nat} (hlen : len ≤ 8) (hidx : idx < 256 ^ len) :
    bytesToIdx (idxToBytes idx len) = idx := by
  rw [bytesToIdx_eq _ (by rwa [idxToBytes,length_beBytes]),idxToBytes,beNat_beBytes,mod_eq_of_lt hidx]
def skSeed (p : Params) (bytes : List UInt8) : Node p := arrayAt p.n bytes p.indexBytes
def skPrf (p : Params) (bytes : List UInt8) : Node p := arrayAt p.n bytes (p.indexBytes + p.n)
def skRoot (p : Params) (bytes : List UInt8) : Node p := arrayAt p.n bytes (p.indexBytes + 2 * p.n)
def skPubSeed (p : Params) (bytes : List UInt8) : Node p := arrayAt p.n bytes (p.indexBytes + 3 * p.n)

/-- From `layer` on: what is signed, the index left, and the addresses and cache so far. -/
def signLoop (seed pubSeed : Node p) :
    Nat → Nat → Nat → Node p → Adrs → SubtreeCache p → SubtreeCache p × List UInt8
  | 0, _, _, _, _, cache => (cache, [])
  | count + 1, layer, curIdx, root, otsAddr, cache =>
    let idxLeaf := curIdx &&& (2 ^ p.treeHeight - 1)
    let tree := curIdx >>> p.treeHeight
    let otsAddr := ((otsAddr.setLayer layer).setTree tree).setOts idxLeaf
    let (otsAddr, wots) := wotsSign H root seed pubSeed otsAddr
    let (cache, path, subtreeRoot) := cache.authPath H seed pubSeed layer tree idxLeaf
    let (cache, rest) := signLoop seed pubSeed count (layer + 1) tree subtreeRoot otsAddr cache
    (cache, flat wots ++ flat path ++ rest)

def coreSign (sk : List UInt8) (idx : Nat) (msg : List UInt8) (cache : SubtreeCache p) :
    SubtreeCache p × List UInt8 :=
  let r := H.prf (skPrf p sk) (arrayAt 32 (beBytes 32 idx) 0)
  let mhash := H.hMsg r (skRoot p sk) idx msg
  let (cache, layers) := signLoop H (skSeed p sk) (skPubSeed p sk) p.d 0 idx mhash
    (Adrs.new.setType .ots) cache
  (cache, idxToBytes idx p.indexBytes ++ r.toList ++ layers)

def verifyLoop (pubSeed : Node p) : Nat → Nat → Nat → Node p → Adrs → Adrs → Adrs → List UInt8 → Node p
  | 0, _, _, root, _, _, _, _ => root
  | count + 1, layer, curIdx, root, otsAddr, ltreeAddr, nodeAddr, sig =>
    let idxLeaf := curIdx &&& (2 ^ p.treeHeight - 1)
    let tree := curIdx >>> p.treeHeight
    let otsAddr := ((otsAddr.setLayer layer).setTree tree).setOts idxLeaf
    let ltreeAddr := (ltreeAddr.setLayer layer).setTree tree
    let nodeAddr := (nodeAddr.setLayer layer).setTree tree
    let (otsAddr, wotsPk) := wotsPkFromSig H (arrays p.n p.wotsLen sig) root pubSeed otsAddr
    let sig := sig.drop p.wotsSigBytes
    let (ltreeAddr, leaf) := lTree H wotsPk pubSeed (ltreeAddr.setLtree idxLeaf)
    let path := arrays p.n p.treeHeight sig
    let sig := sig.drop (p.treeHeight * p.n)
    let (nodeAddr, root) := rootFromSig H idxLeaf leaf path pubSeed nodeAddr
    verifyLoop pubSeed count (layer + 1) tree root otsAddr ltreeAddr nodeAddr sig

def coreVerify (pubRoot pubSeed : Node p) (sig msg : List UInt8) : Bool :=
  if sig.length ≠ p.sigBytes then false
  else
    let idx := bytesToIdx (sig.take p.indexBytes)
    if p.fullHeight < 64 ∧ 2 ^ p.fullHeight ≤ idx then false
    else
      let r : Node p := arrayAt p.n sig p.indexBytes
      let mhash := H.hMsg r pubRoot idx msg
      let root := verifyLoop H pubSeed p.d 0 idx mhash (Adrs.new.setType .ots) (Adrs.new.setType .ltree)
        (Adrs.new.setType .hashTree) (sig.drop (p.indexBytes + p.n))
      root == pubRoot

def topSubtree (seed pubSeed : Node p) : Subtree p :=
  Subtree.build H seed pubSeed (Adrs.new.setLayer (p.d - 1))

/-- The raw key and the top subtree; the public key is the root and the public seed. -/
def coreKeygen (seed : List UInt8) : List UInt8 × (Node p × Node p) × Subtree p :=
  let sk : Node p := arrayAt p.n seed 0
  let pubSeed : Node p := arrayAt p.n seed (2 * p.n)
  let levels := topSubtree H sk pubSeed
  (List.replicate p.indexBytes 0 ++ seed.take (2 * p.n) ++ levels.root.toList ++ pubSeed.toList,
    (levels.root, pubSeed), levels)

inductive Error
  | invalidKey
  | keyExhausted
deriving DecidableEq, Repr

def recomputeMaxTreeHeight : Nat := 15

def validateRawSk (raw : List UInt8) : Except Error Unit :=
  let idx := bytesToIdx (raw.take p.indexBytes)
  if p.exhaustedIndex.any fun max => max < idx then .error .invalidKey
  else if recomputeMaxTreeHeight < p.treeHeight then .ok ()
  else if (topSubtree H (skSeed p raw) (skPubSeed p raw)).root ≠ skRoot p raw then .error .invalidKey
  else .ok ()
end Core
/-- The raw key of a set, and the subtrees built from it. -/
structure RawKey (p : Params) where
  bytes : List UInt8
  length_eq : bytes.length = p.skBytes
  cache : SubtreeCache p
namespace RawKey
variable {p : Params} (H : HashFunctions p)
def index (k : RawKey p) : Nat := bytesToIdx (k.bytes.take p.indexBytes)

/-- From a seed of at least `3n` bytes. -/
def fromSeed (seed : List UInt8) : Option (RawKey p) :=
  if h : 3 * p.n ≤ seed.length then
    some ⟨(coreKeygen H seed).1, by simp [coreKeygen, Params.skBytes]; omega,
      SubtreeCache.seeded (p.d - 1) 0 (coreKeygen H seed).2.2⟩
  else none

/-- The index is moved on before anything is signed. -/
def reserve (k : RawKey p) (idx : Nat) : RawKey p :=
  ⟨idxToBytes (idx + 1) p.indexBytes ++ k.bytes.drop p.indexBytes, by
    have h := k.length_eq
    simp [idxToBytes, Params.skBytes] at h ⊢
    omega, k.cache⟩

def sign (k : RawKey p) (exhausted : Nat → Bool) (msg : List UInt8) : RawKey p × Except Error (List UInt8) :=
  let idx := k.index
  if exhausted idx then (k, .error .keyExhausted)
  else
    let k := k.reserve idx
    let (cache, sig) := coreSign H k.bytes idx msg k.cache
    ({ k with cache := cache }, .ok sig)

def toBytes (k : RawKey p) (magic : List UInt8) (oid : Nat) : List UInt8 := magic ++ beBytes 4 oid ++ k.bytes

/-- The key after the magic and the identifier, with nothing cached. -/
def parse (raw : List UInt8) : Except Error (RawKey p) :=
  if h : raw.length = p.skBytes then do
    validateRawSk H raw
    return ⟨raw, h, SubtreeCache.empty p⟩
  else .error .invalidKey
end RawKey
/-- The four bytes of a magic and the identifier after them. -/
def parseOid (magic bytes : List UInt8) : Except Error Nat :=
  if bytes.length < 8 ∨ bytes.take 4 ≠ magic then .error .invalidKey
  else .ok (beNat ((bytes.drop 4).take 4))
section Keys
variable (H : (p : Params) → HashFunctions p)
/-- A set by its identifier, and the key of that set. -/
def parseKey {σ : Type} (magic : List UInt8) (fromOid : Nat → Option σ) (params : σ → Params)
    (bytes : List UInt8) : Except Error ((set : σ) × RawKey (params set)) := do
  let oid ← parseOid magic bytes
  match fromOid oid with
  | none => throw .invalidKey
  | some set => return ⟨set, ← RawKey.parse (H (params set)) (bytes.drop 8)⟩

/-- The bytes `XMSk`. -/
def skMagic : List UInt8 := [0x58, 0x4d, 0x53, 0x6b]

/-- The bytes `XMTk`. -/
def mtSkMagic : List UInt8 := [0x58, 0x4d, 0x54, 0x6b]

structure XmssPrivateKey where
  set : XmssParamSet
  raw : RawKey set.params
namespace XmssPrivateKey
def fromSeed (set : XmssParamSet) (seed : List UInt8) : Option XmssPrivateKey :=
  (RawKey.fromSeed (H set.params) seed).map (⟨set, ·⟩)

def index (k : XmssPrivateKey) : Nat := k.raw.index
def remaining (k : XmssPrivateKey) : Nat := 2 ^ k.set.params.fullHeight - k.index
def sign (k : XmssPrivateKey) (msg : List UInt8) : XmssPrivateKey × Except Error (List UInt8) :=
  let (raw, res) := k.raw.sign (H k.set.params) (fun idx => 2 ^ k.set.params.fullHeight ≤ idx) msg
  (⟨k.set, raw⟩, res)
def toBytes (k : XmssPrivateKey) : List UInt8 := k.raw.toBytes skMagic k.set.oid

def fromBytes (bytes : List UInt8) : Except Error XmssPrivateKey :=
  (parseKey H skMagic XmssParamSet.fromOid XmssParamSet.params bytes).map fun k => ⟨k.1, k.2⟩
end XmssPrivateKey
structure XmssMtPrivateKey where
  set : XmssMtParamSet
  raw : RawKey set.params
namespace XmssMtPrivateKey
def fromSeed (set : XmssMtParamSet) (seed : List UInt8) : Option XmssMtPrivateKey :=
  (RawKey.fromSeed (H set.params) seed).map (⟨set, ·⟩)

def index (k : XmssMtPrivateKey) : Nat := k.raw.index
def remaining (k : XmssMtPrivateKey) : Nat :=
  k.set.params.exhaustedIndex.getD (2 ^ 64 - 1) - k.index

def sign (k : XmssMtPrivateKey) (msg : List UInt8) : XmssMtPrivateKey × Except Error (List UInt8) :=
  let (raw, res) := k.raw.sign (H k.set.params)
    (fun idx => k.set.params.exhaustedIndex.any fun max => max ≤ idx) msg
  (⟨k.set, raw⟩, res)

def toBytes (k : XmssMtPrivateKey) : List UInt8 := k.raw.toBytes mtSkMagic k.set.oid

def fromBytes (bytes : List UInt8) : Except Error XmssMtPrivateKey :=
  (parseKey H mtSkMagic XmssMtParamSet.fromOid XmssMtParamSet.params bytes).map fun k => ⟨k.1, k.2⟩
end XmssMtPrivateKey
end Keys
end PureCrypto.Xmss
