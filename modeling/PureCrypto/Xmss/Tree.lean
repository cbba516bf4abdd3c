import PureCrypto.Xmss.Wots

/-!
# Subtrees

The Merkle trees of `xmss/mod.rs`: blocks of leaves with all nodes above them, a subtree whose lower
heights are kept for one block only, and the cache of subtrees with at most one for each layer.
-/
namespace PureCrypto.Xmss
variable {p : Params} (H : HashFunctions p)
def zeroNode (p : Params) : Node p := Vector.replicate p.n 0

def leafLoop (skSeed pubSeed : Node p) : Nat → Nat → Adrs → Adrs → List (Node p)
  | _, 0, _, _ => []
  | idx, count + 1, ltreeAddr, otsAddr =>
    let (ltreeAddr, otsAddr, leaf) :=
      genLeaf H skSeed pubSeed (ltreeAddr.setLtree idx) (otsAddr.setOts idx)
    leaf :: leafLoop skSeed pubSeed (idx + 1) count ltreeAddr otsAddr

def hashLevelLoop (pubSeed : Node p) (level : Nat) : Nat → List (Node p) → Adrs → List (Node p)
  | index, left :: right :: rest, nodeAddr =>
    let nodeAddr := (nodeAddr.setTreeHeight (level - 1)).setTreeIndex index
    let (nodeAddr, parent) := randHash H left right pubSeed nodeAddr
    parent :: hashLevelLoop pubSeed level (index + 1) rest nodeAddr
  | _, _, _ => []

def hashLevel (pubSeed : Node p) (subtreeAddr : Adrs) (children : List (Node p)) (level first : Nat) :
    List (Node p) :=
  hashLevelLoop H pubSeed level first children ((Adrs.new.copySubtree subtreeAddr).setType .hashTree)

def levelLoop (pubSeed : Node p) (subtreeAddr : Adrs) (start : Nat) :
    Nat → Nat → List (Node p) → List (List (Node p))
  | _, 0, _ => []
  | level, count + 1, nodes =>
    let parents := hashLevel H pubSeed subtreeAddr nodes (level + 1) (start >>> (level + 1))
    parents :: levelLoop pubSeed subtreeAddr start (level + 1) count parents

def buildBlock (skSeed pubSeed : Node p) (subtreeAddr : Adrs) (start height : Nat) :
    List (List (Node p)) :=
  let otsAddr := (Adrs.new.copySubtree subtreeAddr).setType .ots
  let ltreeAddr := (Adrs.new.copySubtree subtreeAddr).setType .ltree
  let leaves := leafLoop H skSeed pubSeed start (2 ^ height) ltreeAddr otsAddr
  leaves :: levelLoop H pubSeed subtreeAddr start 0 height leaves

/-- The nodes from height `split` up, and those below it for one block. -/
structure Subtree (p : Params) where
  split : Nat
  top : List (List (Node p))
  bottom : Option (Nat × List (List (Node p)))
namespace Subtree
def buildTiered (skSeed pubSeed : Node p) (subtreeAddr : Adrs) (topLevels : Nat) : Subtree p :=
  let th := p.treeHeight
  let split := th - topLevels
  if split = 0 then ⟨split, buildBlock H skSeed pubSeed subtreeAddr 0 th, none⟩
  else
    let roots := (List.range (2 ^ (th - split))).map fun b =>
      ((buildBlock H skSeed pubSeed subtreeAddr (b <<< split) split).getD split []).headD (zeroNode p)
    ⟨split, roots :: levelLoop H pubSeed subtreeAddr 0 split (th - split) roots, none⟩

def topLevels : Nat := 16
def build (skSeed pubSeed : Node p) (subtreeAddr : Adrs) : Subtree p :=
  buildTiered H skSeed pubSeed subtreeAddr topLevels
def root (s : Subtree p) : Node p := (s.top.getLastD []).headD (zeroNode p)

/-- The block of `idxLeaf` is built if it is not the one at hand. -/
def prepare (s : Subtree p) (skSeed pubSeed : Node p) (subtreeAddr : Adrs) (idxLeaf : Nat) : Subtree p :=
  let block := idxLeaf >>> s.split
  if 0 < s.split ∧ s.bottom.map Prod.fst ≠ some block then
    let levels := buildBlock H skSeed pubSeed subtreeAddr (block <<< s.split) s.split
    { s with bottom := some (block, levels) }
  else s

def sibling (s : Subtree p) (idxLeaf j : Nat) : Node p :=
  if j < s.split then
    match s.bottom with
    | some (_, bottom) =>
      let first := (idxLeaf >>> s.split) <<< s.split
      (bottom.getD j []).getD (((idxLeaf >>> j) ^^^ 1) - (first >>> j)) (zeroNode p)
    | none => zeroNode p
  else (s.top.getD (j - s.split) []).getD ((idxLeaf >>> j) ^^^ 1) (zeroNode p)

def authPath (s : Subtree p) (skSeed pubSeed : Node p) (subtreeAddr : Adrs) (idxLeaf : Nat) :
    Subtree p × List (Node p) :=
  let s := s.prepare H skSeed pubSeed subtreeAddr idxLeaf
  (s, (List.range p.treeHeight).map (s.sibling idxLeaf))
end Subtree
structure SubtreeCache (p : Params) where
  entries : List (Nat × Nat × Subtree p)
namespace SubtreeCache
def empty (p : Params) : SubtreeCache p := ⟨[]⟩

def seeded (layer tree : Nat) (nodes : Subtree p) : SubtreeCache p := ⟨[(layer, tree, nodes)]⟩
def subtreeAddr (layer tree : Nat) : Adrs := (Adrs.new.setLayer layer).setTree tree

/-- The entries with one for `(layer, tree)`, and its position. -/
def ensure (c : SubtreeCache p) (skSeed pubSeed : Node p) (layer tree : Nat) :
    List (Nat × Nat × Subtree p) × Nat :=
  match c.entries.findIdx? fun e => e.1 == layer && e.2.1 == tree with
  | some pos => (c.entries, pos)
  | none =>
    let kept := c.entries.filter fun e => e.1 != layer
    (kept ++ [(layer, tree, Subtree.build H skSeed pubSeed (subtreeAddr layer tree))], kept.length)

/-- The path of a leaf and the root of its subtree. -/
def authPath (c : SubtreeCache p) (skSeed pubSeed : Node p) (layer tree idxLeaf : Nat) :
    SubtreeCache p × List (Node p) × Node p :=
  let (entries, pos) := c.ensure H skSeed pubSeed layer tree
  match entries[pos]? with
  | some (l, t, subtree) =>
    let (subtree, path) := subtree.authPath H skSeed pubSeed (subtreeAddr layer tree) idxLeaf
    (⟨entries.set pos (l, t, subtree)⟩, path, subtree.root)
  | none => (⟨entries⟩, [], zeroNode p)
end SubtreeCache
/-- From height `i` on: the two children at that height, and the rest of the path. -/
def rootLoop (pubSeed : Node p) : Nat → Nat → Node p × Node p → List (Node p) → Adrs → Adrs × Node p
  | i, leafIdx, (left, right), [], nodeAddr =>
    let leafIdx := leafIdx >>> 1
    let nodeAddr := (nodeAddr.setTreeHeight i).setTreeIndex leafIdx
    randHash H left right pubSeed nodeAddr
  | i, leafIdx, (left, right), a :: ap, nodeAddr =>
    let leafIdx := leafIdx >>> 1
    let nodeAddr := (nodeAddr.setTreeHeight i).setTreeIndex leafIdx
    let (nodeAddr, out) := randHash H left right pubSeed nodeAddr
    rootLoop pubSeed (i + 1) leafIdx (if leafIdx &&& 1 = 1 then (a, out) else (out, a)) ap nodeAddr

def rootFromSig (leafIdx : Nat) (leaf : Node p) (authPath : List (Node p)) (pubSeed : Node p)
    (nodeAddr : Adrs) : Adrs × Node p :=
  match authPath with
  | [] => (nodeAddr, leaf)
  | a :: ap =>
    rootLoop H pubSeed 0 leafIdx (if leafIdx &&& 1 = 1 then (a, leaf) else (leaf, a)) ap nodeAddr
end PureCrypto.Xmss
