import PureCrypto.Framework.Trace
import PureCrypto.Xmss.Nodes
import PureCrypto.Xmss.Sign

/-! # Signatures verify -/
namespace PureCrypto.Xmss
open ByteArrays HashTree
open List (append_assoc length_append)
open SubtreeCache (subtreeAddr seeded)
namespace Adrs
variable {a : Adrs}
theorem stem_subtree {ty : AdrsType} (h : a.word3 = ty.toUInt32) (layer tree : Nat) :
    ((a.setLayer layer).setTree tree).stem = ((new.copySubtree (subtreeAddr layer tree)).setType ty).stem := by
  simp [stem,setTree,setLayer,setType,copySubtree,subtreeAddr,h]

theorem base_subtree {ty : AdrsType} (h : a.word3 = ty.toUInt32) (h4 : a.word4 = 0) (layer tree : Nat) :
    ((a.setLayer layer).setTree tree).base = ((new.copySubtree (subtreeAddr layer tree)).setType ty).base := by
  simp [base,setTree,setLayer,setType,copySubtree,subtreeAddr,h,h4]
end Adrs
variable {p : Params} {H : HashFunctions p} {seed pubSeed : Node p}
/-- The addresses before a layer, the signer's and the verifier's, and the cache. -/
structure Ready (H : HashFunctions p) (seed pubSeed : Node p) (signer ots ltree node : Adrs)
    (cache : SubtreeCache p) : Prop where
  signer_type : signer.word3 = AdrsType.ots.toUInt32
  ots_type : ots.word3 = AdrsType.ots.toUInt32
  ltree_type : ltree.word3 = AdrsType.ltree.toUInt32
  node_type : node.word3 = AdrsType.hashTree.toUInt32
  node_word4 : node.word4 = 0
  cache_valid : cache.Valid H seed pubSeed
variable {signer ots ltree node : Adrs} {cache : SubtreeCache p}
theorem Ready.next {signer' ots' ltree' node' : Adrs} {cache' : SubtreeCache p} {layer tree idxLeaf : Nat}
    (h : Ready H seed pubSeed signer ots ltree node cache)
    (hsigner : signer'.base = (((signer.setLayer layer).setTree tree).setOts idxLeaf).base)
    (hots : ots'.base = (((ots.setLayer layer).setTree tree).setOts idxLeaf).base)
    (hltree : ltree'.base = (((ltree.setLayer layer).setTree tree).setLtree idxLeaf).base)
    (hnode : node'.base = ((node.setLayer layer).setTree tree).base)
    (hcache : cache'.Valid H seed pubSeed) : Ready H seed pubSeed signer' ots' ltree' node' cache' where
  signer_type := (congrArg Adrs.word3 hsigner).trans h.signer_type
  ots_type := (congrArg Adrs.word3 hots).trans h.ots_type
  ltree_type := (congrArg Adrs.word3 hltree).trans h.ltree_type
  node_type := (congrArg Adrs.word3 hnode).trans h.node_type
  node_word4 := (congrArg Adrs.word4 hnode).trans h.node_word4
  cache_valid := hcache

theorem leaf_of_wotsSign (hp : p.Valid) (root : Node p) (layer tree idxLeaf : Nat)
    (h : Ready H seed pubSeed signer ots ltree node cache) : (lTree H (wotsPkFromSig H (wotsSign H root seed pubSeed
        (((signer.setLayer layer).setTree tree).setOts idxLeaf)).2 root pubSeed
        (((ots.setLayer layer).setTree tree).setOts idxLeaf)).2 pubSeed
        (((ltree.setLayer layer).setTree tree).setLtree idxLeaf)).2 =
      (subtree H seed pubSeed (subtreeAddr layer tree)).node 0 idxLeaf := by
  have hsign := Adrs.base_setOts (Adrs.stem_subtree h.signer_type layer tree) idxLeaf
  have hots := Adrs.base_setOts (Adrs.stem_subtree h.ots_type layer tree) idxLeaf
  have hltree := Adrs.base_setLtree (Adrs.stem_subtree h.ltree_type layer tree) idxLeaf
  rw [wotsPkFromSig_wotsSign H hp root seed pubSeed (hsign.trans hots.symm) hots]
  exact (lTree_spec H _ pubSeed hltree).2

theorem idxLeaf_lt (p : Params) (curIdx : Nat) : curIdx &&& (2 ^ p.treeHeight - 1) < 2 ^ p.treeHeight := by
  rw [Nat.and_two_pow_sub_one_eq_mod]
  exact Nat.mod_lt _ (Nat.two_pow_pos _)

/-- What each layer signs: the root of the subtree below it. -/
def layersRoot (H : HashFunctions p) (seed pubSeed : Node p) : Nat → Nat → Nat → Node p → Node p
  | 0, _, _, root => root
  | count + 1, layer, curIdx, _ =>
    layersRoot H seed pubSeed count (layer + 1) (curIdx >>> p.treeHeight)
      ((subtree H seed pubSeed (subtreeAddr layer (curIdx >>> p.treeHeight))).node
        p.treeHeight 0)

theorem layersRoot_succ (count layer curIdx : Nat) (root : Node p) :
    layersRoot H seed pubSeed (count + 1) layer curIdx root = (subtree H seed pubSeed (subtreeAddr (layer + count)
        (curIdx >>> (p.treeHeight * (count + 1))))).node p.treeHeight 0 := by
  induction count generalizing layer curIdx root with
  | zero => rw [layersRoot,layersRoot,Nat.mul_one,Nat.add_zero]
  | succ count ih =>
    rw [layersRoot,ih,← Nat.shiftRight_add,Nat.mul_succ _ (count + 1),add_comm p.treeHeight,add_assoc,add_comm 1]

def layerBytes (p : Params) : Nat := p.n * p.wotsLen + p.n * p.treeHeight

theorem verifyLoop_signLoop (hp : p.Valid) (count layer curIdx : Nat) (root : Node p) (rest : List UInt8)
    (h : Ready H seed pubSeed signer ots ltree node cache) :
    (signLoop H seed pubSeed count layer curIdx root signer cache).1.Valid H seed pubSeed ∧
      (signLoop H seed pubSeed count layer curIdx root signer cache).2.length = count * layerBytes p ∧
      verifyLoop H pubSeed count layer curIdx root ots ltree node
          ((signLoop H seed pubSeed count layer curIdx root signer cache).2 ++ rest) =
        layersRoot H seed pubSeed count layer curIdx root := by
  induction count generalizing layer curIdx root signer ots ltree node cache with
  | zero => exact ⟨h.cache_valid,by rw [zero_mul]; rfl,rfl⟩
  | succ count ih =>
    rw [verifyLoop,signLoop,layersRoot]
    generalize hleaf : curIdx &&& (2 ^ p.treeHeight - 1) = idxLeaf
    generalize curIdx >>> p.treeHeight = tree
    dsimp only
    have hlt : idxLeaf < 2 ^ p.treeHeight := hleaf ▸ idxLeaf_lt p curIdx
    have hsigner := wotsSign_base H root seed pubSeed
      (((signer.setLayer layer).setTree tree).setOts idxLeaf)
    have hwots := length_wotsSign H hp root seed pubSeed
      (((signer.setLayer layer).setTree tree).setOts idxLeaf)
    have hroot := leaf_of_wotsSign hp root layer tree idxLeaf h
    obtain ⟨hcache,hpath⟩ := h.cache_valid.authPath layer tree hlt
    generalize wotsSign H root seed pubSeed (((signer.setLayer layer).setTree tree).setOts idxLeaf) = w at *
    generalize cache.authPath H seed pubSeed layer tree idxLeaf = r at *
    obtain ⟨cache',path,subtreeRoot⟩ := r
    obtain ⟨rfl,rfl⟩ := Prod.mk.inj hpath
    have hsiblings := (subtree H seed pubSeed (subtreeAddr layer tree)).length_siblings 0
      p.treeHeight idxLeaf
    have hclimb := (subtree H seed pubSeed (subtreeAddr layer tree)).climb_siblings 0
      p.treeHeight idxLeaf
    rw [zero_add,Nat.div_eq_of_lt hlt] at hclimb
    generalize (subtree H seed pubSeed (subtreeAddr layer tree)).siblings 0 p.treeHeight
      idxLeaf = path at *
    obtain ⟨hnode,hvalue⟩ := rootFromSig_eq H seed pubSeed (subtreeAddr layer tree) idxLeaf
      ((subtree H seed pubSeed (subtreeAddr layer tree)).node 0 idxLeaf) path
      (Adrs.base_subtree h.node_type h.node_word4 layer tree)
    have hready := h.next hsigner
      (wotsPkFromSig_base H w.2 root pubSeed (((ots.setLayer layer).setTree tree).setOts idxLeaf))
      (lTree_spec H (wotsPkFromSig H w.2 root pubSeed
        (((ots.setLayer layer).setTree tree).setOts idxLeaf)).2 pubSeed rfl).1 hnode hcache
    obtain ⟨hvalid,hlength,hverify⟩ := ih (layer + 1) tree
      ((subtree H seed pubSeed (subtreeAddr layer tree)).node p.treeHeight 0) hready
    refine ⟨hvalid,?_,?_⟩
    · rw [length_append,length_append,hlength,length_flat,length_flat,hwots,hsiblings,layerBytes]
      ring
    · -- The verifier reads back what the signer wrote, and climbs from the signer's leaf.
      have hread (tail : List UInt8) : arrays p.n p.wotsLen (flat w.2 ++ tail) = w.2 := by
        rw [← hwots,arrays_flat]
      have hskip (tail : List UInt8) : (flat w.2 ++ tail).drop p.wotsSigBytes = tail := by
        rw [Params.wotsSigBytes,← hwots,drop_flat]
      have hread' (tail : List UInt8) : arrays p.n p.treeHeight (flat path ++ tail) = path := by
        rw [← hsiblings,arrays_flat]
      have hskip' (tail : List UInt8) : (flat path ++ tail).drop (p.treeHeight * p.n) = tail := by
        rw [← hsiblings,drop_flat]
      rw [append_assoc,append_assoc,hread,hskip,hread',hskip',hroot,hvalue,hclimb]
      exact hverify
variable {sk : List UInt8}
/-- The raw key holds the root of the top subtree. -/
def RootMatches (H : HashFunctions p) (sk : List UInt8) : Prop :=
  skRoot p sk = (subtree H (skSeed p sk) (skPubSeed p sk) (subtreeAddr (p.d - 1) 0)).node
    p.treeHeight 0

theorem lt_two_fifty_six_pow (hp : p.Valid) {idx : Nat} (hidx : idx < 2 ^ p.fullHeight) :
    idx < 256 ^ p.indexBytes := by
  have hpow : 2 ^ p.fullHeight ≤ 2 ^ (8 * p.indexBytes) :=
    Nat.pow_le_pow_right (by decide) hp.fullHeight_le
  rw [pow_mul] at hpow
  exact lt_of_lt_of_le hidx hpow

theorem layersRoot_eq (hp : p.Valid) {idx : Nat} (hidx : idx < 2 ^ p.fullHeight) (root : Node p) :
    layersRoot H seed pubSeed p.d 0 idx root =
      (subtree H seed pubSeed (subtreeAddr (p.d - 1) 0)).node p.treeHeight 0 := by
  obtain ⟨d,hd⟩ := Nat.exists_eq_succ_of_ne_zero hp.d_pos.ne'
  have hfull := hp.fullHeight_eq
  rw [hd] at hfull ⊢
  rw [layersRoot_succ,mul_comm p.treeHeight,← hfull,Nat.shiftRight_eq_div_pow,
    Nat.div_eq_of_lt hidx,zero_add,Nat.succ_sub_one]

theorem coreVerify_coreSign (hp : p.Valid) (hroot : RootMatches H sk) {idx : Nat}
    (hidx : idx < 2 ^ p.fullHeight) (msg : List UInt8) (hcache : cache.Valid H (skSeed p sk) (skPubSeed p sk)) :
    (coreSign H sk idx msg cache).1.Valid H (skSeed p sk) (skPubSeed p sk) ∧
      coreVerify H (skRoot p sk) (skPubSeed p sk) (coreSign H sk idx msg cache).2 msg = true := by
  have hready : Ready H (skSeed p sk) (skPubSeed p sk) (Adrs.new.setType .ots) (Adrs.new.setType .ots)
      (Adrs.new.setType .ltree) (Adrs.new.setType .hashTree) cache := ⟨rfl,rfl,rfl,rfl,rfl,hcache⟩
  unfold coreSign
  dsimp only
  generalize H.prf (skPrf p sk) (arrayAt 32 (beBytes 32 idx) 0) = r
  obtain ⟨hvalid,hlength,hverify⟩ := verifyLoop_signLoop hp p.d 0 idx
    (H.hMsg r (skRoot p sk) idx msg) [] hready
  refine ⟨hvalid,?_⟩
  rw [List.append_nil,layersRoot_eq hp hidx] at hverify
  generalize (signLoop H (skSeed p sk) (skPubSeed p sk) p.d 0 idx (H.hMsg r (skRoot p sk) idx msg)
    (Adrs.new.setType .ots) cache).2 = layers at *
  have hfield : (idxToBytes idx p.indexBytes).length = p.indexBytes := length_beBytes ..
  have hhead : (idxToBytes idx p.indexBytes ++ r.toList).length = p.indexBytes + p.n := by
    rw [length_append,hfield,Vector.length_toList]
  have hsig : (idxToBytes idx p.indexBytes ++ r.toList ++ layers).length = p.sigBytes := by
    rw [length_append,hhead,hlength,Params.sigBytes,Params.wotsSigBytes,layerBytes,hp.fullHeight_eq]
    ring
  have hidx' : bytesToIdx ((idxToBytes idx p.indexBytes ++ r.toList ++ layers).take p.indexBytes) = idx := by
    rw [append_assoc,List.take_left' hfield]
    exact bytesToIdx_idxToBytes hp.indexBytes_le (lt_two_fifty_six_pow hp hidx)
  have hr : arrayAt p.n (idxToBytes idx p.indexBytes ++ r.toList ++ layers) p.indexBytes = r := by
    rw [append_assoc,arrayAt_behind hfield]
  unfold coreVerify
  rw [if_neg (not_not_intro hsig)]
  dsimp only
  rw [hidx',if_neg (fun h => Nat.not_le.mpr hidx h.2),hr,List.drop_left' hhead,hverify,← hroot]
  exact beq_self_eq_true _
section Keygen
variable (H) (seed : List UInt8) (hseed : 3 * p.n ≤ seed.length)
include hseed
theorem skSeed_coreKeygen : skSeed p (coreKeygen H seed).1 = arrayAt p.n seed 0 := by
  have hskip := arrayAt_skip (n := p.n) (List.replicate p.indexBytes 0) (seed.take (2 * p.n) ++
    ((coreKeygen H seed).2.1.1.toList ++ (coreKeygen H seed).2.1.2.toList)) 0
  have hfit : 0 + p.n ≤ (seed.take (2 * p.n)).length := by
    rw [List.length_take_of_le (by omega)]
    omega
  rw [arrayAt_left hfit,arrayAt_take (by omega),List.length_replicate,add_zero] at hskip
  rw [← hskip,skSeed,coreKeygen,append_assoc,append_assoc]

theorem skRoot_coreKeygen : skRoot p (coreKeygen H seed).1 = (coreKeygen H seed).2.1.1 := by
  rw [skRoot,coreKeygen,append_assoc,arrayAt_behind]
  rw [length_append,List.length_replicate,List.length_take_of_le (by omega)]

theorem skPubSeed_coreKeygen : skPubSeed p (coreKeygen H seed).1 = (coreKeygen H seed).2.1.2 := by
  rw [skPubSeed,coreKeygen,← List.append_nil (arrayAt p.n seed (2 * p.n)).toList,arrayAt_behind]
  rw [length_append,length_append,List.length_replicate,List.length_take_of_le (by omega),Vector.length_toList]
  ring

theorem topSubtree_valid : (coreKeygen H seed).2.2.Valid
    (subtree H (skSeed p (coreKeygen H seed).1) (skPubSeed p (coreKeygen H seed).1) (subtreeAddr (p.d - 1) 0)) := by
  rw [skSeed_coreKeygen H seed hseed,skPubSeed_coreKeygen H seed hseed]
  exact Subtree.buildTiered_valid H _ _ _ _

theorem rootMatches_coreKeygen : RootMatches H (coreKeygen H seed).1 := by
  rw [RootMatches,skRoot_coreKeygen H seed hseed]
  exact (topSubtree_valid H seed hseed).root_eq
end Keygen
/-- What may happen to a cache; leaves and indices are those of the tree. -/
inductive CacheOp (p : Params)
  /-- A subtree with any number of levels kept for good. -/
  | plant (layer tree topLevels : Nat)
  | evict (keep : Nat → Nat → Bool)
  | request (layer tree : Nat) (idxLeaf : Fin (2 ^ p.treeHeight))
  | sign (idx : Fin (2 ^ p.fullHeight)) (msg : List UInt8)
namespace CacheOp
def step (H : HashFunctions p) (sk : List UInt8) (c : SubtreeCache p) : CacheOp p → SubtreeCache p
  | plant layer tree topLevels => ⟨(layer, tree, Subtree.buildTiered H (skSeed p sk) (skPubSeed p sk)
      (subtreeAddr layer tree) topLevels) :: c.entries⟩
  | evict keep => ⟨c.entries.filter fun e => keep e.1 e.2.1⟩
  | request layer tree idxLeaf => (c.authPath H (skSeed p sk) (skPubSeed p sk) layer tree idxLeaf).1
  | sign idx msg => (coreSign H sk idx msg c).1

/-- Node `i` at height `j` of a subtree with all its nodes computed. -/
def fullNode (H : HashFunctions p) (sk : List UInt8) (layer tree j i : Nat) : Node p :=
  ((buildBlock H (skSeed p sk) (skPubSeed p sk) (subtreeAddr layer tree) 0
    p.treeHeight).getD j []).getD i (zeroNode p)

/-- Requests give the nodes of the full subtree, and signatures verify under a public key. -/
def Answered (H : HashFunctions p) (sk : List UInt8) (pk : Node p × Node p) (c : SubtreeCache p) :
    CacheOp p → Prop
  | request layer tree idxLeaf =>
    (c.authPath H (skSeed p sk) (skPubSeed p sk) layer tree idxLeaf).2 =
      ((List.range p.treeHeight).map fun j => fullNode H sk layer tree j (idxLeaf / 2 ^ j ^^^ 1),
        fullNode H sk layer tree p.treeHeight 0)
  | sign idx msg => coreVerify H pk.1 pk.2 (coreSign H sk idx msg c).2 msg = true
  | _ => True

theorem fullNode_eq (layer tree : Nat) {j i : Nat} (hj : j ≤ p.treeHeight) (hi : i < 2 ^ (p.treeHeight - j)) :
    fullNode H sk layer tree j i = (subtree H (skSeed p sk) (skPubSeed p sk) (subtreeAddr layer tree)).node j i := by
  rw [fullNode,buildBlock_eq H _ _ _ (Nat.dvd_zero _),Tree.getD_rows _ _ _ hj,zero_add,Nat.zero_div,
    Tree.getD_row _ _ _ hi,zero_add]

theorem answered (hp : p.Valid) (hroot : RootMatches H sk) (op : CacheOp p)
    (hcache : cache.Valid H (skSeed p sk) (skPubSeed p sk)) :
    Answered H sk (skRoot p sk, skPubSeed p sk) cache op := by
  cases op with
  | plant layer tree topLevels => trivial
  | evict keep => trivial
  | request layer tree idxLeaf =>
    refine (hcache.authPath layer tree idxLeaf.2).2.trans (Prod.ext ?_ ?_)
    · rw [Tree.siblings_eq_map]
      refine List.map_congr_left fun j hj => ?_
      have hj' := List.mem_range.mp hj
      have hlt := Nat.xor_lt_two_pow (Subtree.div_lt_two_pow idxLeaf.2 hj'.le)
        (Nat.one_lt_two_pow (Nat.sub_ne_zero_of_lt hj'))
      rw [zero_add,fullNode_eq layer tree hj'.le hlt]
    · exact (fullNode_eq layer tree le_rfl (Nat.two_pow_pos _)).symm
  | sign idx msg => exact (coreVerify_coreSign hp hroot idx.2 msg hcache).2

theorem step_valid (hp : p.Valid) (hroot : RootMatches H sk) (op : CacheOp p)
    (hcache : cache.Valid H (skSeed p sk) (skPubSeed p sk)) :
    (step H sk cache op).Valid H (skSeed p sk) (skPubSeed p sk) := by
  cases op with
  | plant layer tree topLevels =>
    exact List.forall_mem_cons.mpr ⟨Subtree.buildTiered_valid H _ _ _ _,hcache⟩
  | evict keep => exact fun e he => hcache e (List.mem_filter.mp he).1
  | request layer tree idxLeaf => exact (hcache.authPath layer tree idxLeaf.2).1
  | sign idx msg => exact (coreVerify_coreSign hp hroot idx.2 msg hcache).1

theorem along_answered (hp : p.Valid) (hroot : RootMatches H sk) (ops : List (CacheOp p))
    (hcache : cache.Valid H (skSeed p sk) (skPubSeed p sk)) :
    Trace.Along (step H sk) (Answered H sk (skRoot p sk, skPubSeed p sk)) cache ops := by
  induction ops generalizing cache with
  | nil => trivial
  | cons op ops ih => exact ⟨answered hp hroot op hcache,ih (step_valid hp hroot op hcache)⟩
end CacheOp
/-- From a generated key, whatever is planted, evicted, requested and signed in whatever order: paths and
roots are those of the full subtrees, and signatures verify under the public key. -/
theorem signatures_verify (set : ParamSet) (H : HashFunctions set.params) (seed : List UInt8)
    (hseed : 3 * set.params.n ≤ seed.length) (ops : List (CacheOp set.params)) :
    Trace.Along (CacheOp.step H (coreKeygen H seed).1)
      (CacheOp.Answered H (coreKeygen H seed).1 (coreKeygen H seed).2.1)
      (SubtreeCache.seeded (set.params.d - 1) 0 (coreKeygen H seed).2.2) ops := by
  have hpk : (coreKeygen H seed).2.1 =
      (skRoot set.params (coreKeygen H seed).1, skPubSeed set.params (coreKeygen H seed).1) := by
    rw [skRoot_coreKeygen H seed hseed,skPubSeed_coreKeygen H seed hseed]
  rw [hpk]
  exact CacheOp.along_answered set.valid (rootMatches_coreKeygen H seed hseed) ops
    (SubtreeCache.valid_seeded (topSubtree_valid H seed hseed))

/-- Sign, drop everything, ask for a path and sign again with a lower index. -/
theorem signatures_verify_zeroSeed :
    let set := ParamSet.xmss .sha2_10_256
    let H : HashFunctions set.params := HashFunctions.ofCore _ fun _ _ => zeroNode _
    let seed := List.replicate 96 0
    3 * set.params.n ≤ seed.length ∧
      Trace.Along (CacheOp.step H (coreKeygen H seed).1)
        (CacheOp.Answered H (coreKeygen H seed).1 (coreKeygen H seed).2.1)
        (seeded 0 0 (coreKeygen H seed).2.2)
        [.sign ⟨700,by decide⟩ [1], .evict fun _ _ => false, .plant 0 0 3,
          .request 0 0 ⟨513,by decide⟩, .sign ⟨5,by decide⟩ []] :=
  ⟨by decide,signatures_verify (.xmss .sha2_10_256) _ _ (by decide) _⟩
end PureCrypto.Xmss
