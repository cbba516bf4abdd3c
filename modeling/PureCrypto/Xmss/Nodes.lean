import PureCrypto.Xmss.OneTime
import PureCrypto.Xmss.Tree

/-! # Nodes -/
namespace PureCrypto.Xmss
open HashTree List Nat
variable {p : Params} (H : HashFunctions p)
def subtree (skSeed pubSeed : Node p) (addr : Adrs) : HashTree.Tree (Node p) where
  leaf i := (genLeaf H skSeed pubSeed (((Adrs.new.copySubtree addr).setType .ltree).setLtree i)
    (((Adrs.new.copySubtree addr).setType .ots).setOts i)).2.2
  parent h i left right := (randHash H left right pubSeed
    ((((Adrs.new.copySubtree addr).setType .hashTree).setTreeHeight h).setTreeIndex i)).2
section Blocks
variable (skSeed pubSeed : Node p) (addr : Adrs)
theorem leafLoop_eq (idx count : Nat) {a b : Adrs} (ha : a.stem = ((Adrs.new.copySubtree addr).setType .ltree).stem)
    (hb : b.stem = ((Adrs.new.copySubtree addr).setType .ots).stem) :
    leafLoop H skSeed pubSeed idx count a b = (subtree H skSeed pubSeed addr).row 0 idx count := by
  induction count generalizing idx a b with
  | zero => rfl
  | succ count ih =>
    obtain ⟨hltree,hots,hleaf⟩ := genLeaf_spec H skSeed pubSeed (Adrs.base_setLtree ha idx)
      (Adrs.base_setOts hb idx)
    have ha' := (Adrs.stem_eq_of_base hltree).trans ha
    have hb' := (Adrs.stem_eq_of_base hots).trans hb
    exact congrArg₂ List.cons hleaf (ih (idx + 1) ha' hb')

theorem randHash_parent (left right : Node p) (h i : Nat) {a : Adrs}
    (ha : a.base = ((Adrs.new.copySubtree addr).setType .hashTree).base) :
    (randHash H left right pubSeed ((a.setTreeHeight h).setTreeIndex i)).1.base = a.base ∧
      (randHash H left right pubSeed ((a.setTreeHeight h).setTreeIndex i)).2 =
        (subtree H skSeed pubSeed addr).parent h i left right := by
  obtain ⟨htrunk,hvalue⟩ := randHash_spec H left right pubSeed i (Adrs.trunk_setTreeHeight ha h)
  have hbase := Adrs.base_eq_of_trunk htrunk
  exact ⟨hbase,hvalue⟩

theorem hashLevelLoop_eq (level : Nat) : (index : Nat) → (xs : List (Node p)) → {a : Adrs} →
    a.base = ((Adrs.new.copySubtree addr).setType .hashTree).base →
    hashLevelLoop H pubSeed (level + 1) index xs a =
      Tree.pairUp ((subtree H skSeed pubSeed addr).parent level) index xs
  | _, [], _, _ => rfl
  | _, [_], _, _ => rfl
  | index, x :: y :: xs, _, ha => by
    obtain ⟨hbase,hvalue⟩ := randHash_parent H skSeed pubSeed addr x y level index ha
    exact congrArg₂ List.cons hvalue (hashLevelLoop_eq level (index + 1) xs (hbase.trans ha))

theorem hashLevel_eq (children : List (Node p)) (level first : Nat) :
    hashLevel H pubSeed addr children (level + 1) first =
      Tree.pairUp ((subtree H skSeed pubSeed addr).parent level) first children :=
  hashLevelLoop_eq H skSeed pubSeed addr level first children rfl

theorem levelLoop_eq {start level count : Nat} (hstart : 2 ^ (level + count) ∣ start) {nodes : List (Node p)}
    (hnodes : nodes = (subtree H skSeed pubSeed addr).row level (start / 2 ^ level) (2 ^ count)) :
    nodes :: levelLoop H pubSeed addr start level count nodes =
      (subtree H skSeed pubSeed addr).rows start level count := by
  induction count generalizing level nodes with
  | zero => rw [hnodes,levelLoop,Tree.rows,pow_zero]
  | succ count ih =>
    have hparents : hashLevel H pubSeed addr nodes (level + 1) (start >>> (level + 1)) =
        (subtree H skSeed pubSeed addr).row (level + 1) (start / 2 ^ (level + 1)) (2 ^ count) := by
      rw [hashLevel_eq H skSeed,hnodes,shiftRight_eq_div_pow,Tree.pairUp_rows _ hstart]
    rw [Tree.rows,← hnodes]
    exact congrArg _ (ih (by rwa [Nat.add_right_comm]) hparents)

theorem buildBlock_eq {start height : Nat} (hstart : 2 ^ height ∣ start) :
    buildBlock H skSeed pubSeed addr start height = (subtree H skSeed pubSeed addr).rows start 0 height := by
  refine levelLoop_eq H skSeed pubSeed addr (by rwa [zero_add]) ?_
  rw [leafLoop_eq H skSeed pubSeed addr start (2 ^ height) rfl rfl,pow_zero,Nat.div_one]
end Blocks
namespace Subtree
/-- All nodes of the tree at and above `split`, and below it those of the block at hand. -/
structure Valid (t : HashTree.Tree (Node p)) (s : Subtree p) : Prop where
  split_le : s.split ≤ p.treeHeight
  top : s.top = t.rows 0 s.split (p.treeHeight - s.split)
  bottom : ∀ block levels, s.bottom = some (block, levels) → levels = t.rows (block <<< s.split) 0 s.split
section Valid
variable (skSeed pubSeed : Node p) (addr : Adrs)
theorem headD_buildBlock (block split : Nat) :
    ((buildBlock H skSeed pubSeed addr (block <<< split) split).getD split []).headD (zeroNode p) =
      (subtree H skSeed pubSeed addr).node split block := by
  have hstart : block <<< split = block * 2 ^ split := shiftLeft_eq ..
  rw [hstart,buildBlock_eq H skSeed pubSeed addr (Nat.dvd_mul_left ..),Tree.getD_rows _ _ _ le_rfl,
    zero_add,Nat.mul_div_cancel _ (Nat.two_pow_pos split),Nat.sub_self]
  rfl

theorem map_range_node (t : HashTree.Tree (Node p)) (h count : Nat) :
    (List.range count).map (t.node h) = t.row h 0 count := by
  refine ext_getElem (by simp) fun i hi _ => ?_
  rw [Tree.getElem_row,getElem_map,getElem_range,zero_add]

/-- Any number of levels may be kept for good. -/
theorem buildTiered_valid (topLevels : Nat) :
    (buildTiered H skSeed pubSeed addr topLevels).Valid (subtree H skSeed pubSeed addr) := by
  unfold buildTiered
  dsimp only
  split_ifs with hsplit
  · refine ⟨sub_le _ _,?_,nofun⟩
    rw [buildBlock_eq H skSeed pubSeed addr (Nat.dvd_zero _),hsplit,Nat.sub_zero]
  · refine ⟨sub_le _ _,?_,nofun⟩
    refine levelLoop_eq H skSeed pubSeed addr (Nat.dvd_zero _) ?_
    simp only [headD_buildBlock]
    rw [Nat.zero_div,← map_range_node]
variable {skSeed pubSeed addr} {s : Subtree p}
theorem Valid.root_eq {t : HashTree.Tree (Node p)} (h : s.Valid t) : s.root = t.node p.treeHeight 0 := by
  rw [root,h.top,Tree.getLastD_rows,Nat.add_sub_cancel' h.split_le,Nat.zero_div]
  rfl

theorem bottom_prepare (hsplit : 0 < s.split) (idxLeaf : Nat) :
    ∃ levels, (s.prepare H skSeed pubSeed addr idxLeaf).bottom = some (idxLeaf >>> s.split, levels) := by
  unfold prepare
  dsimp only
  split_ifs with h
  · exact ⟨_,rfl⟩
  · have hblock : s.bottom.map Prod.fst = some (idxLeaf >>> s.split) := by
      by_contra hne
      exact h ⟨hsplit,hne⟩
    obtain ⟨⟨block,levels⟩,hbottom,rfl⟩ := Option.map_eq_some_iff.mp hblock
    exact ⟨levels,hbottom⟩

@[simp] theorem split_prepare (idxLeaf : Nat) : (s.prepare H skSeed pubSeed addr idxLeaf).split = s.split := by
  unfold prepare
  dsimp only
  split_ifs <;> rfl

theorem Valid.prepare (h : s.Valid (subtree H skSeed pubSeed addr)) (idxLeaf : Nat) :
    (s.prepare H skSeed pubSeed addr idxLeaf).Valid (subtree H skSeed pubSeed addr) := by
  unfold Subtree.prepare
  dsimp only
  split_ifs with hblock
  · refine ⟨h.split_le,h.top,fun block levels hbottom => ?_⟩
    obtain ⟨rfl,rfl⟩ := Prod.mk.inj (Option.some.inj hbottom)
    refine buildBlock_eq H skSeed pubSeed addr ?_
    rw [shiftLeft_eq]
    exact Nat.dvd_mul_left ..
  · exact h
variable {idxLeaf j : Nat}
theorem div_lt_two_pow (hidx : idxLeaf < 2 ^ p.treeHeight) (hj : j ≤ p.treeHeight) :
    idxLeaf / 2 ^ j < 2 ^ (p.treeHeight - j) := by
  rw [Nat.div_lt_iff_lt_mul (Nat.two_pow_pos j),← pow_add,Nat.sub_add_cancel hj]
  exact hidx

theorem Valid.sibling_eq {t : HashTree.Tree (Node p)} (h : s.Valid t) (hidx : idxLeaf < 2 ^ p.treeHeight)
    (hj : j < p.treeHeight) (hbottom : 0 < s.split → ∃ levels, s.bottom = some (idxLeaf >>> s.split, levels)) :
    s.sibling idxLeaf j = t.node j (idxLeaf / 2 ^ j ^^^ 1) := by
  unfold sibling
  rw [shiftRight_eq_div_pow idxLeaf j]
  split_ifs with hlow
  · obtain ⟨levels,hlevels⟩ := hbottom (zero_lt_of_lt hlow)
    have hrows := h.bottom _ _ hlevels
    have hpow : 2 ^ s.split = 2 ^ (s.split - j) * 2 ^ j := by
      rw [← pow_add,Nat.sub_add_cancel hlow.le]
    -- The sibling is in the block: it has the same ancestor at the height of the split.
    have hfirst : (idxLeaf >>> s.split) <<< s.split >>> j =
        (idxLeaf / 2 ^ j ^^^ 1) / 2 ^ (s.split - j) * 2 ^ (s.split - j) := by
      rw [Tree.xor_one_div _ (Nat.sub_pos_of_lt hlow),Nat.div_div_eq_div_mul,mul_comm (2 ^ j),← hpow,
        shiftLeft_eq,shiftRight_eq_div_pow,shiftRight_eq_div_pow]
      nth_rewrite 2 [hpow]
      rw [← mul_assoc,Nat.mul_div_cancel _ (Nat.two_pow_pos j)]
    rw [hlevels]
    dsimp only
    have hmod := div_add_mod' (idxLeaf / 2 ^ j ^^^ 1) (2 ^ (s.split - j))
    rw [hrows,Tree.getD_rows _ _ _ hlow.le,zero_add,Tree.getD_row _ _ _ (by omega)]
    congr 1
    omega
  · have hsibling : idxLeaf / 2 ^ j ^^^ 1 < 2 ^ (p.treeHeight - j) :=
      xor_lt_two_pow (div_lt_two_pow hidx hj.le) (Nat.one_lt_two_pow (sub_ne_zero_of_lt hj))
    rw [h.top,Tree.getD_rows _ _ _ (by omega),Nat.add_sub_cancel' (Nat.not_lt.mp hlow),Nat.zero_div,
      show p.treeHeight - s.split - (j - s.split) = p.treeHeight - j by omega,Tree.getD_row _ _ _ hsibling,
      zero_add]

/-- The path of a leaf is its siblings, whatever block was at hand. -/
theorem Valid.authPath (h : s.Valid (subtree H skSeed pubSeed addr)) (hidx : idxLeaf < 2 ^ p.treeHeight) :
    (s.authPath H skSeed pubSeed addr idxLeaf).1.Valid (subtree H skSeed pubSeed addr) ∧
      (s.authPath H skSeed pubSeed addr idxLeaf).2 =
        (subtree H skSeed pubSeed addr).siblings 0 p.treeHeight idxLeaf := by
  refine ⟨h.prepare H idxLeaf,?_⟩
  rw [Tree.siblings_eq_map]
  refine map_congr_left fun j hj => ?_
  rw [zero_add]
  refine (h.prepare H idxLeaf).sibling_eq hidx (List.mem_range.mp hj) fun hsplit => ?_
  rw [split_prepare] at hsplit ⊢
  exact bottom_prepare H hsplit idxLeaf
end Valid
end Subtree
namespace SubtreeCache
/-- Every entry is of the tree of its layer and index. -/
def Valid (skSeed pubSeed : Node p) (c : SubtreeCache p) : Prop :=
  ∀ e ∈ c.entries, e.2.2.Valid (subtree H skSeed pubSeed (subtreeAddr e.1 e.2.1))
variable {H} {skSeed pubSeed : Node p} {c : SubtreeCache p}
theorem valid_seeded {layer tree : Nat} {s : Subtree p}
    (h : s.Valid (subtree H skSeed pubSeed (subtreeAddr layer tree))) :
    (seeded layer tree s).Valid H skSeed pubSeed := by
  intro e he
  rw [List.mem_singleton.mp he]
  exact h

theorem Valid.ensure (h : c.Valid H skSeed pubSeed) (layer tree : Nat) :
    Valid H skSeed pubSeed ⟨(c.ensure H skSeed pubSeed layer tree).1⟩ ∧
      ∃ s, (c.ensure H skSeed pubSeed layer tree).1[(c.ensure H skSeed pubSeed layer tree).2]? =
        some (layer, tree, s) := by
  unfold SubtreeCache.ensure
  split
  next pos hpos =>
    refine ⟨h,?_⟩
    obtain ⟨hlt,hmatch,-⟩ := findIdx?_eq_some_iff_getElem.mp hpos
    obtain ⟨hlayer,htree⟩ := Bool.and_eq_true_iff.mp hmatch
    refine ⟨(c.entries[pos]).2.2,?_⟩
    rw [getElem?_eq_getElem hlt,← eq_of_beq hlayer,← eq_of_beq htree]
  next =>
    refine ⟨?_,_,getElem?_concat_length⟩
    refine forall_mem_append.mpr ⟨fun e he => h e (mem_filter.mp he).1,forall_mem_singleton.mpr ?_⟩
    exact Subtree.buildTiered_valid H skSeed pubSeed _ _

/-- A path from the cache is the path in the tree, and the root its root. -/
theorem Valid.authPath (h : c.Valid H skSeed pubSeed) (layer tree : Nat) {idxLeaf : Nat}
    (hidx : idxLeaf < 2 ^ p.treeHeight) : (c.authPath H skSeed pubSeed layer tree idxLeaf).1.Valid H skSeed pubSeed ∧
      (c.authPath H skSeed pubSeed layer tree idxLeaf).2 =
        ((subtree H skSeed pubSeed (subtreeAddr layer tree)).siblings 0 p.treeHeight idxLeaf,
          (subtree H skSeed pubSeed (subtreeAddr layer tree)).node p.treeHeight 0) := by
  obtain ⟨hentries,s,hentry⟩ := h.ensure layer tree
  unfold SubtreeCache.authPath
  generalize c.ensure H skSeed pubSeed layer tree = r at *
  dsimp only at *
  rw [hentry]
  have hs := hentries _ (mem_of_getElem? hentry)
  obtain ⟨hvalid,hpath⟩ := hs.authPath H hidx
  refine ⟨?_,Prod.ext hpath hvalid.root_eq⟩
  intro e he
  rcases mem_or_eq_of_mem_set he with hold | rfl
  · exact hentries e hold
  · exact hvalid
end SubtreeCache
section Climb
variable (skSeed pubSeed : Node p) (addr : Adrs)
theorem climb_cons (t : HashTree.Tree (Node p)) (h i : Nat) (x s : Node p) (path : List (Node p)) :
    Tree.climb t.parent h i x (s :: path) = Tree.climb t.parent (h + 1) (i >>> 1)
      (t.parent h (i >>> 1) (if i &&& 1 = 1 then (s, x) else (x, s)).1
        (if i &&& 1 = 1 then (s, x) else (x, s)).2) path := by
  rw [Tree.climb,and_one_is_mod,shiftRight_eq_div_pow]
  split_ifs <;> rfl

theorem rootLoop_eq (i leafIdx : Nat) (x : Node p × Node p) (path : List (Node p)) {a : Adrs}
    (ha : a.base = ((Adrs.new.copySubtree addr).setType .hashTree).base) :
    (rootLoop H pubSeed i leafIdx x path a).1.base = a.base ∧ (rootLoop H pubSeed i leafIdx x path a).2 =
        Tree.climb (subtree H skSeed pubSeed addr).parent (i + 1) (leafIdx >>> 1)
          ((subtree H skSeed pubSeed addr).parent i (leafIdx >>> 1) x.1 x.2) path := by
  induction path generalizing i leafIdx x a with
  | nil => exact randHash_parent H skSeed pubSeed addr x.1 x.2 i (leafIdx >>> 1) ha
  | cons s path ih =>
    obtain ⟨hbase,hvalue⟩ := randHash_parent H skSeed pubSeed addr x.1 x.2 i (leafIdx >>> 1) ha
    rw [climb_cons,← hvalue,← hbase]
    exact ih (i + 1) (leafIdx >>> 1) _ (hbase.trans ha)

theorem rootFromSig_eq (leafIdx : Nat) (leaf : Node p) (path : List (Node p)) {a : Adrs}
    (ha : a.base = ((Adrs.new.copySubtree addr).setType .hashTree).base) :
    (rootFromSig H leafIdx leaf path pubSeed a).1.base = a.base ∧ (rootFromSig H leafIdx leaf path pubSeed a).2 =
        Tree.climb (subtree H skSeed pubSeed addr).parent 0 leafIdx leaf path := by
  cases path with
  | nil => exact ⟨rfl,rfl⟩
  | cons s path =>
    rw [climb_cons]
    exact rootLoop_eq H skSeed pubSeed addr 0 leafIdx _ path ha
end Climb
end PureCrypto.Xmss
