import PureCrypto.Framework.HashTree
import PureCrypto.Xmss.Wots

/-! # One-time keys -/
namespace PureCrypto.Xmss
open HashTree List Nat
namespace Adrs
/-- The words that a step of a chain or a level of a tree does not set. -/
def trunk (a : Adrs) : Adrs := { a with word6 := 0, word7 := 0 }

/-- The words that a key pair or an L-tree does not set. -/
def base (a : Adrs) : Adrs := { a with word5 := 0, word6 := 0, word7 := 0 }

/-- The words that a subtree does not set. -/
def stem (a : Adrs) : Adrs := { a with word4 := 0, word5 := 0, word6 := 0, word7 := 0 }
variable {a b : Adrs}
theorem base_eq_of_trunk (h : a.trunk = b.trunk) : a.base = b.base :=
  show a.trunk.base = b.trunk.base from congrArg base h

theorem stem_eq_of_base (h : a.base = b.base) : a.stem = b.stem :=
  show a.base.stem = b.base.stem from congrArg stem h
theorem trunk_setChain (h : a.base = b.base) (c : Nat) : (a.setChain c).trunk = (b.setChain c).trunk :=
  show (a.base.setChain c).trunk = (b.base.setChain c).trunk from congrArg (fun a => (setChain a c).trunk) h

theorem trunk_setTreeHeight (h : a.base = b.base) (c : Nat) : (a.setTreeHeight c).trunk = (b.setTreeHeight c).trunk :=
  show (a.base.setTreeHeight c).trunk = (b.base.setTreeHeight c).trunk from
    congrArg (fun a => (setTreeHeight a c).trunk) h

theorem base_setOts (h : a.stem = b.stem) (c : Nat) : (a.setOts c).base = (b.setOts c).base :=
  show (a.stem.setOts c).base = (b.stem.setOts c).base from congrArg (fun a => (setOts a c).base) h

theorem base_setLtree (h : a.stem = b.stem) (c : Nat) : (a.setLtree c).base = (b.setLtree c).base :=
  show (a.stem.setLtree c).base = (b.stem.setLtree c).base from congrArg (fun a => (setLtree a c).base) h
end Adrs
variable {p : Params} (H : HashFunctions p)
def chainStep (pubSeed : Node p) (addr : Adrs) (i : Nat) (x : Node p) : Node p :=
  (wotsStep H pubSeed (addr, x) i).2
variable {a b c : Adrs}
section
variable (pubSeed : Node p)
theorem chainStep_eq (h : a.trunk = b.trunk) : chainStep H pubSeed a = chainStep H pubSeed b := by
  funext i x
  have hstep := congrArg (fun a => chainStep H pubSeed a i x) h
  exact hstep

theorem foldl_wotsStep (addr : Adrs) (x : Node p) (start steps : Nat) :
    ((List.range' start steps).foldl (wotsStep H pubSeed) (addr, x)).1.trunk = addr.trunk ∧
      ((List.range' start steps).foldl (wotsStep H pubSeed) (addr, x)).2 =
        chain (chainStep H pubSeed addr) start steps x := by
  induction steps with
  | zero => exact ⟨rfl,rfl⟩
  | succ steps ih =>
    obtain ⟨htrunk,hvalue⟩ := ih
    rw [range'_concat,foldl_append,one_mul,chain,← hvalue,← chainStep_eq H pubSeed htrunk]
    exact ⟨htrunk,rfl⟩

theorem wotsChain_spec (pubSeed x : Node p) (addr : Adrs) {start stop : Nat} (hstart : start ≤ stop)
    (hstop : stop ≤ p.wotsW) : (wotsChain H pubSeed x start (stop - start) addr).1.trunk = addr.trunk ∧
      (wotsChain H pubSeed x start (stop - start) addr).2 =
        chain (chainStep H pubSeed addr) start (stop - start) x := by
  have hlength : min (start + (stop - start)) p.wotsW - start = stop - start := by omega
  unfold wotsChain
  dsimp only
  rw [hlength]
  exact foldl_wotsStep H pubSeed addr x start _

/-- Chains keep the first five words, and depend on no others. -/
theorem wotsChains_spec (i : Nat) (ts : List (Node p × Nat × Nat))
    (hab : a.base = b.base) (h : ∀ t ∈ ts, t.2.1 ≤ t.2.2 ∧ t.2.2 ≤ p.wotsW) :
    (wotsChains H pubSeed i ts a).1.base = a.base ∧
      (wotsChains H pubSeed i ts a).2 = (wotsChains H pubSeed i ts b).2 := by
  induction ts generalizing i a b with
  | nil => exact ⟨rfl,rfl⟩
  | cons t ts ih =>
    obtain ⟨x,pos,stop⟩ := t
    obtain ⟨ht,hts⟩ := forall_mem_cons.mp h
    have hchain := wotsChain_spec H pubSeed x (a.setChain i) ht.1 ht.2
    have hchain' := wotsChain_spec H pubSeed x (b.setChain i) ht.1 ht.2
    have hbase := Adrs.base_eq_of_trunk hchain.1
    have hbase' := Adrs.base_eq_of_trunk hchain'.1
    obtain ⟨hrest,hvalues⟩ := ih (i + 1) (hbase.trans (hab.trans hbase'.symm)) hts
    have hvalue := hchain.2
    rw [chainStep_eq H pubSeed (Adrs.trunk_setChain hab i),← hchain'.2] at hvalue
    exact ⟨hrest.trans hbase,congrArg₂ List.cons hvalue hvalues⟩

/-- A signature taken to the ends of its chains gives the ends. -/
theorem wotsChains_compose (i : Nat) (xs : List (Node p)) (ls : List Nat)
    (hlength : xs.length = ls.length) (hls : ∀ l ∈ ls, l ≤ p.wotsW - 1) (hab : a.base = b.base)
    (hbc : b.base = c.base) :
    (wotsChains H pubSeed i (((wotsChains H pubSeed i ((xs.zip ls).map fun x => (x.1, 0, x.2)) a).2.zip ls).map
        fun x => (x.1, x.2, p.wotsW - 1)) b).2 =
      (wotsChains H pubSeed i (xs.map fun x => (x, 0, p.wotsW - 1)) c).2 := by
  induction xs generalizing i ls a b c with
  | nil => rfl
  | cons x xs ih =>
    obtain ⟨l,ls,rfl⟩ := exists_cons_of_length_pos (by rw [← hlength]; simp)
    obtain ⟨hl,hls⟩ := forall_mem_cons.mp hls
    have hw : p.wotsW - 1 ≤ p.wotsW := sub_le _ _
    have hsign := wotsChain_spec H pubSeed x (a.setChain i) (zero_le l) (hl.trans hw)
    have hverify := wotsChain_spec H pubSeed (wotsChain H pubSeed x 0 (l - 0) (a.setChain i)).2
      (b.setChain i) hl hw
    have hfull := wotsChain_spec H pubSeed x (c.setChain i) (zero_le _) hw
    have hhead : (wotsChain H pubSeed (wotsChain H pubSeed x 0 (l - 0) (a.setChain i)).2 l
        (p.wotsW - 1 - l) (b.setChain i)).2 =
        (wotsChain H pubSeed x 0 (p.wotsW - 1 - 0) (c.setChain i)).2 := by
      have hcompose := chain_add (chainStep H pubSeed (c.setChain i)) 0 l (p.wotsW - 1 - l) x
      rw [zero_add,Nat.add_sub_cancel' hl] at hcompose
      rw [hverify.2,hsign.2,hfull.2,chainStep_eq H pubSeed (Adrs.trunk_setChain (hab.trans hbc) i),
        chainStep_eq H pubSeed (Adrs.trunk_setChain hbc i)]
      exact hcompose
    have htail := ih (i + 1) ls (by simpa using hlength) hls
      (a := (wotsChain H pubSeed x 0 (l - 0) (a.setChain i)).1)
      (b := (wotsChain H pubSeed (wotsChain H pubSeed x 0 (l - 0) (a.setChain i)).2 l
        (p.wotsW - 1 - l) (b.setChain i)).1)
      (c := (wotsChain H pubSeed x 0 (p.wotsW - 1 - 0) (c.setChain i)).1)
      ((Adrs.base_eq_of_trunk hsign.1).trans (hab.trans (Adrs.base_eq_of_trunk hverify.1).symm))
      ((Adrs.base_eq_of_trunk hverify.1).trans (hbc.trans (Adrs.base_eq_of_trunk hfull.1).symm))
    exact congrArg₂ List.cons hhead htail

theorem length_wotsChains (i : Nat) (ts : List (Node p × Nat × Nat)) (addr : Adrs) :
    (wotsChains H pubSeed i ts addr).2.length = ts.length := by
  induction ts generalizing i addr with
  | nil => rfl
  | cons t ts ih => exact congrArg (· + 1) (ih (i + 1) _)
end
variable (skSeed pubSeed : Node p)
theorem expandLoop_spec (i count : Nat) (h : (a.setChain 0) = (b.setChain 0)) :
    (expandLoop H skSeed pubSeed i count a).1.base = a.base ∧
      (expandLoop H skSeed pubSeed i count a).2 = (expandLoop H skSeed pubSeed i count b).2 := by
  induction count generalizing i a b with
  | zero => exact ⟨rfl,rfl⟩
  | succ count ih =>
    have hset : a.setChain i = b.setChain i :=
      show (a.setChain 0).setChain i = (b.setChain 0).setChain i from congrArg (Adrs.setChain · i) h
    obtain ⟨hbase,hvalue⟩ := ih (i + 1) (congrArg (Adrs.setChain · 0) hset)
    exact ⟨hbase,congrArg₂ List.cons (congrArg (fun a => H.prfKeygen skSeed pubSeed a.toBytes) hset) hvalue⟩

theorem wotsExpandSeed_spec (h : a.base = b.base) : (wotsExpandSeed H skSeed pubSeed a).1.base = a.base ∧
      (wotsExpandSeed H skSeed pubSeed a).2 = (wotsExpandSeed H skSeed pubSeed b).2 := by
  have hset : ((a.setHash 0).setKeyAndMask 0).setChain 0 = ((b.setHash 0).setKeyAndMask 0).setChain 0 :=
    show ((a.base.setHash 0).setKeyAndMask 0).setChain 0 = ((b.base.setHash 0).setKeyAndMask 0).setChain 0
      from congrArg (fun a => ((Adrs.setHash a 0).setKeyAndMask 0).setChain 0) h
  exact expandLoop_spec H skSeed pubSeed 0 p.wotsLen hset

theorem length_wotsExpandSeed (addr : Adrs) : (wotsExpandSeed H skSeed pubSeed addr).2.length = p.wotsLen := by
  unfold wotsExpandSeed
  generalize (addr.setHash 0).setKeyAndMask 0 = a
  suffices h : ∀ i count a, (expandLoop H skSeed pubSeed i count a).2.length = count from h 0 p.wotsLen a
  intro i count a
  induction count generalizing i a with
  | zero => rfl
  | succ count ih => exact congrArg (· + 1) (ih (i + 1) _)

theorem length_baseW (count : Nat) (input : List UInt8) (total bits : Nat) :
    (baseW p count input total bits).length = count := by
  induction count generalizing input total bits with
  | zero => rfl
  | succ count ih =>
    rw [baseW]
    split_ifs <;> simp [ih]

theorem baseW_le {l : Nat} (count : Nat) (input : List UInt8) (total bits : Nat)
    (h : l ∈ baseW p count input total bits) : l ≤ p.wotsW - 1 := by
  induction count generalizing input total bits with
  | zero => cases h
  | succ count ih =>
    rcases List.mem_cons.mp h with rfl | h
    · exact and_le_right
    · exact ih _ _ _ h

theorem length_chainLengths (hp : p.Valid) (msg : List UInt8) : (chainLengths p msg).length = p.wotsLen := by
  rw [chainLengths,length_append,length_baseW,length_baseW,hp.wotsLen_eq]

theorem chainLengths_le {msg : List UInt8} {l : Nat} (h : l ∈ chainLengths p msg) : l ≤ p.wotsW - 1 := by
  rcases List.mem_append.mp h with h | h
  · exact baseW_le _ _ _ _ h
  · exact baseW_le _ _ _ _ h

theorem length_wotsSign (hp : p.Valid) (msg skSeed pubSeed : Node p) (addr : Adrs) :
    (wotsSign H msg skSeed pubSeed addr).2.length = p.wotsLen := by
  have hlength := length_wotsExpandSeed H skSeed pubSeed addr
  rw [wotsSign]
  simp [length_wotsChains,hlength,length_chainLengths hp]

theorem wotsSign_base (msg skSeed pubSeed : Node p) (addr : Adrs) :
    (wotsSign H msg skSeed pubSeed addr).1.base = addr.base := by
  have hw : p.wotsW - 1 ≤ p.wotsW := sub_le _ _
  refine (wotsChains_spec H pubSeed 0 _ rfl ?_).1.trans (wotsExpandSeed_spec H skSeed pubSeed rfl).1
  intro t ht
  obtain ⟨x,hx,rfl⟩ := List.mem_map.mp ht
  exact ⟨zero_le _,(chainLengths_le (of_mem_zip hx).2).trans hw⟩

theorem wotsPkFromSig_base (sig : List (Node p)) (msg pubSeed : Node p) (addr : Adrs) :
    (wotsPkFromSig H sig msg pubSeed addr).1.base = addr.base := by
  refine (wotsChains_spec H pubSeed 0 _ rfl ?_).1
  intro t ht
  obtain ⟨x,hx,rfl⟩ := List.mem_map.mp ht
  exact ⟨chainLengths_le (of_mem_zip hx).2,sub_le _ _⟩

theorem wotsPkgen_spec (h : a.base = b.base) : (wotsPkgen H skSeed pubSeed a).1.base = a.base ∧
      (wotsPkgen H skSeed pubSeed a).2 = (wotsPkgen H skSeed pubSeed b).2 := by
  obtain ⟨hbase,hstarts⟩ := wotsExpandSeed_spec H skSeed pubSeed h
  obtain ⟨hbase',_⟩ := wotsExpandSeed_spec H skSeed pubSeed h.symm
  have hfull : ∀ t ∈ (wotsExpandSeed H skSeed pubSeed a).2.map (fun x => (x, 0, p.wotsW - 1)),
      t.2.1 ≤ t.2.2 ∧ t.2.2 ≤ p.wotsW := by
    intro t ht
    obtain ⟨x,hx,rfl⟩ := List.mem_map.mp ht
    exact ⟨zero_le _,sub_le _ _⟩
  obtain ⟨hchains,hvalue⟩ :=
    wotsChains_spec H pubSeed 0 _ (hbase.trans (h.trans hbase'.symm)) hfull
  refine ⟨hchains.trans hbase,hvalue.trans ?_⟩
  rw [hstarts]
  rfl

theorem wotsPkFromSig_wotsSign (hp : p.Valid) (msg skSeed pubSeed : Node p) (hab : a.base = b.base)
    (hbc : b.base = c.base) : (wotsPkFromSig H (wotsSign H msg skSeed pubSeed a).2 msg pubSeed b).2 =
      (wotsPkgen H skSeed pubSeed c).2 := by
  obtain ⟨hbase,hstarts⟩ := wotsExpandSeed_spec H skSeed pubSeed (hab.trans hbc)
  obtain ⟨hbase',_⟩ := wotsExpandSeed_spec H skSeed pubSeed rfl
  have hlength : (wotsExpandSeed H skSeed pubSeed a).2.length = (chainLengths p msg.toList).length := by
    rw [length_wotsExpandSeed,length_chainLengths hp]
  have hcompose := wotsChains_compose H pubSeed 0 (wotsExpandSeed H skSeed pubSeed a).2
    (chainLengths p msg.toList) hlength (fun l hl => chainLengths_le hl) (hbase.trans hab)
    (hbc.trans hbase'.symm)
  have hpk : (wotsPkgen H skSeed pubSeed c).2 =
      (wotsChains H pubSeed 0 ((wotsExpandSeed H skSeed pubSeed c).2.map fun x => (x, 0, p.wotsW - 1))
        (wotsExpandSeed H skSeed pubSeed c).1).2 := rfl
  rw [hpk,← hstarts]
  exact hcompose

theorem randHash_spec (left right pubSeed : Node p) (i : Nat) (h : a.trunk = b.trunk) :
    (randHash H left right pubSeed (a.setTreeIndex i)).1.trunk = a.trunk ∧
      (randHash H left right pubSeed (a.setTreeIndex i)).2 =
        (randHash H left right pubSeed (b.setTreeIndex i)).2 := by
  have hvalue := congrArg (fun a => (randHash H left right pubSeed (Adrs.setTreeIndex a i)).2) h
  exact ⟨rfl,hvalue⟩

theorem lTreeLevel_spec (pubSeed : Node p) (i : Nat) : (xs : List (Node p)) → {a b : Adrs} →
    a.trunk = b.trunk → (lTreeLevel H pubSeed i xs a).1.trunk = a.trunk ∧
      (lTreeLevel H pubSeed i xs a).2 = (lTreeLevel H pubSeed i xs b).2
  | [], _, _, _ => ⟨rfl,rfl⟩
  | [_], _, _, _ => ⟨rfl,rfl⟩
  | x :: y :: xs, _, _, h => by
    obtain ⟨htrunk,hvalue⟩ := randHash_spec H x y pubSeed i h
    obtain ⟨htrunk',_⟩ := randHash_spec H x y pubSeed i h.symm
    obtain ⟨hrest,hvalues⟩ := lTreeLevel_spec pubSeed (i + 1) xs (htrunk.trans (h.trans htrunk'.symm))
    exact ⟨hrest.trans htrunk,congrArg₂ List.cons hvalue hvalues⟩

theorem lTreeLoop_spec (pubSeed : Node p) (height : Nat) (xs : List (Node p))
    (h : a.trunk = b.trunk) : (lTreeLoop H pubSeed height xs a).1.base = a.base ∧
      (lTreeLoop H pubSeed height xs a).2 = (lTreeLoop H pubSeed height xs b).2 := by
  induction hn : xs.length using Nat.strong_induction_on generalizing height xs a b with
  | _ n ih =>
    unfold lTreeLoop
    split_ifs with hlong
    · obtain ⟨htrunk,hvalue⟩ := lTreeLevel_spec H pubSeed 0 xs h
      obtain ⟨htrunk',_⟩ := lTreeLevel_spec H pubSeed 0 xs h.symm
      have hshort : (lTreeLevel H pubSeed 0 xs a).2.length < n := by
        rw [length_lTreeLevel]
        omega
      have hnext := Adrs.trunk_setTreeHeight
        (Adrs.base_eq_of_trunk (htrunk.trans (h.trans htrunk'.symm))) (height + 1)
      obtain ⟨hbase,hrest⟩ := ih _ hshort (height + 1) _ hnext rfl
      have hlevel := Adrs.base_eq_of_trunk htrunk
      refine ⟨hbase.trans hlevel,?_⟩
      rw [hrest,hvalue]
    · exact ⟨rfl,rfl⟩

theorem lTree_spec (wotsPk : List (Node p)) (pubSeed : Node p) (h : a.base = b.base) :
    (lTree H wotsPk pubSeed a).1.base = a.base ∧ (lTree H wotsPk pubSeed a).2 = (lTree H wotsPk pubSeed b).2 :=
  lTreeLoop_spec H pubSeed 0 wotsPk (Adrs.trunk_setTreeHeight h 0)

theorem genLeaf_spec {a' b' : Adrs} (ha : a.base = a'.base) (hb : b.base = b'.base) :
    (genLeaf H skSeed pubSeed a b).1.base = a.base ∧ (genLeaf H skSeed pubSeed a b).2.1.base = b.base ∧
      (genLeaf H skSeed pubSeed a b).2.2 = (genLeaf H skSeed pubSeed a' b').2.2 := by
  obtain ⟨hots,hpk⟩ := wotsPkgen_spec H skSeed pubSeed hb
  obtain ⟨hltree,hleaf⟩ := lTree_spec H (wotsPkgen H skSeed pubSeed b).2 pubSeed ha
  refine ⟨hltree,hots,hleaf.trans ?_⟩
  rw [hpk]
  rfl
end PureCrypto.Xmss
