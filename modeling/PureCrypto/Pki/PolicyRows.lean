import PureCrypto.Pki.ValidPolicyTree
import Mathlib.Data.List.ReduceOption

/-! # The rows of the policy arena -/
namespace PureCrypto.Pki.PolicyTree
open List (getElem?_map mem_filter mem_map mem_of_getElem?)
open Forest (Chain Closed Ordered compact exists_chain exists_of_compact remap)
open Rfc5280 (Grown expectedAfter granted)
/-- The arena is a forest below `anyPolicy`, with depths as they should be. -/
structure Arena (t : PolicyTree) : Prop where
  ordered : Ordered t.nodes
  depth_le : ∀ n ∈ t.nodes, n.depth ≤ t.depth
  root : ∀ n ∈ t.nodes, n.parent = none → n.depth = 0 ∧ n.validPolicy = anyPolicy
  link : ∀ (i : Nat) (n : Node) (p : Nat), t.nodes[i]? = some n → n.parent = some p →
    ∃ m, t.nodes[p]? = some m ∧ n.depth = m.depth + 1

/-- A node of the current row, by the policies on the way to it and those it expects. -/
def Row (t : PolicyTree) (path expected : List Oid) : Prop :=
  ∃ i n, t.nodes[i]? = some n ∧ n.depth = t.depth ∧ Chain t.nodes i path ∧
    n.expectedPolicySet = expected
variable {t : PolicyTree} {path expected : List Oid}
theorem arena_initial : Arena initial where
  ordered i n p hn hp := by
    cases List.mem_singleton.mp (mem_of_getElem? hn)
    cases hp
  depth_le n hn := by
    cases List.mem_singleton.mp hn
    exact le_refl _
  root n hn _ := by
    cases List.mem_singleton.mp hn
    exact ⟨rfl,rfl⟩
  link i n p hn hp := by
    cases List.mem_singleton.mp (mem_of_getElem? hn)
    cases hp

theorem row_initial : Row initial path expected ↔ path = [anyPolicy] ∧ expected = [anyPolicy] := by
  constructor
  · rintro ⟨i,n,hn,-,hchain,rfl⟩
    cases List.mem_singleton.mp (mem_of_getElem? hn)
    refine ⟨?_,rfl⟩
    cases hchain with
    | root hn' hp =>
      cases List.mem_singleton.mp (mem_of_getElem? hn')
      rfl
    | child hn' hp _ =>
      cases List.mem_singleton.mp (mem_of_getElem? hn')
      cases hp
  · rintro ⟨rfl,rfl⟩
    let n : Node := ⟨anyPolicy,[anyPolicy],none,0⟩
    have hn : initial.nodes[0]? = some n := rfl
    exact ⟨0,n,hn,rfl,.root hn rfl,rfl⟩

theorem Arena.length_chain (h : Arena t) {i : Nat} {n : Node} (hn : t.nodes[i]? = some n)
    (hchain : Chain t.nodes i path) : path.length = n.depth + 1 := by
  induction hchain generalizing n with
  | @root i n hn' hp =>
    cases hn'.symm.trans hn
    rw [(h.root n (mem_of_getElem? hn) hp).1]
    rfl
  | @child i p n path hn' hp _ ih =>
    cases hn'.symm.trans hn
    obtain ⟨m,hm,hdepth⟩ := h.link i n p hn hp
    rw [List.length_append,ih hm,hdepth]
    rfl
section Compact
variable {keep : List Bool}
theorem Arena.compact (h : Arena t) (hclosed : Closed t.nodes keep) :
    Arena { t with nodes := Forest.compact t.nodes keep } where
  ordered := h.ordered.compact
  depth_le m hm := by
    obtain ⟨k,hk⟩ := List.mem_iff_getElem?.mp hm
    obtain ⟨i,n,hn,-,-,rfl⟩ := exists_of_compact hk
    exact h.depth_le n (mem_of_getElem? hn)
  root m hm hp := by
    obtain ⟨k,hk⟩ := List.mem_iff_getElem?.mp hm
    obtain ⟨i,n,hn,hkept,-,rfl⟩ := exists_of_compact hk
    have hnone : n.parent = none := by
      cases hparent : n.parent with
      | none => rfl
      | some p =>
        have hkp := hclosed i n p hn hparent hkept
        have hmap : (n.parent.bind (remap keep)) = none := hp
        rw [hparent,Option.bind_some,remap,if_pos hkp] at hmap
        cases hmap
    exact h.root n (mem_of_getElem? hn) hnone
  link k m q hm hq := by
    obtain ⟨i,n,hn,hkept,-,rfl⟩ := exists_of_compact hm
    have hmap : (n.parent.bind (remap keep)) = some q := hq
    obtain ⟨p,hp,hpq⟩ := Option.bind_eq_some_iff.mp hmap
    have hkp := hclosed i n p hn hp hkept
    rw [remap,if_pos hkp,Option.some.injEq] at hpq
    obtain ⟨m,hm,hdepth⟩ := h.link i n p hn hp
    subst hpq
    exact ⟨Forest.Linked.relink (m.parent.bind (remap keep)) m,Forest.getElem?_compact hm hkp,hdepth⟩

theorem row_compact (h : Arena t) (hclosed : Closed t.nodes keep) :
    Row { t with nodes := compact t.nodes keep } path expected ↔
      ∃ i n, t.nodes[i]? = some n ∧ keep[i]? = some true ∧ n.depth = t.depth ∧
        Chain t.nodes i path ∧ n.expectedPolicySet = expected := by
  constructor
  · rintro ⟨k,m,hm,hdepth,hchain,rfl⟩
    obtain ⟨i,n,hn,hkept,hmap,rfl⟩ := exists_of_compact hm
    rw [remap,if_pos hkept,Option.some.injEq] at hmap
    obtain ⟨path',hpath'⟩ := exists_chain h.ordered i hn
    have hmoved := hpath'.compact hclosed hkept
    rw [hmap] at hmoved
    rw [hchain.unique hmoved]
    exact ⟨i,n,hn,hkept,hdepth,hpath',rfl⟩
  · rintro ⟨i,n,hn,hkept,hdepth,hchain,rfl⟩
    exact ⟨_,_,Forest.getElem?_compact hn hkept,hdepth,hchain.compact hclosed hkept,rfl⟩

theorem arena_prune (h : Arena t) : Arena t.prune :=
  h.compact (Forest.flagsAbove_marked h.ordered _).2.1

theorem row_prune (h : Arena t) : Row t.prune path expected ↔ Row t path expected := by
  obtain ⟨-,hclosed,hflagged⟩ := Forest.flagsAbove_marked h.ordered fun n => n.depth == t.depth
  rw [prune,row_compact h hclosed]
  constructor
  · rintro ⟨i,n,hn,-,hdepth,hchain,he⟩
    exact ⟨i,n,hn,hdepth,hchain,he⟩
  · rintro ⟨i,n,hn,hdepth,hchain,he⟩
    exact ⟨i,n,hn,hflagged i n hn (by simp [hdepth]),hdepth,hchain,he⟩
variable {mappings : List (Oid × Oid)}
theorem closed_mapped (h : Arena t) : Closed t.nodes (t.nodes.map fun n =>
    !(n.depth == t.depth && mappings.any fun m => m.1 == n.validPolicy)) := by
  intro i n p hn hp _
  obtain ⟨m,hm,hdepth⟩ := h.link i n p hn hp
  have hle := h.depth_le n (mem_of_getElem? hn)
  have hne : m.depth ≠ t.depth := by omega
  rw [getElem?_map,hm]
  simp [hne]

theorem arena_dropMapped (h : Arena t) : Arena (t.dropMapped mappings) :=
  h.compact (closed_mapped h)

theorem row_dropMapped (h : Arena t) : Row (t.dropMapped mappings) path expected ↔
    Row t path expected ∧ ∀ m ∈ mappings, path.getLast? ≠ some m.1 := by
  rw [dropMapped,row_compact h (closed_mapped h)]
  constructor
  · rintro ⟨i,n,hn,hkept,hdepth,hchain,he⟩
    refine ⟨⟨i,n,hn,hdepth,hchain,he⟩,fun m hm hlast => ?_⟩
    rw [hchain.getLast hn,Option.some.injEq] at hlast
    rw [getElem?_map,hn] at hkept
    simp only [Option.map_some,hdepth,beq_self_eq_true,Bool.true_and,Option.some.injEq,
      Bool.not_eq_true',List.any_eq_false,beq_iff_eq] at hkept
    exact hkept m hm hlast.symm
  · rintro ⟨⟨i,n,hn,hdepth,hchain,he⟩,hlast⟩
    refine ⟨i,n,hn,?_,hdepth,hchain,he⟩
    rw [getElem?_map,hn]
    simp only [Option.map_some,hdepth,beq_self_eq_true,Bool.true_and,Option.some.injEq,
      Bool.not_eq_true',List.any_eq_false,beq_iff_eq]
    intro m hm heq
    apply hlast m hm
    rw [hchain.getLast hn,heq]
    rfl
end Compact
section Mapping
variable {mappings : List (Oid × Oid)}
theorem applyPolicyMappings_nodes (t : PolicyTree) (mappings : List (Oid × Oid)) :
    (t.applyPolicyMappings mappings).nodes = t.nodes.map fun n =>
      if n.depth = t.depth then
        { n with expectedPolicySet := expectedAfter mappings n.validPolicy n.expectedPolicySet }
      else n := by
  apply List.map_congr_left
  intro n _
  by_cases hdepth : n.depth = t.depth
  · rw [if_pos hdepth,if_neg (by simp [hdepth])]
    by_cases hempty : (subjectsOf mappings n.validPolicy).isEmpty = true
    · simp only [expectedAfter,if_pos hempty]
    · simp only [expectedAfter,if_neg hempty]
  · simp [hdepth]

private theorem mapped_frame (t : PolicyTree) (mappings : List (Oid × Oid)) (n : Node) :
    let m := if n.depth = t.depth then
        { n with expectedPolicySet := expectedAfter mappings n.validPolicy n.expectedPolicySet }
      else n
    m.parent = n.parent ∧ m.validPolicy = n.validPolicy ∧ m.depth = n.depth := by
  split_ifs <;> exact ⟨rfl,rfl,rfl⟩

theorem arena_applyPolicyMappings (h : Arena t) : Arena (t.applyPolicyMappings mappings) := by
  have hframe := mapped_frame t mappings
  refine ⟨?_,?_,?_,?_⟩ <;> rw [applyPolicyMappings_nodes]
  · exact h.ordered.map fun n => (hframe n).1
  · intro m hm
    obtain ⟨n,hn,rfl⟩ := mem_map.mp hm
    rw [(hframe n).2.2]
    exact h.depth_le n hn
  · intro m hm hp
    obtain ⟨n,hn,rfl⟩ := mem_map.mp hm
    rw [(hframe n).2.2,(hframe n).2.1]
    exact h.root n hn ((hframe n).1.symm.trans hp)
  · intro i m p hm hp
    rw [getElem?_map,Option.map_eq_some_iff] at hm
    obtain ⟨n,hn,rfl⟩ := hm
    obtain ⟨m,hm,hdepth⟩ := h.link i n p hn ((hframe n).1.symm.trans hp)
    refine ⟨_,by rw [getElem?_map,hm]; rfl,?_⟩
    rw [(hframe n).2.2,(hframe m).2.2,hdepth]

theorem row_applyPolicyMappings : Row (t.applyPolicyMappings mappings) path expected ↔
    ∃ before policy, Row t path before ∧ path.getLast? = some policy ∧
      expected = expectedAfter mappings policy before := by
  have hframe := mapped_frame t mappings
  constructor
  · rintro ⟨i,m,hm,hdepth,hchain,rfl⟩
    rw [applyPolicyMappings_nodes] at hm hchain
    rw [Forest.chain_map (fun n => (hframe n).1) (fun n => (hframe n).2.1)] at hchain
    rw [getElem?_map,Option.map_eq_some_iff] at hm
    obtain ⟨n,hn,rfl⟩ := hm
    rw [(hframe n).2.2] at hdepth
    change n.depth = t.depth at hdepth
    refine ⟨n.expectedPolicySet,n.validPolicy,⟨i,n,hn,hdepth,hchain,rfl⟩,hchain.getLast hn,?_⟩
    rw [if_pos hdepth]
  · rintro ⟨before,policy,⟨i,n,hn,hdepth,hchain,rfl⟩,hlast,rfl⟩
    rw [hchain.getLast hn,Option.some.injEq] at hlast
    subst hlast
    refine ⟨i,{ n with expectedPolicySet := expectedAfter mappings n.validPolicy n.expectedPolicySet },
      ?_,hdepth,?_,rfl⟩
    · rw [applyPolicyMappings_nodes,getElem?_map,hn,Option.map_some,if_pos hdepth]
    · rw [applyPolicyMappings_nodes]
      rwa [Forest.chain_map (fun n => (hframe n).1) (fun n => (hframe n).2.1)]
end Mapping
section Growing
theorem mem_of_foldlM {α β ε : Type} {f : List β → α → Except ε (List β)} {P : α → β → Prop}
    {Q : β → Prop} (hP : ∀ a b, P a b → Q b)
    (hf : ∀ acc a acc', (∀ b ∈ acc, Q b) → f acc a = .ok acc' → ∀ b, b ∈ acc' ↔ b ∈ acc ∨ P a b)
    {l : List α} {acc acc' : List β} (hacc : ∀ b ∈ acc, Q b) (h : l.foldlM f acc = .ok acc') (b : β) :
    b ∈ acc' ↔ b ∈ acc ∨ ∃ a ∈ l, P a b := by
  induction l generalizing acc with
  | nil =>
    cases h
    simp
  | cons a l ih =>
    rw [List.foldlM_cons] at h
    cases hstep : f acc a with
    | error e =>
      rw [hstep] at h
      cases h
    | ok acc₁ =>
      rw [hstep] at h
      have hmem := hf acc a acc₁ hacc hstep
      have hacc₁ : ∀ b ∈ acc₁, Q b := by
        intro b hb
        rcases (hmem b).mp hb with hb | hb
        · exact hacc b hb
        · exact hP a b hb
      rw [ih hacc₁ h,hmem,List.exists_mem_cons_iff,or_assoc]
variable {newNodes newNodes' : List Node} {policy : Oid} {p inhibitAnyPolicy : Nat}
theorem mem_pushNode {existing : Nat} {node : Node} (h : pushNode existing newNodes node = .ok newNodes') (n : Node) :
    n ∈ newNodes' ↔ n ∈ newNodes ∨ n = node := by
  unfold pushNode at h
  split_ifs at h
  cases h
  simp

theorem mem_addConcrete {concrete : List Oid} (h : t.addConcrete concrete = .ok newNodes) (n : Node) :
    n ∈ newNodes ↔ ∃ policy ∈ concrete, ∃ p ∈ t.parentsFor policy, n = child (t.depth + 1) policy p := by
  have hpolicy : ∀ acc policy acc', (∀ n ∈ acc, True) →
      (t.parentsFor policy).foldlM (fun newNodes parent =>
        pushNode t.nodes.length newNodes (child (t.depth + 1) policy parent)) acc = .ok acc' →
      ∀ n, n ∈ acc' ↔ n ∈ acc ∨ ∃ p ∈ t.parentsFor policy, n = child (t.depth + 1) policy p := by
    intro acc policy acc' hacc hstep
    exact mem_of_foldlM (P := fun p n => n = child (t.depth + 1) policy p) (fun _ _ _ => trivial)
      (fun _ _ _ _ hpush => mem_pushNode hpush) hacc hstep
  have hmem := mem_of_foldlM (P := fun policy n => ∃ p ∈ t.parentsFor policy,
    n = child (t.depth + 1) policy p) (fun _ _ _ => trivial) hpolicy (fun _ _ => trivial) h n
  simpa using hmem

/-- Every new node is a fresh child, so that its parent and its policy name it. -/
def Fresh (t : PolicyTree) (n : Node) : Prop := ∃ policy p, n = child (t.depth + 1) policy p

theorem mem_addIfNew (hnew : ∀ n ∈ newNodes, Fresh t n)
    (h : (if newNodes.any (fun n => n.parent == some p && n.validPolicy == policy) then .ok newNodes else pushNode t.nodes.length newNodes (child (t.depth + 1) policy p)) = Except.ok newNodes')
    (n : Node) : n ∈ newNodes' ↔ n ∈ newNodes ∨ n = child (t.depth + 1) policy p := by
  split_ifs at h with hany
  · cases h
    obtain ⟨m,hm,hm'⟩ := List.any_eq_true.mp hany
    obtain ⟨policy',p',rfl⟩ := hnew m hm
    simp only [child,Bool.and_eq_true,beq_iff_eq,Option.some.injEq] at hm'
    obtain ⟨rfl,rfl⟩ := hm'
    constructor
    · exact .inl
    · rintro (hn | rfl)
      · exact hn
      · exact hm
  · exact mem_pushNode h n

theorem mem_addExpected (hnew : ∀ n ∈ newNodes, Fresh t n) (h : t.addExpected newNodes = .ok newNodes') (n : Node) :
    n ∈ newNodes' ↔ n ∈ newNodes ∨ ∃ p ∈ t.leafIndices, ∃ policy ∈ (t.nodes[p]?.map Node.expectedPolicySet).getD [],
        n = child (t.depth + 1) policy p := by
  refine mem_of_foldlM (Q := Fresh t) (P := fun p n =>
    ∃ policy ∈ (t.nodes[p]?.map Node.expectedPolicySet).getD [], n = child (t.depth + 1) policy p)
    ?_ ?_ hnew h n
  · rintro p n ⟨policy,-,rfl⟩
    exact ⟨policy,p,rfl⟩
  · intro acc p acc' hacc hstep
    exact mem_of_foldlM (P := fun policy n => n = child (t.depth + 1) policy p)
      (fun policy n hn => ⟨policy,p,hn⟩) (fun _ _ _ hacc hone => mem_addIfNew hacc hone) hacc hstep

theorem mem_leafIndices : p ∈ t.leafIndices ↔ ∃ m, t.nodes[p]? = some m ∧ m.depth = t.depth := by
  rw [leafIndices,mem_filter,List.mem_range]
  constructor
  · rintro ⟨hp,hdepth⟩
    simpa [List.getElem?_eq_getElem hp] using hdepth
  · rintro ⟨m,hm,hdepth⟩
    exact ⟨(List.getElem?_eq_some_iff.mp hm).1,by simp [hm,hdepth]⟩
variable {newNodes : List Node}
theorem arena_grown (h : Arena t)
    (hnew : ∀ n ∈ newNodes, ∃ policy, ∃ p ∈ t.leafIndices, n = child (t.depth + 1) policy p) :
    Arena ⟨t.nodes ++ newNodes, t.depth + 1⟩ where
  ordered := by
    apply h.ordered.append
    intro n hn q hq
    obtain ⟨policy,p,hp,rfl⟩ := hnew n hn
    obtain ⟨m,hm,-⟩ := mem_leafIndices.mp hp
    cases hq
    exact (List.getElem?_eq_some_iff.mp hm).1
  depth_le n hn := by
    rcases List.mem_append.mp hn with hn | hn
    · exact Nat.le_succ_of_le (h.depth_le n hn)
    · obtain ⟨policy,p,-,rfl⟩ := hnew n hn
      exact le_refl _
  root n hn hp := by
    rcases List.mem_append.mp hn with hn | hn
    · exact h.root n hn hp
    · obtain ⟨policy,p,-,rfl⟩ := hnew n hn
      cases hp
  link i n p hn hp := by
    have hold : ∀ {q : Nat} {m : Node}, t.nodes[q]? = some m → (t.nodes ++ newNodes)[q]? = some m := by
      intro q m hm
      rw [List.getElem?_append_left (List.getElem?_eq_some_iff.mp hm).1,hm]
    rcases Nat.lt_or_ge i t.nodes.length with hi | hi
    · rw [List.getElem?_append_left hi] at hn
      obtain ⟨m,hm,hdepth⟩ := h.link i n p hn hp
      exact ⟨m,hold hm,hdepth⟩
    · rw [List.getElem?_append_right hi] at hn
      obtain ⟨policy,q,hq,rfl⟩ := hnew n (mem_of_getElem? hn)
      obtain ⟨m,hm,hdepth⟩ := mem_leafIndices.mp hq
      cases hp
      exact ⟨m,hold hm,by rw [hdepth]; rfl⟩

theorem row_grown (h : Arena t)
    (hnew : ∀ n ∈ newNodes, ∃ policy, ∃ p ∈ t.leafIndices, n = child (t.depth + 1) policy p) :
    Row ⟨t.nodes ++ newNodes, t.depth + 1⟩ path expected ↔
      ∃ policy p above, child (t.depth + 1) policy p ∈ newNodes ∧ Chain t.nodes p above ∧
        path = above ++ [policy] ∧ expected = [policy] := by
  constructor
  · rintro ⟨i,n,hn,hdepth,hchain,rfl⟩
    have hi : t.nodes.length ≤ i := by
      by_contra hlt
      rw [List.getElem?_append_left (by omega)] at hn
      have := h.depth_le n (mem_of_getElem? hn)
      change n.depth = t.depth + 1 at hdepth
      omega
    have hmem : n ∈ newNodes := by
      rw [List.getElem?_append_right hi] at hn
      exact mem_of_getElem? hn
    obtain ⟨policy,p,hp,rfl⟩ := hnew n hmem
    obtain ⟨m,hm,-⟩ := mem_leafIndices.mp hp
    obtain ⟨above,habove⟩ := exists_chain h.ordered p hm
    refine ⟨policy,p,above,hmem,habove,?_,rfl⟩
    exact hchain.unique (.child hn rfl (habove.append newNodes))
  · rintro ⟨policy,p,above,hmem,habove,rfl,rfl⟩
    obtain ⟨k,hk⟩ := List.mem_iff_getElem?.mp hmem
    have hn : (t.nodes ++ newNodes)[t.nodes.length + k]? = some (child (t.depth + 1) policy p) := by
      rw [List.getElem?_append_right (by omega),Nat.add_sub_cancel_left,hk]
    exact ⟨_,_,hn,rfl,.child hn rfl (habove.append newNodes),rfl⟩

theorem mem_parentsFor : p ∈ t.parentsFor policy ↔ p ∈ t.leafIndices ∧ (t.expects p policy = true ∨
      (∀ q ∈ t.leafIndices, t.expects q policy = false) ∧ t.assertsAny p = true) := by
  rw [parentsFor]
  by_cases hmatch : ∀ q ∈ t.leafIndices, t.expects q policy = false
  · have hempty : (t.leafIndices.filter fun i => t.expects i policy) = [] := by simpa using hmatch
    simp only [hempty,List.isEmpty_nil,if_true,mem_filter]
    constructor
    · rintro ⟨hp,hany⟩
      exact ⟨hp,.inr ⟨hmatch,hany⟩⟩
    · rintro ⟨hp,hexp | ⟨-,hany⟩⟩
      · rw [hmatch p hp] at hexp
        cases hexp
      · exact ⟨hp,hany⟩
  · have hne : (t.leafIndices.filter fun i => t.expects i policy).isEmpty ≠ true := by
      simpa using hmatch
    rw [if_neg hne,mem_filter]
    constructor
    · rintro ⟨hp,hexp⟩
      exact ⟨hp,.inl hexp⟩
    · rintro ⟨hp,hexp | ⟨hnone,-⟩⟩
      · exact ⟨hp,hexp⟩
      · exact absurd hnone hmatch

theorem exists_row (h : Arena t) (hp : p ∈ t.leafIndices) :
    ∃ n path, t.nodes[p]? = some n ∧ Chain t.nodes p path ∧ Row t path n.expectedPolicySet := by
  obtain ⟨n,hn,hdepth⟩ := mem_leafIndices.mp hp
  obtain ⟨path,hchain⟩ := exists_chain h.ordered p hn
  exact ⟨n,path,hn,hchain,p,n,hn,hdepth,hchain,rfl⟩

theorem expects_eq_true {n : Node} (hn : t.nodes[p]? = some n) :
    t.expects p policy = true ↔ policy ∈ n.expectedPolicySet := by
  simp [expects,hn]

theorem assertsAny_eq_true {n : Node} (hn : t.nodes[p]? = some n) (hchain : Chain t.nodes p path) :
    t.assertsAny p = true ↔ path.getLast? = some anyPolicy := by
  rw [hchain.getLast hn,Option.some.injEq]
  simp only [assertsAny,hn,Option.any_some,beq_iff_eq]
  rfl

theorem grown_iff (h : Arena t) {policies : List Oid} {anyAllowed : Prop} {above : List Oid} :
    Grown (Row t) policies anyAllowed above policy ↔ ∃ p, p ∈ t.leafIndices ∧ Chain t.nodes p above ∧
        ((policy ∈ policies ∧ policy ≠ anyPolicy ∧ p ∈ t.parentsFor policy) ∨ (anyPolicy ∈ policies ∧ anyAllowed ∧
            policy ∈ (t.nodes[p]?.map Node.expectedPolicySet).getD [])) := by
  have hnone : (∀ q ∈ t.leafIndices, t.expects q policy = false) ↔
      ∀ path e, Row t path e → policy ∉ e := by
    constructor
    · rintro hq path e ⟨q,n,hn,hdepth,hchain,rfl⟩ hmem
      have hfalse := hq q (mem_leafIndices.mpr ⟨n,hn,hdepth⟩)
      rw [(expects_eq_true hn).mpr hmem] at hfalse
      cases hfalse
    · intro hrow q hq
      obtain ⟨n,path,hn,-,hr⟩ := exists_row h hq
      rw [← Bool.not_eq_true,expects_eq_true hn]
      exact hrow path _ hr
  constructor
  · rintro ⟨e,⟨p,n,hn,hdepth,hchain,rfl⟩,hwhy⟩
    have hp : p ∈ t.leafIndices := mem_leafIndices.mpr ⟨n,hn,hdepth⟩
    refine ⟨p,hp,hchain,?_⟩
    rw [mem_parentsFor,expects_eq_true hn,hnone,assertsAny_eq_true hn hchain,hn]
    exact hwhy.imp (fun ⟨hpolicy,hne,hparent⟩ => ⟨hpolicy,hne,hp,hparent⟩) id
  · rintro ⟨p,hp,hchain,hwhy⟩
    obtain ⟨n,hn,hdepth⟩ := mem_leafIndices.mp hp
    refine ⟨n.expectedPolicySet,⟨p,n,hn,hdepth,hchain,rfl⟩,?_⟩
    rw [mem_parentsFor,expects_eq_true hn,hnone,assertsAny_eq_true hn hchain,hn] at hwhy
    exact hwhy.imp (fun ⟨hpolicy,hne,_,hparent⟩ => ⟨hpolicy,hne,hparent⟩) id

theorem mem_newRow {policies : List Oid} (h : t.newRow policies inhibitAnyPolicy = .ok newNodes)
    (n : Node) : n ∈ newNodes ↔ ∃ policy, ∃ p ∈ t.leafIndices, n = child (t.depth + 1) policy p ∧
      ((policy ∈ policies ∧ policy ≠ anyPolicy ∧ p ∈ t.parentsFor policy) ∨
        (anyPolicy ∈ policies ∧ 0 < inhibitAnyPolicy ∧
          policy ∈ (t.nodes[p]?.map Node.expectedPolicySet).getD [])) := by
  obtain ⟨concrete,hconcrete,hadded⟩ := bind_eq_ok.mp h
  have hfirst : ∀ n, n ∈ concrete ↔ ∃ policy, ∃ p ∈ t.leafIndices,
      n = child (t.depth + 1) policy p ∧ policy ∈ policies ∧ policy ≠ anyPolicy ∧
        p ∈ t.parentsFor policy := by
    intro n
    rw [mem_addConcrete hconcrete]
    constructor
    · rintro ⟨policy,hpolicy,p,hp,rfl⟩
      obtain ⟨hpolicy,hne⟩ := mem_filter.mp hpolicy
      exact ⟨policy,p,(mem_parentsFor.mp hp).1,rfl,hpolicy,by simpa using hne,hp⟩
    · rintro ⟨policy,p,-,rfl,hpolicy,hne,hp⟩
      exact ⟨policy,mem_filter.mpr ⟨hpolicy,by simpa using hne⟩,p,hp,rfl⟩
  have hfresh : ∀ n ∈ concrete, Fresh t n := by
    intro n hn
    obtain ⟨policy,p,-,rfl,-⟩ := (hfirst n).mp hn
    exact ⟨policy,p,rfl⟩
  split_ifs at hadded with hany
  · rw [Bool.and_eq_true,List.contains_iff_mem,decide_eq_true_eq] at hany
    rw [mem_addExpected hfresh hadded,hfirst]
    constructor
    · rintro (⟨policy,p,hp,rfl,hwhy⟩ | ⟨p,hp,policy,hpolicy,rfl⟩)
      · exact ⟨policy,p,hp,rfl,.inl hwhy⟩
      · exact ⟨policy,p,hp,rfl,.inr ⟨hany.1,hany.2,hpolicy⟩⟩
    · rintro ⟨policy,p,hp,rfl,hwhy | ⟨-,-,hpolicy⟩⟩
      · exact .inl ⟨policy,p,hp,rfl,hwhy⟩
      · exact .inr ⟨p,hp,policy,hpolicy,rfl⟩
  · cases hadded
    rw [hfirst]
    constructor
    · rintro ⟨policy,p,hp,rfl,hwhy⟩
      exact ⟨policy,p,hp,rfl,.inl hwhy⟩
    · rintro ⟨policy,p,hp,rfl,hwhy | ⟨hmem,hallowed,-⟩⟩
      · exact ⟨policy,p,hp,rfl,hwhy⟩
      · rw [Bool.and_eq_true,List.contains_iff_mem,decide_eq_true_eq] at hany
        exact absurd ⟨hmem,hallowed⟩ hany

theorem processCertificatePolicies_spec (h : Arena t) {t' : PolicyTree} {cert : Certificate}
    {policies : PolicyList} (hpolicies : cert.certificatePolicies = .ok (some policies))
    (ht : t.processCertificatePolicies cert inhibitAnyPolicy = .ok t') :
    Arena t' ∧ ∀ path expected, Row t' path expected ↔
      ∃ above policy, path = above ++ [policy] ∧ expected = [policy] ∧
        Grown (Row t) policies.oids (0 < inhibitAnyPolicy) above policy := by
  obtain ⟨found,hfound,ht⟩ := bind_eq_ok.mp ht
  rw [orBad_eq_ok,hpolicies,Except.ok.injEq] at hfound
  subst hfound
  obtain ⟨newNodes,hnewRow,ht⟩ := bind_eq_ok.mp ht
  cases ht
  have hmem := mem_newRow hnewRow
  have hnew : ∀ n ∈ newNodes, ∃ policy, ∃ p ∈ t.leafIndices, n = child (t.depth + 1) policy p := by
    intro n hn
    obtain ⟨policy,p,hp,rfl,-⟩ := (hmem n).mp hn
    exact ⟨policy,p,hp,rfl⟩
  refine ⟨arena_grown h hnew,fun path expected => ?_⟩
  rw [row_grown h hnew]
  constructor
  · rintro ⟨policy,p,above,hn,hchain,rfl,rfl⟩
    obtain ⟨policy',p',hp,heq,hwhy⟩ := (hmem _).mp hn
    cases heq
    exact ⟨above,policy,rfl,rfl,(grown_iff h).mpr ⟨p,hp,hchain,hwhy⟩⟩
  · rintro ⟨above,policy,rfl,rfl,hgrown⟩
    obtain ⟨p,hp,hchain,hwhy⟩ := (grown_iff h).mp hgrown
    exact ⟨policy,p,above,(hmem _).mpr ⟨policy,p,hp,rfl,hwhy⟩,hchain,rfl,rfl⟩
end Growing
section Branch
theorem branch_chain (h : Arena t) {i : Nat} {n : Node} (hn : t.nodes[i]? = some n)
    (hdepth : 0 < n.depth) (hchain : Chain t.nodes i path) {fuel : Nat} (hfuel : i < fuel) :
    (t.branch fuel i).reverse.filterMap (fun i => t.nodes[i]?.map Node.validPolicy) = path.tail := by
  induction hchain generalizing n fuel with
  | @root i n hn' hp =>
    cases hn'.symm.trans hn
    rw [(h.root n (mem_of_getElem? hn) hp).1] at hdepth
    cases hdepth
  | @child i p n path hn' hp hchain ih =>
    cases hn'.symm.trans hn
    obtain ⟨m,hm,hlink⟩ := h.link i n p hn hp
    have hlength := h.length_chain hm hchain
    have hlt := h.ordered i n p hn hp
    change n.parent = some p at hp
    cases fuel with
    | zero => omega
    | succ fuel =>
      rw [branch,hn]
      dsimp only
      split_ifs with hone
      · have hpath : path.length = 1 := by omega
        obtain ⟨x,rfl⟩ := List.length_eq_one_iff.mp hpath
        simp only [List.reverse_singleton,List.filterMap_cons,List.filterMap_nil,hn]
        rfl
      · have hplen : p < t.nodes.length := (List.getElem?_eq_some_iff.mp hm).1
        have hpath : path ≠ [] := List.ne_nil_of_length_pos (by omega)
        rw [hp]
        dsimp only
        rw [if_pos hplen,List.reverse_cons,List.filterMap_append,
          ih hm (by omega) (by omega),List.tail_append_of_ne_nil hpath]
        simp only [List.filterMap_cons,List.filterMap_nil,hn]
        rfl

theorem Arena.head_chain (h : Arena t) {i : Nat} (hchain : Chain t.nodes i path) : path.head? = some anyPolicy := by
  induction hchain with
  | @root i n hn hp =>
    rw [← (h.root n (mem_of_getElem? hn) hp).2]
    rfl
  | child _ _ _ ih =>
    rw [List.head?_append,ih]
    rfl

theorem branchPolicy_eq (h : Arena t) {i : Nat} {n : Node} (hn : t.nodes[i]? = some n)
    (hdepth : 0 < n.depth) (hchain : Chain t.nodes i path) : t.branchPolicy i = granted path := by
  rw [branchPolicy,branch_chain h hn hdepth hchain (List.getElem?_eq_some_iff.mp hn).1,granted]
  -- the root is `anyPolicy`
  obtain ⟨below,rfl⟩ := List.head?_eq_some_iff.mp (h.head_chain hchain)
  simp

theorem mem_foldl_insert {l acc : List Oid} {u : Oid} :
    u ∈ l.foldl (fun acc p => if acc.contains p then acc else acc ++ [p]) acc ↔ u ∈ acc ∨ u ∈ l := by
  induction l generalizing acc with
  | nil => simp
  | cons p l ih =>
    rw [List.foldl_cons,ih,List.mem_cons]
    split_ifs with hp
    · have : p ∈ acc := by simpa using hp
      exact (or_left_comm.trans (or_iff_right_of_imp fun h => .inl (h ▸ this))).symm
    · rw [List.mem_append,List.mem_singleton,or_assoc]

def AcceptedBy (userSet : Option (List Oid)) (path : List Oid) : Prop :=
  ∀ set, userSet = some set → (∃ p ∈ set, granted path = some p) ∨ (granted path = none ∧ set ≠ [])

theorem exists_accepted (h : Arena t) {userSet : Option (List Oid)} (hne : t.intersectWithUserSet userSet ≠ []) :
    ∃ path e, Row t path e ∧ AcceptedBy userSet path := by
  unfold intersectWithUserSet at hne
  split_ifs at hne with hempty
  · exact absurd rfl hne
  have hdepth : 0 < t.depth := by
    simp only [Bool.or_eq_true,beq_iff_eq,not_or] at hempty
    omega
  have hleaf : ∀ o ∈ t.leafIndices.map t.branchPolicy, ∃ path e, Row t path e ∧ o = granted path := by
    intro o ho
    obtain ⟨i,hi,rfl⟩ := mem_map.mp ho
    obtain ⟨n,hn,hnd⟩ := mem_leafIndices.mp hi
    obtain ⟨path,hchain⟩ := exists_chain h.ordered i hn
    exact ⟨path,_,⟨i,n,hn,hnd,hchain,rfl⟩,branchPolicy_eq h hn (hnd ▸ hdepth) hchain⟩
  generalize t.leafIndices.map t.branchPolicy = policies at hne hleaf
  cases userSet with
  | none =>
    have hsome : policies ≠ [] := by
      rintro rfl
      exact hne rfl
    obtain ⟨o,ho⟩ := List.exists_mem_of_ne_nil _ hsome
    obtain ⟨path,e,hrow,-⟩ := hleaf o ho
    exact ⟨path,e,hrow,nofun⟩
  | some set =>
    obtain ⟨u,hu⟩ := List.exists_mem_of_ne_nil _ hne
    have hpolicy : u ∈ (policies.reduceOption.foldl
        (fun acc p => if acc.contains p then acc else acc ++ [p]) []).filter
          (fun p => set.contains p) →
        ∃ path e, Row t path e ∧ AcceptedBy (some set) path := by
      intro hu
      rw [mem_filter,mem_foldl_insert,List.reduceOption_mem_iff] at hu
      obtain ⟨path,e,hrow,hgranted⟩ := hleaf _ (hu.1.resolve_left List.not_mem_nil)
      refine ⟨path,e,hrow,fun set' hset => .inl ⟨u,?_,hgranted.symm⟩⟩
      cases hset
      simpa using hu.2
    dsimp only at hu
    split_ifs at hu with hany
    · rw [mem_foldl_insert] at hu
      rcases hu with hu | hu
      · exact hpolicy hu
      · obtain ⟨o,ho,hnone⟩ := List.any_eq_true.mp hany
        obtain ⟨path,e,hrow,rfl⟩ := hleaf o ho
        refine ⟨path,e,hrow,fun set' hset => .inr ⟨by simpa using hnone,?_⟩⟩
        cases hset
        exact List.ne_nil_of_mem hu
    · exact hpolicy hu
end Branch
end PureCrypto.Pki.PolicyTree
