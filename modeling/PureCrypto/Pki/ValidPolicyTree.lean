import PureCrypto.Pki.PolicyProcedure

/-! # The rows of the reference tree -/
namespace PureCrypto.Pki.Rfc5280
open List
open List (any_eq_false mem_map)
open PolicyTree (subjectsOf)
/-- The nodes that a certificate with `policies` grows below `parents`. -/
def Grown (parents : List Oid → List Oid → Prop) (policies : List Oid) (anyAllowed : Prop)
    (above : List Oid) (policy : Oid) : Prop :=
  ∃ expected, parents above expected ∧
    ((policy ∈ policies ∧ policy ≠ anyPolicy ∧ (policy ∈ expected ∨
        (∀ path e, parents path e → policy ∉ e) ∧ above.getLast? = some anyPolicy)) ∨
      (anyPolicy ∈ policies ∧ anyAllowed ∧ policy ∈ expected))

/-- `anyPolicy` only follows `anyPolicy`, and is all that its nodes expect. -/
structure PolicyNode.Shaped (n : PolicyNode) : Prop where
  head : n.path.head? = some anyPolicy
  before : ∀ above below, n.path = above ++ anyPolicy :: below → ∀ p ∈ above, p = anyPolicy
  any_expects : n.validPolicy = some anyPolicy → n.expectedPolicySet = [anyPolicy]
  expects : n.validPolicy ≠ some anyPolicy → anyPolicy ∉ n.expectedPolicySet

/-- The policy a branch is under: the first one on it that is not `anyPolicy`. -/
def granted (path : List Oid) : Option Oid := path.find? fun p => p != anyPolicy

/-- What a node with `policy` expects behind the mappings. -/
def expectedAfter (mappings : List (Oid × Oid)) (policy : Oid) (expected : List Oid) : List Oid :=
  if (subjectsOf mappings policy).isEmpty then expected
  else subjectsOf mappings policy

theorem subjectsOf_isEmpty (mappings : List (Oid × Oid)) (policy : Oid) :
    (subjectsOf mappings policy).isEmpty = true ↔ ∀ m ∈ mappings, m.1 ≠ policy := by
  simp [subjectsOf]
namespace PolicyNode
variable {n : PolicyNode} {policy : Oid}
variable (h : n.Shaped)
include h
theorem Shaped.ne_nil : n.path ≠ [] := by
  intro hnil
  have hhead := h.head
  rw [hnil] at hhead
  cases hhead

theorem Shaped.length : n.path.length = n.depth + 1 := by
  have := length_pos_iff.mpr h.ne_nil
  rw [depth]
  omega

/-- On the way to an `anyPolicy` node there is nothing else. -/
theorem Shaped.all_any (hany : n.validPolicy = some anyPolicy) : ∀ p ∈ n.path, p = anyPolicy := by
  obtain ⟨above,habove⟩ := getLast?_eq_some_iff.mp hany
  intro p hp
  rw [habove,List.mem_append,List.mem_singleton] at hp
  rcases hp with hp | hp
  · exact h.before above [] habove p hp
  · exact hp

theorem Shaped.granted_any (hany : n.validPolicy = some anyPolicy) : granted n.path = none := by
  rw [granted,find?_eq_none]
  intro p hp
  simp [h.all_any hany p hp]

theorem Shaped.granted_below {above below : List Oid}
    (hpath : n.path = above ++ anyPolicy :: policy :: below) (hne : policy ≠ anyPolicy) :
    granted n.path = some policy := by
  have habove : above.find? (fun p => p != anyPolicy) = none := by
    rw [find?_eq_none]
    intro p hp
    simp [h.before above _ hpath p hp]
  rw [granted,hpath,find?_append,habove]
  simp [hne]

theorem Shaped.child (hpolicy : policy = anyPolicy → n.validPolicy = some anyPolicy) :
    (n.child policy).Shaped where
  head := by
    change (n.path ++ [policy]).head? = some anyPolicy
    rw [head?_append,h.head]
    rfl
  before above below hpath := by
    rcases eq_nil_or_concat below with rfl | ⟨below,last,rfl⟩
    · obtain ⟨rfl,heq⟩ := append_inj' hpath rfl
      exact h.all_any (hpolicy (singleton_inj.mp heq))
    · rw [concat_eq_append,← cons_append,← append_assoc] at hpath
      exact h.before above below (append_inj_left' hpath rfl)
  any_expects hany := by
    have : policy = anyPolicy := by simpa [PolicyNode.child,validPolicy] using hany
    rw [← this]
    rfl
  expects hne := by
    have : policy ≠ anyPolicy := by simpa [PolicyNode.child,validPolicy] using hne
    simpa [PolicyNode.child] using this.symm

theorem Shaped.sibling (hlength : 1 < n.path.length) (hpolicy : policy ≠ anyPolicy)
    {expected : List Oid} (hexpected : anyPolicy ∉ expected) : Shaped ⟨n.path.dropLast ++ [policy], expected⟩ := by
  obtain ⟨front,last,hpath⟩ : ∃ front last, n.path = front ++ [last] :=
    ⟨_,_,(dropLast_append_getLast h.ne_nil).symm⟩
  have hdrop : n.path.dropLast = front := by rw [hpath,dropLast_concat]
  have hlast : (⟨front ++ [policy],expected⟩ : PolicyNode).validPolicy = some policy := by
    simp [validPolicy]
  rw [hdrop]
  refine ⟨?_,fun above below hfront => ?_,fun hany => ?_,fun _ => hexpected⟩
  · have hhead := h.head
    cases front with
    | nil => simp [hpath] at hlength
    | cons x front =>
      rw [hpath] at hhead
      exact hhead
  · rcases eq_nil_or_concat below with rfl | ⟨below,x,rfl⟩
    · have heq := (append_inj' hfront rfl).2
      exact absurd (singleton_inj.mp heq) hpolicy
    · rw [concat_eq_append,← cons_append,← append_assoc] at hfront
      apply h.before above (below ++ [last])
      rw [hpath,append_inj_left' hfront rfl]
      simp
  · exact absurd (Option.some.inj (hlast.symm.trans hany)) hpolicy
end PolicyNode
namespace Tree
def Wf (tree : Tree) (depth : Nat) : Prop := ∀ n ∈ tree, n.Shaped ∧ n.depth ≤ depth
variable {tree : Tree} {depth : Nat} {n : PolicyNode}
theorem mem_row : n ∈ tree.row depth ↔ n ∈ tree ∧ n.depth = depth := by
  simp [row]

theorem mem_dropChildless : n ∈ dropChildless depth tree ↔
    n ∈ tree ∧ (depth ≤ n.depth ∨ ∃ m ∈ tree, m.path.dropLast = n.path) := by
  simp [dropChildless,hasChild]

theorem mem_of_mem_rounds {k : Nat} (h : n ∈ Nat.iterate (dropChildless depth) k tree) : n ∈ tree := by
  induction k generalizing tree with
  | zero => exact h
  | succ k ih => exact (mem_dropChildless.mp (ih h)).1

theorem mem_of_mem_prune (h : n ∈ tree.prune depth) : n ∈ tree := mem_of_mem_rounds h

theorem mem_prune_of_deep (h : n ∈ tree) (hdepth : depth ≤ n.depth) : n ∈ tree.prune depth := by
  have hiterate : ∀ k (tree : Tree), n ∈ tree → n ∈ Nat.iterate (dropChildless depth) k tree := by
    intro k
    induction k with
    | zero => exact fun _ h => h
    | succ k ih => exact fun tree h => ih _ (mem_dropChildless.mpr ⟨h,.inl hdepth⟩)
  exact hiterate depth tree h

theorem Wf.prune (h : tree.Wf depth) : (tree.prune depth).Wf depth :=
  fun n hn => h n (mem_of_mem_prune hn)

theorem exists_below (h : tree.Wf depth) (hn : n ∈ tree.prune depth) :
    ∃ m ∈ tree.prune depth, m.depth = depth ∧ n.path <+: m.path := by
  -- after `k` rounds this holds for the last `k` rows
  have hiterate : ∀ k n, n ∈ Nat.iterate (dropChildless depth) k tree → depth ≤ n.depth + k →
      ∃ m ∈ Nat.iterate (dropChildless depth) k tree, m.depth = depth ∧ n.path <+: m.path := by
    intro k
    induction k with
    | zero =>
      intro n hn hdepth
      have := (h n hn).2
      exact ⟨n,hn,by omega,prefix_refl _⟩
    | succ k ih =>
      intro n hn hdepth
      rw [Function.iterate_succ_apply'] at hn ⊢
      obtain ⟨hbefore,hchild⟩ := mem_dropChildless.mp hn
      have hstay : ∀ m ∈ Nat.iterate (dropChildless depth) k tree, m.depth = depth →
          m ∈ dropChildless depth (Nat.iterate (dropChildless depth) k tree) :=
        fun m hm hd => mem_dropChildless.mpr ⟨hm,.inl (le_of_eq hd.symm)⟩
      by_cases hdeep : depth ≤ n.depth + k
      · obtain ⟨m,hm,hd,hpre⟩ := ih n hbefore hdeep
        exact ⟨m,hstay m hm hd,hd,hpre⟩
      · obtain ⟨c,hc,hcn⟩ := hchild.resolve_left (by omega)
        have hlength := (h n (mem_of_mem_rounds hbefore)).1.length
        rw [← hcn,length_dropLast] at hlength
        have hcdepth : c.depth = n.depth + 1 := hlength
        obtain ⟨m,hm,hd,hpre⟩ := ih c hc (by omega)
        refine ⟨m,hstay m hm hd,hd,?_⟩
        rw [← hcn]
        exact (List.dropLast_prefix _).trans hpre
  exact hiterate depth n hn (by omega)
section Growing
variable {parents created : List PolicyNode} {policy : Oid} {policies : List Oid} {anyAllowed : Bool}
theorem mem_concreteChildren : n ∈ concreteChildren parents policy ↔
    ∃ m ∈ parents, n = m.child policy ∧ (policy ∈ m.expectedPolicySet ∨
      (∀ m ∈ parents, policy ∉ m.expectedPolicySet) ∧ m.validPolicy = some anyPolicy) := by
  rw [concreteChildren,mem_map]
  by_cases hmatch : ∀ m ∈ parents, policy ∉ m.expectedPolicySet
  · have hempty : (parents.filter fun n => n.expectedPolicySet.contains policy) = [] := by
      simpa using hmatch
    simp only [hempty,isEmpty_nil,if_true,mem_filter,beq_iff_eq]
    constructor
    · rintro ⟨m,⟨hm,hany⟩,rfl⟩
      exact ⟨m,hm,rfl,.inr ⟨hmatch,hany⟩⟩
    · rintro ⟨m,hm,rfl,hexp | ⟨-,hany⟩⟩
      · exact absurd hexp (hmatch m hm)
      · exact ⟨m,⟨hm,hany⟩,rfl⟩
  · have hne : (parents.filter fun n => n.expectedPolicySet.contains policy).isEmpty ≠ true := by
      simpa using hmatch
    rw [if_neg hne]
    constructor
    · rintro ⟨m,hm,rfl⟩
      obtain ⟨hm,hexp⟩ := mem_filter.mp hm
      exact ⟨m,hm,rfl,.inl (by simpa using hexp)⟩
    · rintro ⟨m,hm,rfl,hexp | ⟨hnone,-⟩⟩
      · exact ⟨m,mem_filter.mpr ⟨hm,by simpa using hexp⟩,rfl⟩
      · exact absurd hnone hmatch

theorem mem_expectedChildren : n ∈ expectedChildren parents created ↔
    ∃ m ∈ parents, ∃ policy ∈ m.expectedPolicySet, n = m.child policy ∧
      ∀ c ∈ created, c.path ≠ m.path ++ [policy] := by
  simp only [expectedChildren,mem_flatMap,mem_map,mem_filter,Bool.not_eq_true',any_eq_false,beq_iff_eq]
  constructor
  · rintro ⟨m,hm,policy,⟨hpolicy,hnew⟩,rfl⟩
    exact ⟨m,hm,policy,hpolicy,rfl,hnew⟩
  · rintro ⟨m,hm,policy,hpolicy,rfl,hnew⟩
    exact ⟨m,hm,policy,⟨hpolicy,hnew⟩,rfl⟩

theorem mem_newNodes : n ∈ newNodes parents policies anyAllowed ↔
    ∃ above policy, n = ⟨above ++ [policy], [policy]⟩ ∧
      Grown (fun path e => ⟨path, e⟩ ∈ parents) policies (anyAllowed = true) above policy := by
  have hcreated : ∀ c : PolicyNode,
      (c ∈ (policies.filter fun p => p != anyPolicy).flatMap (concreteChildren parents)) ↔
      ∃ policy ∈ policies, policy ≠ anyPolicy ∧ ∃ m ∈ parents, c = m.child policy ∧
        (policy ∈ m.expectedPolicySet ∨
          (∀ m ∈ parents, policy ∉ m.expectedPolicySet) ∧ m.validPolicy = some anyPolicy) := by
    intro c
    simp only [mem_flatMap,mem_filter,bne_iff_ne,mem_concreteChildren,and_assoc]
  rw [newNodes,List.mem_append,hcreated]
  constructor
  · rintro (⟨policy,hpolicy,hne,m,hm,rfl,hwhy⟩ | hn)
    · exact ⟨m.path,policy,rfl,m.expectedPolicySet,hm,.inl ⟨hpolicy,hne,
        hwhy.imp id fun ⟨hnone,hany⟩ => ⟨fun path e => hnone ⟨path,e⟩,hany⟩⟩⟩
    · split_ifs at hn with hallowed
      · rw [Bool.and_eq_true,contains_iff_mem] at hallowed
        obtain ⟨m,hm,policy,hpolicy,rfl,-⟩ := mem_expectedChildren.mp hn
        exact ⟨m.path,policy,rfl,m.expectedPolicySet,hm,.inr ⟨hallowed.1,hallowed.2,hpolicy⟩⟩
      · cases hn
  · rintro ⟨above,policy,rfl,e,hm,⟨hpolicy,hne,hwhy⟩ | ⟨hany,hallowed,hpolicy⟩⟩
    · exact .inl ⟨policy,hpolicy,hne,⟨above,e⟩,hm,rfl,
        hwhy.imp id fun ⟨hnone,hany⟩ => ⟨fun m => hnone m.path m.expectedPolicySet,hany⟩⟩
    · rw [if_pos (by rw [Bool.and_eq_true,contains_iff_mem]; exact ⟨hany,hallowed⟩)]
      by_cases hnew : ∀ c ∈ (policies.filter fun p => p != anyPolicy).flatMap (concreteChildren parents),
          c.path ≠ above ++ [policy]
      · exact .inr (mem_expectedChildren.mpr ⟨⟨above,e⟩,hm,policy,hpolicy,rfl,hnew⟩)
      · -- step (1) has made this node already
        push Not at hnew
        obtain ⟨c,hc,hpath⟩ := hnew
        obtain ⟨policy',hpolicy',hne',m,hm',rfl,hwhy⟩ := (hcreated c).mp hc
        obtain ⟨habove,heq⟩ := append_inj' hpath rfl
        cases singleton_inj.mp heq
        refine .inl ⟨policy,hpolicy',hne',m,hm',?_,hwhy⟩
        rw [PolicyNode.child,habove]
variable {i : Nat}
variable (h : tree.Wf i)
include h
theorem Wf.newNodes (hn : n ∈ newNodes (tree.row i) policies anyAllowed) : n.Shaped ∧ n.depth = i + 1 := by
  obtain ⟨above,policy,rfl,e,hm,hwhy⟩ := mem_newNodes.mp hn
  obtain ⟨hmem,hdepth⟩ := mem_row.mp hm
  have hshaped := (h _ hmem).1
  refine ⟨hshaped.child fun hpolicy => ?_,?_⟩
  · rcases hwhy with ⟨-,hne,-⟩ | ⟨-,-,hexp⟩
    · exact absurd hpolicy hne
    · by_contra hany
      exact hshaped.expects hany (hpolicy ▸ hexp)
  · have := hshaped.length
    rw [hdepth] at this
    change (above ++ [policy]).length - 1 = i + 1
    rw [length_append,this]
    rfl

theorem Wf.append_newNodes : Wf (tree ++ Tree.newNodes (tree.row i) policies anyAllowed) (i + 1) := by
  refine forall_mem_append.mpr ⟨fun n hn => ⟨(h n hn).1,Nat.le_succ_of_le (h n hn).2⟩,fun n hn => ?_⟩
  obtain ⟨hshaped,hdepth⟩ := h.newNodes hn
  exact ⟨hshaped,le_of_eq hdepth⟩

theorem Wf.grow : (tree.grow (i + 1) policies anyAllowed).Wf (i + 1) :=
  h.append_newNodes.prune

theorem mem_row_grow : n ∈ (tree.grow (i + 1) policies anyAllowed).row (i + 1) ↔
      ∃ above policy, n = ⟨above ++ [policy], [policy]⟩ ∧
        Grown (fun path e => ⟨path, e⟩ ∈ tree.row i) policies (anyAllowed = true) above policy := by
  rw [mem_row,← mem_newNodes]
  constructor
  · rintro ⟨hn,hdepth⟩
    rcases List.mem_append.mp (mem_of_mem_prune hn) with hn | hn
    · have := (h n hn).2
      omega
    · exact hn
  · intro hn
    have hdepth := (h.newNodes hn).2
    exact ⟨mem_prune_of_deep (mem_append_right _ hn) (le_of_eq hdepth.symm),hdepth⟩
end Growing
section Mapping
variable {i : Nat} {mappings : List (Oid × Oid)} {policy : Oid}
theorem mem_row_dropMapped : n ∈ (tree.dropMapped i mappings).row i ↔
    n ∈ tree.row i ∧ ∀ m ∈ mappings, n.validPolicy ≠ some m.1 := by
  rw [mem_row,mem_row]
  constructor
  · rintro ⟨hn,hdepth⟩
    have hmem := mem_of_mem_prune hn
    rw [mem_filter] at hmem
    refine ⟨⟨hmem.1,hdepth⟩,?_⟩
    simpa [hdepth] using hmem.2
  · rintro ⟨⟨hn,hdepth⟩,hkept⟩
    refine ⟨mem_prune_of_deep (mem_filter.mpr ⟨hn,?_⟩) (le_of_eq hdepth.symm),hdepth⟩
    simpa [hdepth] using hkept

theorem Wf.dropMapped (h : tree.Wf i) : (tree.dropMapped i mappings).Wf i := by
  apply Wf.prune
  intro n hn
  exact h n (mem_filter.mp hn).1

theorem mapNode_row (hn : n.validPolicy = some policy) (hdepth : n.depth = i) :
    mapNode i mappings n = ⟨n.path, expectedAfter mappings policy n.expectedPolicySet⟩ := by
  have hempty := subjectsOf_isEmpty mappings policy
  unfold mapNode expectedAfter
  rw [hn]
  dsimp only
  by_cases hmapped : ∀ m ∈ mappings, m.1 ≠ policy
  · have hnone : (mappings.any fun m => m.1 == policy) = false :=
      any_eq_false.mpr fun m hm => by simpa using hmapped m hm
    rw [if_pos (hempty.mpr hmapped),if_neg (by simp [hnone])]
  · have hsome : (mappings.any fun m => m.1 == policy) = true := by
      push Not at hmapped
      exact List.any_eq_true.mpr (hmapped.imp fun m hm => ⟨hm.1,by simp [hm.2]⟩)
    rw [if_neg (fun h => hmapped (hempty.mp h)),if_pos (by simp [hdepth,hsome])]

theorem mapNode_above (hdepth : n.depth ≠ i) : mapNode i mappings n = n := by
  unfold mapNode
  split
  · rw [if_neg (by simp [hdepth])]
  · rfl

theorem mapNode_path : (mapNode i mappings n).path = n.path := by
  unfold mapNode
  split
  · split_ifs <;> rfl
  · rfl

theorem mem_row_map (hn : n ∈ tree.row i) (hpolicy : n.validPolicy = some policy) :
    ⟨n.path, expectedAfter mappings policy n.expectedPolicySet⟩ ∈ (tree.map i mappings).row i := by
  obtain ⟨hn,hdepth⟩ := mem_row.mp hn
  rw [← mapNode_row hpolicy hdepth]
  refine mem_row.mpr ⟨mem_append_left _ (List.mem_map_of_mem hn),?_⟩
  rwa [PolicyNode.depth,mapNode_path]

theorem exists_of_mem_row_map (h : tree.Wf i) (hcovered : ∀ m ∈ mappings, ∃ n ∈ tree.row i, n.validPolicy = some m.1)
    (hn : n ∈ (tree.map i mappings).row i) : ∃ m ∈ tree.row i, ∃ policy, m.validPolicy = some policy ∧
      n = ⟨m.path, expectedAfter mappings policy m.expectedPolicySet⟩ := by
  have hgenerated : tree.generated i mappings = [] := by
    unfold generated
    split
    · rw [map_eq_nil_iff,filter_eq_nil_iff]
      intro policy hpolicy
      obtain ⟨m,hm,rfl⟩ := mem_map.mp (mem_dedup.mp hpolicy)
      simpa using hcovered m hm
    · rfl
  obtain ⟨hn,hdepth⟩ := mem_row.mp hn
  rw [map,hgenerated,append_nil] at hn
  obtain ⟨m,hm,rfl⟩ := mem_map.mp hn
  have hmdepth : m.depth = i := by rwa [PolicyNode.depth,mapNode_path] at hdepth
  obtain ⟨policy,hpolicy⟩ : ∃ policy, m.validPolicy = some policy :=
    ⟨_,getLast?_eq_some_getLast (h m hm).1.ne_nil⟩
  exact ⟨m,mem_row.mpr ⟨hm,hmdepth⟩,policy,hpolicy,mapNode_row hpolicy hmdepth⟩

theorem Wf.map (h : tree.Wf i) (hi : 0 < i) (hconcrete : ∀ m ∈ mappings, m.1 ≠ anyPolicy ∧ m.2 ≠ anyPolicy) :
    (tree.map i mappings).Wf i := by
  have hsubjects : ∀ policy, anyPolicy ∉ subjectsOf mappings policy := by
    intro policy hmem
    obtain ⟨m,hm,heq⟩ := mem_map.mp hmem
    exact (hconcrete m (mem_filter.mp hm).1).2 heq
  intro n hn
  rcases List.mem_append.mp hn with hn | hn
  · obtain ⟨n,hmem,rfl⟩ := mem_map.mp hn
    obtain ⟨hshaped,hdepth⟩ := h n hmem
    have hpath : (mapNode i mappings n).path = n.path := mapNode_path
    refine ⟨?_,by rwa [PolicyNode.depth,hpath]⟩
    by_cases hrow : n.depth = i
    · obtain ⟨policy,hpolicy⟩ : ∃ policy, n.validPolicy = some policy :=
        ⟨_,getLast?_eq_some_getLast hshaped.ne_nil⟩
      rw [mapNode_row hpolicy hrow]
      refine ⟨hshaped.head,hshaped.before,fun hany => ?_,fun hany => ?_⟩
      · cases hpolicy.symm.trans hany
        have hnone := (subjectsOf_isEmpty mappings anyPolicy).mpr fun m hm => (hconcrete m hm).1
        simp [expectedAfter,hnone,hshaped.any_expects hany]
      · unfold expectedAfter
        split_ifs
        · exact hshaped.expects hany
        · exact hsubjects policy
    · rw [mapNode_above hrow]
      exact hshaped
  · unfold generated at hn
    split at hn
    · rename_i a ha
      obtain ⟨policy,hpolicy,rfl⟩ := mem_map.mp hn
      obtain ⟨m,hm,rfl⟩ := mem_map.mp (mem_dedup.mp (mem_filter.mp hpolicy).1)
      obtain ⟨hmem,hdepth⟩ := mem_row.mp (mem_of_find?_eq_some ha)
      have hshaped := (h a hmem).1
      have hlength := hshaped.length
      rw [hdepth] at hlength
      refine ⟨hshaped.sibling (by omega) (hconcrete m hm).1 (hsubjects _),?_⟩
      change (a.path.dropLast ++ [m.1]).length - 1 ≤ i
      rw [length_append,length_dropLast,hlength]
      simp
    · cases hn
end Mapping
section Intersection
variable {userSet : List Oid} {m : PolicyNode}
theorem mem_validPolicyNodeSet : m ∈ tree.validPolicyNodeSet ↔
    m ∈ tree ∧ ∃ above, m.path.dropLast = above ++ [anyPolicy] := by
  simp [validPolicyNodeSet,getLast?_eq_some_iff]

/-- A node whose parent asserts `anyPolicy`, seen from below. -/
theorem granted_of_prefix (hm : m ∈ tree.validPolicyNodeSet) {policy : Oid}
    (hpolicy : m.validPolicy = some policy) (hne : policy ≠ anyPolicy) (hn : n.Shaped)
    (hpre : m.path <+: n.path) : granted n.path = some policy := by
  obtain ⟨-,above,habove⟩ := mem_validPolicyNodeSet.mp hm
  obtain ⟨front,hfront⟩ := getLast?_eq_some_iff.mp hpolicy
  obtain ⟨below,hbelow⟩ := hpre
  rw [hfront,dropLast_concat] at habove
  rw [hfront,habove] at hbelow
  have hpath : n.path = above ++ anyPolicy :: policy :: below := by
    rw [← hbelow]
    simp
  exact hn.granted_below hpath hne

theorem mem_accepted (hn : n ∈ tree) (hshaped : n.Shaped)
    (hgranted : ∀ p, granted n.path = some p → p ∈ userSet) : n ∈ tree.accepted userSet := by
  refine mem_filter.mpr ⟨hn,?_⟩
  rw [Bool.not_eq_true',any_eq_false]
  intro r hr hpre
  obtain ⟨hr,hrefused⟩ := mem_filter.mp hr
  simp only [Bool.and_eq_true,bne_iff_ne,ne_eq,Bool.not_eq_true',any_eq_false,beq_iff_eq] at hrefused
  cases hpolicy : r.validPolicy with
  | none =>
    obtain ⟨-,above,habove⟩ := mem_validPolicyNodeSet.mp hr
    rw [getLast?_eq_none_iff.mp hpolicy] at habove
    simp at habove
  | some policy =>
    have hne : policy ≠ anyPolicy := fun heq => hrefused.1 (by rw [hpolicy,heq])
    have hgrant := granted_of_prefix hr hpolicy hne hshaped (List.isPrefixOf_iff_prefix.mp hpre)
    exact hrefused.2 policy (hgranted policy hgrant) hpolicy

/-- What is left has a node for every branch that the user accepts. -/
theorem intersect_ne_nil {depth : Nat} (h : tree.Wf depth)
    (hbelow : ∀ n ∈ tree, ∃ m ∈ tree, m.depth = depth ∧ n.path <+: m.path)
    (hany : anyPolicy ∉ userSet) (hn : n ∈ tree.row depth)
    (hgranted : (∃ p ∈ userSet, granted n.path = some p) ∨ (granted n.path = none ∧ userSet ≠ [])) :
    tree.intersect depth userSet ≠ [] := by
  obtain ⟨hn,hrow⟩ := mem_row.mp hn
  have hshaped := (h n hn).1
  -- a node of the last row under one of the user's policies survives
  have hlast : ∀ d ∈ tree, d.depth = depth → (∃ p ∈ userSet, granted d.path = some p) →
      d ∈ tree.intersect depth userSet := by
    rintro d hd hddepth ⟨p,hp,hgrant⟩
    have hdshaped := (h d hd).1
    have hkept : d ∈ tree.accepted userSet := by
      apply mem_accepted hd hdshaped
      intro q hq
      rw [hgrant,Option.some.injEq] at hq
      exact hq ▸ hp
    have hconcrete : d.validPolicy ≠ some anyPolicy := by
      intro heq
      rw [hdshaped.granted_any heq] at hgrant
      cases hgrant
    apply mem_prune_of_deep _ (le_of_eq hddepth.symm)
    split
    · exact mem_append_left _ (mem_filter.mpr ⟨hkept,by simp [hconcrete]⟩)
    · exact hkept
  rcases hgranted with hgrant | ⟨hgrant,hne⟩
  · exact ne_nil_of_mem (hlast n hn hrow hgrant)
  · obtain ⟨u,hu⟩ := exists_mem_of_ne_nil _ hne
    by_cases hset : ∃ c ∈ tree.validPolicyNodeSet, c.validPolicy = some u
    · obtain ⟨c,hc,hpolicy⟩ := hset
      obtain ⟨d,hd,hddepth,hpre⟩ := hbelow c (mem_validPolicyNodeSet.mp hc).1
      have hu' : u ≠ anyPolicy := fun heq => hany (heq ▸ hu)
      exact ne_nil_of_mem
        (hlast d hd hddepth ⟨u,hu, granted_of_prefix hc hpolicy hu' (h d hd).1 hpre⟩)
    · have hkept : n ∈ tree.accepted userSet := by
        apply mem_accepted hn hshaped
        intro q hq
        rw [hgrant] at hq
        cases hq
      have hnany : n.validPolicy = some anyPolicy := by
        rw [granted,find?_eq_none] at hgrant
        rw [PolicyNode.validPolicy,getLast?_eq_some_getLast hshaped.ne_nil]
        have := hgrant _ (getLast_mem hshaped.ne_nil)
        simpa using this
      -- so the leaf `anyPolicy` node is replaced
      obtain ⟨a,ha⟩ : ∃ a, ((tree.accepted userSet).row depth).find?
          (fun m => m.validPolicy == some anyPolicy) = some a := by
        rw [← Option.isSome_iff_exists,find?_isSome]
        exact ⟨n,mem_row.mpr ⟨hkept,hrow⟩,by simp [hnany]⟩
      obtain ⟨hak,hadepth⟩ := mem_row.mp (mem_of_find?_eq_some ha)
      have halength := (h a (mem_filter.mp hak).1).1.length
      apply ne_nil_of_mem (a := ⟨a.path.dropLast ++ [u],[u]⟩)
      apply mem_prune_of_deep
      · rw [ha]
        apply mem_append_right
        refine mem_map.mpr ⟨u,mem_filter.mpr ⟨hu,?_⟩,rfl⟩
        simpa using hset
      · change depth ≤ (a.path.dropLast ++ [u]).length - 1
        rw [length_append,length_dropLast,halength,hadepth]
        simp
end Intersection
end Tree
end PureCrypto.Pki.Rfc5280
