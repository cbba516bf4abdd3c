import PureCrypto.Pki.PolicyRows

/-!
# Policy checking against RFC 5280

The arena's row stays inside the reference's row, and is all of it as long as it has an `anyPolicy`
node: a policy that no node expects hangs below `anyPolicy`, so there a node too few in the row makes
the code accept more.  Mapping is where nodes get lost.  `apply_policy_mappings` generates no node for
a mapped policy that only `anyPolicy` stands for, and `policy_mapping` reaches zero early on a path
with self-issued certificates, when the mapped nodes are deleted.
-/
namespace PureCrypto.Pki
open List Option
open Rfc5280 (Grown State Tree expectedAfter)
open PolicyTree (Arena Row row_prune arena_dropMapped row_dropMapped row_initial)
def PolicyTree.asserts (tree : PolicyTree) (policy : Oid) : Bool :=
  tree.leafIndices.any fun i => tree.nodes[i]?.any fun n => n.validPolicy == policy

/-- Below a row with `anyPolicy` each mapped policy has a node of its own. -/
def mappingsAgree (s : PolicyState) (policyMapping : Nat) (mappings : List (Oid × Oid)) : Bool :=
  !s.tree.asserts anyPolicy ||
    if 0 < s.counters.policyMapping then mappings.all fun m => s.tree.asserts m.1
    else policyMapping == 0

/-- So it is at every certificate that is not the leaf; `c` are the reference's counters. -/
def mappingsAgreeAlong (s : PolicyState) (c : PolicyCounters) : List Certificate → Bool
  | [] => true
  | [_] => true
  | cert :: rest =>
    match s.process cert with
    | .error _ => true
    | .ok s =>
      (match cert.policyMappings with
        | .ok (some mappings) => mappingsAgree s c.policyMapping mappings.pairs
        | _ => true) &&
      match s.prepareForNext cert, State.nextCounters c cert with
      | .ok s, some c => mappingsAgreeAlong s c rest
      | _, _ => true

instance : LE PolicyCounters where
  le c d := c.explicitPolicy ≤ d.explicitPolicy ∧ c.policyMapping ≤ d.policyMapping ∧
    c.inhibitAnyPolicy ≤ d.inhibitAnyPolicy

/-- The code's state against the reference's, both behind `i` certificates. -/
structure Sim (i : Nat) (s : PolicyState) (r : State) : Prop where
  arena : Arena s.tree
  wf : r.tree.Wf i
  sub : ∀ path e, Row s.tree path e → ⟨path, e⟩ ∈ r.tree.row i
  same : (∃ path e, Row s.tree path e ∧ path.getLast? = some anyPolicy) →
    ∀ n ∈ r.tree.row i, Row s.tree n.path n.expectedPolicySet
  counters : s.counters ≤ r.counters

/-- No explicit policy is asked for, or there is a row. -/
def Live (s : PolicyState) : Prop :=
  0 < s.counters.explicitPolicy ∨ ∃ path e, Row s.tree path e
variable {i : Nat} {s s' : PolicyState} {r : State} {cert : Certificate}
variable {t : PolicyTree} {policy : Oid} {c : PolicyCounters}
theorem row_nil (h : t.nodes = []) (path e : List Oid) : ¬ Row t path e := by
  rintro ⟨i,n,hn,-⟩
  rw [h] at hn
  cases hn

theorem arena_nil (h : t.nodes = []) : Arena t := by
  refine ⟨?_,?_,?_,?_⟩ <;> simp [h,Forest.Ordered]

theorem process_cases (harena : Arena s.tree) (h : s.process cert = .ok s') :
    s'.counters = s.counters ∧ Arena s'.tree ∧
      ((cert.certificatePolicies = .ok none ∧ ∀ path e, ¬ Row s'.tree path e) ∨
        ∃ policies : PolicyList, cert.certificatePolicies = .ok (some policies) ∧
          ∀ path e, Row s'.tree path e ↔ ∃ above policy, path = above ++ [policy] ∧ e = [policy] ∧
            Grown (Row s.tree) policies.oids (0 < s.counters.inhibitAnyPolicy) above policy) := by
  obtain ⟨tree,htree,h⟩ := bind_eq_ok.mp h
  obtain ⟨found,hfound,h⟩ := bind_eq_ok.mp h
  rw [orBad_eq_ok] at hfound
  cases found with
  | none =>
    cases h
    exact ⟨rfl,arena_nil rfl,.inl ⟨hfound,row_nil rfl⟩⟩
  | some policies =>
    cases h
    obtain ⟨htree,hrow⟩ := PolicyTree.processCertificatePolicies_spec harena hfound htree
    refine ⟨rfl,PolicyTree.arena_prune htree,.inr ⟨policies,hfound,fun path e => ?_⟩⟩
    rw [row_prune htree]
    exact hrow path e

theorem live_of_process (harena : Arena s.tree) (h : s.process cert = .ok s') (hlive : Live s') : Live s := by
  obtain ⟨hcounters,-,hcases⟩ := process_cases harena h
  rcases hlive with hexplicit | ⟨path,e,hrow⟩
  · exact .inl (hcounters ▸ hexplicit)
  · rcases hcases with ⟨-,hnone⟩ | ⟨policies,-,hsome⟩
    · exact absurd hrow (hnone path e)
    · obtain ⟨above,policy,-,-,before,hbefore,-⟩ := (hsome path e).mp hrow
      exact .inr ⟨above,before,hbefore⟩
variable {policies above : List Oid} {allowed allowed' : Prop}
theorem grown_sub (h : Sim i s r) (hallowed : allowed → allowed')
    (hgrown : Grown (Row s.tree) policies allowed above policy) :
    Grown (fun path e => ⟨path, e⟩ ∈ r.tree.row i) policies allowed' above policy := by
  obtain ⟨e,hrow,hwhy⟩ := hgrown
  refine ⟨e,h.sub above e hrow,hwhy.imp ?_ ?_⟩
  · rintro ⟨hpolicy,hne,hwhy⟩
    refine ⟨hpolicy,hne,hwhy.imp id ?_⟩
    rintro ⟨hnone,hany⟩
    refine ⟨fun path e he => ?_,hany⟩
    exact hnone path e (h.same ⟨above,_,hrow,hany⟩ _ he)
  · rintro ⟨hany,hcounter,hpolicy⟩
    exact ⟨hany,hallowed hcounter,hpolicy⟩

theorem grown_same (h : Sim i s r)
    (hsame : ∀ n ∈ r.tree.row i, Row s.tree n.path n.expectedPolicySet)
    (hallowed : allowed' → allowed)
    (hgrown : Grown (fun path e => ⟨path, e⟩ ∈ r.tree.row i) policies allowed' above policy) :
    Grown (Row s.tree) policies allowed above policy := by
  obtain ⟨e,hrow,hwhy⟩ := hgrown
  refine ⟨e,hsame _ hrow,hwhy.imp ?_ ?_⟩
  · rintro ⟨hpolicy,hne,hwhy⟩
    refine ⟨hpolicy,hne,hwhy.imp id ?_⟩
    rintro ⟨hnone,hany⟩
    exact ⟨fun path e he => hnone path e (h.sub path e he),hany⟩
  · rintro ⟨hany,hcounter,hpolicy⟩
    exact ⟨hany,hallowed hcounter,hpolicy⟩

def grownTree (r : State) (i : Nat) (last : Bool) (cert : Certificate) : Option PolicyList → Tree
  | some policies => r.tree.grow i policies.oids
      (decide (0 < r.counters.inhibitAnyPolicy) || (!last && cert.isSelfIssued))
  | none => []

theorem Sim.process (h : Sim i s r) (hs : s.process cert = .ok s') (last : Bool) :
    ∃ found, cert.certificatePolicies = .ok found ∧
      Sim (i + 1) s' ⟨grownTree r (i + 1) last cert found, r.counters⟩ := by
  obtain ⟨hcounters,harena,hcases⟩ := process_cases h.arena hs
  have hle : s'.counters ≤ r.counters := hcounters ▸ h.counters
  rcases hcases with ⟨hfound,hnone⟩ | ⟨policies,hfound,hrow⟩
  · refine ⟨none,hfound,harena,?_,?_,?_,hle⟩
    · exact fun n hn => absurd hn not_mem_nil
    · exact fun path e hr => absurd hr (hnone path e)
    · exact fun _ n hn => absurd hn not_mem_nil
  · refine ⟨some policies,hfound,harena,h.wf.grow,?_,?_,hle⟩
    · intro path e hr
      obtain ⟨above,policy,rfl,rfl,hgrown⟩ := (hrow path e).mp hr
      refine (Tree.mem_row_grow h.wf).mpr ⟨above,policy,rfl,grown_sub h (fun hpos => ?_) hgrown⟩
      have := h.counters.2.2
      rw [Bool.or_eq_true,decide_eq_true_eq]
      exact .inl (by omega)
    · rintro ⟨path,e,hr,hlast⟩ n hn
      obtain ⟨above,policy,rfl,rfl,hgrown⟩ := (hrow path e).mp hr
      -- a new `anyPolicy` node hangs below one, while `anyPolicy` counts
      have hpolicy : policy = anyPolicy := by simpa using hlast
      obtain ⟨e,hparent,hwhy⟩ := hgrown
      obtain ⟨-,hpos,hexp⟩ := hwhy.resolve_left fun hwhy => hwhy.2.1 hpolicy
      have habove : above.getLast? = some anyPolicy := by
        by_contra hne
        have hmem := (Tree.mem_row.mp (h.sub above e hparent)).1
        exact (h.wf _ hmem).1.expects hne (hpolicy ▸ hexp)
      obtain ⟨above',policy',rfl,hgrown'⟩ := (Tree.mem_row_grow h.wf).mp hn
      refine (hrow _ _).mpr ⟨above',policy',rfl,rfl,?_⟩
      exact grown_same h (h.same ⟨above,e,hparent,habove⟩) (fun _ => hpos) hgrown'

def mappedTree (s : PolicyState) : Option PolicyMappings → PolicyTree
  | some mappings => (s.mapPolicies mappings.pairs).tree
  | none => s.tree
section
variable {mappings : PolicyMappings}
theorem mappedTree_mapped (h : 0 < s.counters.policyMapping) :
    mappedTree s (some mappings) = s.tree.applyPolicyMappings mappings.pairs :=
  congrArg PolicyState.tree (if_pos h)

theorem mappedTree_dropped (h : ¬ 0 < s.counters.policyMapping) :
    mappedTree s (some mappings) = (s.tree.dropMapped mappings.pairs).prune :=
  congrArg PolicyState.tree (if_neg h)
end
theorem prepareForNext_cases (h : s.prepareForNext cert = .ok s') :
    ∃ mappings constraints inhibitAny, cert.policyMappings = .ok mappings ∧
      cert.policyConstraints = .ok constraints ∧ cert.inhibitAnyPolicy = .ok inhibitAny ∧
      s'.tree = mappedTree s mappings ∧ s'.counters = PolicyCounters.constrain ⟨s.counters.explicitPolicy - 1,
        s.counters.policyMapping - 1, s.counters.inhibitAnyPolicy - 1⟩ constraints inhibitAny := by
  obtain ⟨mappings,hmappings,h⟩ := bind_eq_ok.mp h
  obtain ⟨constraints,hconstraints,h⟩ := bind_eq_ok.mp h
  obtain ⟨inhibitAny,hinhibitAny,h⟩ := bind_eq_ok.mp h
  cases h
  rw [orBad_eq_ok] at hmappings hconstraints hinhibitAny
  refine ⟨mappings,constraints,inhibitAny,hmappings,hconstraints,hinhibitAny,?_,?_⟩
  · cases mappings <;> rfl
  · cases mappings with
    | none => rfl
    | some mappings =>
      have hkeep : (s.mapPolicies mappings.pairs).counters = s.counters := by
        unfold PolicyState.mapPolicies
        split_ifs <;> rfl
      simp only [hkeep]

theorem constrain_mono {d : PolicyCounters} (h : c ≤ d) (constraints : Option PolicyConstraints)
    (inhibitAny : Option Nat) : c.constrain constraints inhibitAny ≤ d.constrain constraints inhibitAny := by
  obtain ⟨hexplicit,hmapping,hany⟩ := h
  refine ⟨?_,?_,?_⟩
  all_goals
    dsimp only [PolicyCounters.constrain]
    split <;> omega

theorem constrain_explicit_le (c : PolicyCounters) (constraints : Option PolicyConstraints)
    (inhibitAny : Option Nat) : (c.constrain constraints inhibitAny).explicitPolicy ≤ c.explicitPolicy := by
  dsimp only [PolicyCounters.constrain]
  split <;> omega

theorem row_of_mappedTree (harena : Arena s.tree) {mappings : Option PolicyMappings}
    {path e : List Oid} (h : Row (mappedTree s mappings) path e) : ∃ e, Row s.tree path e := by
  cases mappings with
  | none => exact ⟨e,h⟩
  | some mappings =>
    by_cases hcode : 0 < s.counters.policyMapping
    · rw [mappedTree_mapped hcode] at h
      obtain ⟨before,-,hrow,-⟩ := PolicyTree.row_applyPolicyMappings.mp h
      exact ⟨before,hrow⟩
    · rw [mappedTree_dropped hcode,row_prune (arena_dropMapped harena)] at h
      exact ⟨e,((row_dropMapped harena).mp h).1⟩

theorem live_of_prepareForNext (harena : Arena s.tree) (h : s.prepareForNext cert = .ok s')
    (hlive : Live s') : Live s := by
  obtain ⟨mappings,constraints,inhibitAny,-,-,-,htree,hcounters⟩ := prepareForNext_cases h
  rcases hlive with hexplicit | ⟨path,e,hrow⟩
  · have hle := constrain_explicit_le ⟨s.counters.explicitPolicy - 1,s.counters.policyMapping - 1,
      s.counters.inhibitAnyPolicy - 1⟩ constraints inhibitAny
    rw [← hcounters] at hle
    exact .inl (by dsimp only at hle; omega)
  · rw [htree] at hrow
    obtain ⟨e,hrow⟩ := row_of_mappedTree harena hrow
    exact .inr ⟨path,e,hrow⟩

theorem arena_mappedTree (harena : Arena s.tree) (mappings : Option PolicyMappings) :
    Arena (mappedTree s mappings) := by
  cases mappings with
  | none => exact harena
  | some mappings =>
    by_cases hcode : 0 < s.counters.policyMapping
    · rw [mappedTree_mapped hcode]
      exact PolicyTree.arena_applyPolicyMappings harena
    · rw [mappedTree_dropped hcode]
      exact PolicyTree.arena_prune (arena_dropMapped harena)

theorem asserts_iff (harena : Arena t) :
    t.asserts policy = true ↔ ∃ path e, Row t path e ∧ path.getLast? = some policy := by
  rw [PolicyTree.asserts,List.any_eq_true]
  constructor
  · rintro ⟨p,hp,hpolicy⟩
    obtain ⟨n,path,hn,hchain,hrow⟩ := PolicyTree.exists_row harena hp
    refine ⟨path,n.expectedPolicySet,hrow,?_⟩
    have : n.validPolicy = policy := by simpa [hn] using hpolicy
    rw [hchain.getLast hn,← this]
    rfl
  · rintro ⟨path,e,⟨p,n,hn,hdepth,hchain,-⟩,hlast⟩
    refine ⟨p,PolicyTree.mem_leafIndices.mpr ⟨n,hn,hdepth⟩,?_⟩
    rw [hchain.getLast hn,Option.some.injEq] at hlast
    have : n.validPolicy = policy := hlast
    simp [hn,this]

def referenceTree (r : State) (i : Nat) : Option PolicyMappings → Tree
  | some mappings =>
    if 0 < r.counters.policyMapping then r.tree.map i mappings.pairs
    else r.tree.dropMapped i mappings.pairs
  | none => r.tree
section
variable {mappings : PolicyMappings}
theorem referenceTree_mapped (h : 0 < r.counters.policyMapping) :
    referenceTree r i (some mappings) = r.tree.map i mappings.pairs := if_pos h

theorem referenceTree_dropped (h : ¬ 0 < r.counters.policyMapping) :
    referenceTree r i (some mappings) = r.tree.dropMapped i mappings.pairs := if_neg h
end
theorem wf_referenceTree (h : r.tree.Wf (i + 1)) (mappings : Option PolicyMappings) :
    (referenceTree r (i + 1) mappings).Wf (i + 1) := by
  cases mappings with
  | none => exact h
  | some mappings =>
    by_cases hcode : 0 < r.counters.policyMapping
    · rw [referenceTree_mapped hcode]
      exact h.map (Nat.succ_pos i) mappings.concrete
    · rw [referenceTree_dropped hcode]
      exact h.dropMapped

theorem mapped_sub (h : Sim i s r) (mappings : Option PolicyMappings) {path e : List Oid}
    (hrow : Row (mappedTree s mappings) path e) : ⟨path, e⟩ ∈ (referenceTree r i mappings).row i := by
  cases mappings with
  | none => exact h.sub path e hrow
  | some mappings =>
    have hle := h.counters.2.1
    by_cases hcode : 0 < s.counters.policyMapping
    · rw [mappedTree_mapped hcode] at hrow
      obtain ⟨before,policy,hbefore,hpolicy,rfl⟩ := PolicyTree.row_applyPolicyMappings.mp hrow
      rw [referenceTree_mapped (by omega)]
      exact Tree.mem_row_map (h.sub path before hbefore) hpolicy
    · rw [mappedTree_dropped hcode,row_prune (arena_dropMapped h.arena),row_dropMapped h.arena] at hrow
      obtain ⟨hbefore,hkept⟩ := hrow
      have hmem := h.sub path e hbefore
      by_cases hreference : 0 < r.counters.policyMapping
      · -- mapped by the reference alone, but not this node
        rw [referenceTree_mapped hreference]
        obtain ⟨policy,hpolicy⟩ : ∃ policy, path.getLast? = some policy :=
          ⟨_,getLast?_eq_some_getLast (h.wf _ (Tree.mem_row.mp hmem).1).1.ne_nil⟩
        have hnone : (PolicyTree.subjectsOf mappings.pairs policy).isEmpty = true :=
          (Rfc5280.subjectsOf_isEmpty _ _).mpr fun m hm heq => hkept m hm (heq ▸ hpolicy)
        have hmapped : ⟨path,expectedAfter mappings.pairs policy e⟩ ∈
            (r.tree.map i mappings.pairs).row i := Tree.mem_row_map hmem hpolicy
        rwa [expectedAfter,if_pos hnone] at hmapped
      · rw [referenceTree_dropped hreference]
        exact Tree.mem_row_dropMapped.mpr ⟨hmem,hkept⟩

/-- Below `anyPolicy` it keeps all of the row where the mappings agree. -/
theorem mapped_same (h : Sim i s r) {mappings : PolicyMappings}
    (hagree : mappingsAgree s r.counters.policyMapping mappings.pairs = true)
    (hany : ∃ path e, Row s.tree path e ∧ path.getLast? = some anyPolicy) {n : Rfc5280.PolicyNode}
    (hn : n ∈ (referenceTree r i (some mappings)).row i) :
    Row (mappedTree s (some mappings)) n.path n.expectedPolicySet := by
  have hle := h.counters.2.1
  have hsame := h.same hany
  rw [mappingsAgree,(asserts_iff h.arena).mpr hany,Bool.not_true,Bool.false_or] at hagree
  by_cases hcode : 0 < s.counters.policyMapping
  · rw [if_pos hcode,List.all_eq_true] at hagree
    rw [referenceTree_mapped (by omega)] at hn
    rw [mappedTree_mapped hcode]
    have hcovered : ∀ m ∈ mappings.pairs, ∃ n ∈ r.tree.row i, n.validPolicy = some m.1 := by
      intro m hm
      obtain ⟨path,e,hrow,hlast⟩ := (asserts_iff h.arena).mp (hagree m hm)
      exact ⟨_,h.sub path e hrow,hlast⟩
    obtain ⟨m,hm,policy,hpolicy,rfl⟩ := Tree.exists_of_mem_row_map h.wf hcovered hn
    exact PolicyTree.row_applyPolicyMappings.mpr ⟨_,policy,hsame m hm,hpolicy,rfl⟩
  · rw [if_neg hcode,beq_iff_eq] at hagree
    rw [referenceTree_dropped (by omega)] at hn
    obtain ⟨hmem,hkept⟩ := Tree.mem_row_dropMapped.mp hn
    rw [mappedTree_dropped hcode,row_prune (arena_dropMapped h.arena),row_dropMapped h.arena]
    exact ⟨hsame n hmem,hkept⟩

theorem Sim.prepare (h : Sim (i + 1) s r) (hs : s.prepareForNext cert = .ok s')
    (hagree : ∀ mappings, cert.policyMappings = .ok (some mappings) →
      mappingsAgree s r.counters.policyMapping mappings.pairs = true) :
    ∃ r', r.prepare (i + 1) cert = some r' ∧ State.nextCounters r.counters cert = some r'.counters ∧
      Sim (i + 1) s' r' := by
  obtain ⟨mappings,constraints,inhibitAny,hmappings,hconstraints,hinhibitAny,htree,hcounters⟩ :=
    prepareForNext_cases hs
  let c : PolicyCounters := if cert.isSelfIssued then r.counters
    else ⟨r.counters.explicitPolicy - 1,r.counters.policyMapping - 1,r.counters.inhibitAnyPolicy - 1⟩
  have hnext : State.nextCounters r.counters cert = some (c.constrain constraints inhibitAny) := by
    rw [State.nextCounters,hconstraints,hinhibitAny]
    rfl
  refine ⟨⟨referenceTree r (i + 1) mappings,c.constrain constraints inhibitAny⟩,?_,hnext,?_⟩
  · rw [State.prepare,hmappings,hnext]
    cases mappings <;> rfl
  · refine ⟨?_,wf_referenceTree h.wf mappings,?_,?_,?_⟩
    · rw [htree]
      exact arena_mappedTree h.arena mappings
    · intro path e hrow
      rw [htree] at hrow
      exact mapped_sub h mappings hrow
    · rintro ⟨path,e,hrow,hlast⟩ n hn
      rw [htree] at hrow ⊢
      have hany : ∃ path e, Row s.tree path e ∧ path.getLast? = some anyPolicy := by
        obtain ⟨e,hbefore⟩ := row_of_mappedTree h.arena hrow
        exact ⟨path,e,hbefore,hlast⟩
      cases mappings with
      | none => exact h.same hany n hn
      | some mappings => exact mapped_same h (hagree mappings hmappings) hany hn
    · rw [hcounters]
      apply constrain_mono
      obtain ⟨hexplicit,hmapping,hany⟩ := h.counters
      dsimp only [c]
      split_ifs
      all_goals exact ⟨by dsimp only; omega,by dsimp only; omega,by dsimp only; omega⟩

theorem sim_start (opts : PolicyOptions) (n : Nat) : Sim 0 (.start opts n) (State.start opts n) where
  arena := PolicyTree.arena_initial
  wf m hm := by
    cases List.mem_singleton.mp hm
    refine ⟨⟨rfl,fun above below hpath => ?_,fun _ => rfl,fun hne => absurd rfl hne⟩,le_refl _⟩
    cases above with
    | nil => exact fun p hp => absurd hp not_mem_nil
    | cons x above => simp at hpath
  sub path e hrow := by
    obtain ⟨rfl,rfl⟩ := row_initial.mp hrow
    exact Tree.mem_row.mpr ⟨List.mem_singleton.mpr rfl,rfl⟩
  same _ m hm := by
    cases List.mem_singleton.mp (Tree.mem_row.mp hm).1
    exact row_initial.mpr ⟨rfl,rfl⟩
  counters := ⟨le_refl _,le_refl _,le_refl _⟩

/-- Step (f) of the reference does not fail on what the code still accepts. -/
theorem Sim.basic (h : Sim i s r) (hs : s.process cert = .ok s') (hlive : Live s') (last : Bool) :
    ∃ r', r.basic (i + 1) last cert = some r' ∧ r'.counters = r.counters ∧ Sim (i + 1) s' r' ∧
      ∀ n ∈ r'.tree, ∃ m ∈ r'.tree, m.depth = i + 1 ∧ n.path <+: m.path := by
  obtain ⟨found,hfound,hsim⟩ := h.process hs last
  refine ⟨⟨grownTree r (i + 1) last cert found,r.counters⟩,?_,rfl,hsim,?_⟩
  · have hpass : ¬ (r.counters.explicitPolicy = 0 ∧ grownTree r (i + 1) last cert found = []) := by
      rintro ⟨hzero,hnil⟩
      rcases hlive with hexplicit | ⟨path,e,hrow⟩
      · have := hsim.counters.1
        dsimp only at this
        omega
      · have hmem := (Tree.mem_row.mp (hsim.sub path e hrow)).1
        rw [hnil] at hmem
        cases hmem
    rw [State.basic,hfound]
    cases found <;> exact if_neg hpass
  · intro n hn
    cases found with
    | none => cases hn
    | some policies => exact Tree.exists_below h.wf.append_newNodes hn
variable {rest certs : List Certificate}
theorem mappingsAgreeAlong_cons {next : Certificate}
    (h : mappingsAgreeAlong s c (cert :: next :: rest) = true) (hs : s.process cert = .ok s') :
    (∀ mappings, cert.policyMappings = .ok (some mappings) → mappingsAgree s' c.policyMapping mappings.pairs = true) ∧
    ∀ s'' c', s'.prepareForNext cert = .ok s'' → State.nextCounters c cert = some c' →
      mappingsAgreeAlong s'' c' (next :: rest) = true := by
  unfold mappingsAgreeAlong at h
  rw [hs] at h
  rw [Bool.and_eq_true] at h
  refine ⟨fun mappings hmappings => ?_,fun s'' c' hs'' hc' => ?_⟩
  · simpa [hmappings] using h.1
  · simpa [hs'',hc'] using h.2

theorem arena_prepareForNext (harena : Arena s.tree) (h : s.prepareForNext cert = .ok s') : Arena s'.tree := by
  obtain ⟨mappings,-,-,-,-,-,htree,-⟩ := prepareForNext_cases h
  rw [htree]
  exact arena_mappedTree harena mappings

theorem arena_walk (harena : Arena s.tree) (hs : s.walk certs = .ok s') : Arena s'.tree := by
  induction certs generalizing s with
  | nil =>
    cases hs
    exact harena
  | cons cert rest ih =>
    cases rest with
    | nil => exact (process_cases harena hs).2.1
    | cons next rest =>
      obtain ⟨s₁,hs₁,hs⟩ := bind_eq_ok.mp hs
      obtain ⟨s₂,hs₂,hs⟩ := bind_eq_ok.mp hs
      exact ih (arena_prepareForNext (process_cases harena hs₁).2.1 hs₂) hs

theorem live_of_walk (harena : Arena s.tree) (hs : s.walk certs = .ok s') (hlive : Live s') : Live s := by
  induction certs generalizing s with
  | nil =>
    cases hs
    exact hlive
  | cons cert rest ih =>
    cases rest with
    | nil => exact live_of_process harena hs hlive
    | cons next rest =>
      obtain ⟨s₁,hs₁,hs⟩ := bind_eq_ok.mp hs
      obtain ⟨s₂,hs₂,hs⟩ := bind_eq_ok.mp hs
      have harena₁ := (process_cases harena hs₁).2.1
      have hlive₂ := ih (arena_prepareForNext harena₁ hs₂) hs
      exact live_of_process harena hs₁ (live_of_prepareForNext harena₁ hs₂ hlive₂)

/-- The invariant of a whole walk: what the code accepts in the end, the reference follows. -/
theorem Sim.walk (hne : certs ≠ []) (h : Sim i s r)
    (hagree : mappingsAgreeAlong s r.counters certs = true) (hs : s.walk certs = .ok s')
    (hlive : Live s') : ∃ r', r.walk (i + 1) certs = some r' ∧ Sim (i + certs.length) s' r' ∧
      ∀ n ∈ r'.tree, ∃ m ∈ r'.tree, m.depth = i + certs.length ∧ n.path <+: m.path := by
  induction certs generalizing i s r with
  | nil => exact absurd rfl hne
  | cons cert rest ih =>
    cases rest with
    | nil =>
      obtain ⟨r',hr',-,hsim,hbelow⟩ := h.basic hs hlive true
      exact ⟨r',hr',hsim,hbelow⟩
    | cons next rest =>
      obtain ⟨s₁,hs₁,hs⟩ := bind_eq_ok.mp hs
      obtain ⟨s₂,hs₂,hs⟩ := bind_eq_ok.mp hs
      have harena₁ := (process_cases h.arena hs₁).2.1
      have hlive₁ := live_of_prepareForNext harena₁ hs₂
        (live_of_walk (arena_prepareForNext harena₁ hs₂) hs hlive)
      obtain ⟨hhere,hthere⟩ := mappingsAgreeAlong_cons hagree hs₁
      obtain ⟨r₁,hr₁,hcounters₁,hsim₁,-⟩ := h.basic hs₁ hlive₁ false
      rw [← hcounters₁] at hhere hthere
      obtain ⟨r₂,hr₂,hcounters₂,hsim₂⟩ := hsim₁.prepare hs₂ hhere
      obtain ⟨r',hr',hsim,hbelow⟩ :=
        ih (cons_ne_nil _ _) hsim₂ (hthere _ _ hs₂ hcounters₂) hs
      refine ⟨r',?_,?_,?_⟩
      · unfold State.walk
        rw [hr₁,bind_eq_bind,bind_some,hr₂]
        exact hr'
      all_goals rwa [length_cons,← Nat.add_assoc,Nat.add_right_comm]

theorem checkPolicies_cases {leaf : Certificate} {opts : PolicyOptions}
    (henabled : opts.policyProcessingEnabled = true) (h : checkPolicies (leaf :: rest) opts = .ok ()) :
    ∃ s constraints, (PolicyState.start opts (leaf :: rest).length).walk (leaf :: rest).reverse = .ok s ∧
      leaf.policyConstraints = .ok constraints ∧ ((constraints.bind PolicyConstraints.requireExplicitPolicy ≠ some 0 ∧
          0 < s.counters.explicitPolicy - 1) ∨ s.tree.intersectWithUserSet opts.initialPolicies ≠ []) := by
  rw [checkPolicies,henabled] at h
  obtain ⟨s,hs,h⟩ := bind_eq_ok.mp h
  obtain ⟨constraints,hconstraints,h⟩ := bind_eq_ok.mp h
  refine ⟨s,constraints,hs,orBad_eq_ok.mp hconstraints,?_⟩
  dsimp only at h
  by_cases hempty : (s.tree.intersectWithUserSet opts.initialPolicies).isEmpty = true
  · left
    rw [hempty] at h
    split_ifs at h with hzero hrefused hrefused
    · cases h
    · exact absurd ⟨rfl,rfl⟩ hrefused
    · cases h
    · exact ⟨hzero,Nat.pos_of_ne_zero fun heq => hrefused ⟨heq,rfl⟩⟩
  · right
    exact fun hnil => hempty (by rw [hnil]; rfl)

theorem acceptable_ne_nil {n : Nat} (h : Sim n s r)
    (hbelow : ∀ m ∈ r.tree, ∃ d ∈ r.tree, d.depth = n ∧ m.path <+: d.path)
    {userSet : Option (List Oid)} (haccepted : s.tree.intersectWithUserSet userSet ≠ []) :
    r.tree.acceptable n userSet ≠ [] := by
  obtain ⟨path,e,hrow,hpath⟩ := PolicyTree.exists_accepted h.arena haccepted
  have hmem := h.sub path e hrow
  have hne : r.tree ≠ [] := ne_nil_of_mem (Tree.mem_row.mp hmem).1
  cases userSet with
  | none => exact hne
  | some set =>
    rw [Tree.acceptable]
    split_ifs with hany
    · exact hne
    · exact Tree.intersect_ne_nil h.wf hbelow (by simpa using hany) hmem (hpath set rfl)

/-- Whatever the code accepts, the reference accepts, as long as the mappings agree. -/
theorem checkPolicies_fail_closed (path : List Certificate) (opts : PolicyOptions)
    (henabled : opts.policyProcessingEnabled = true)
    (hagree : mappingsAgreeAlong (.start opts path.length) (State.start opts path.length).counters
      path.reverse = true) (hok : checkPolicies path opts = .ok ()) : Rfc5280.accepts path opts = true := by
  cases path with
  | nil =>
    rw [checkPolicies,henabled] at hok
    cases hok
  | cons leaf rest =>
    obtain ⟨s,constraints,hs,hconstraints,hwhy⟩ := checkPolicies_cases henabled hok
    have hne : (leaf :: rest).reverse ≠ [] := by simp
    have hsim := sim_start opts (leaf :: rest).length
    -- what made the final check pass kept the walk of the reference alive
    have hlive : Live s := by
      rcases hwhy with ⟨-,hexplicit⟩ | haccepted
      · exact .inl (by omega)
      · obtain ⟨path,e,hrow,-⟩ :=
          PolicyTree.exists_accepted (arena_walk hsim.arena hs) haccepted
        exact .inr ⟨path,e,hrow⟩
    obtain ⟨r,hr,hsim,hbelow⟩ := hsim.walk hne hagree hs hlive
    rw [Rfc5280.accepts,hr,hconstraints]
    dsimp only [Except.toOption]
    rw [Bool.or_eq_true,decide_eq_true_eq]
    rcases hwhy with ⟨hzero,hexplicit⟩ | haccepted
    · have := hsim.counters.1
      rw [if_neg hzero]
      exact .inl (by omega)
    · right
      simpa using acceptable_ne_nil hsim hbelow haccepted

/-- A certificate by its policy extensions. -/
private def policyCertificate (selfIssued : Bool) (policies : List Oid) (h : policies ≠ [] ∧ policies.Nodup)
    (mappings : Option PolicyMappings) (constraints : Option PolicyConstraints) : Certificate where
  issuerDer := .ok [1]
  subjectDer := .ok (if selfIssued then [1] else [2])
  certificatePolicies := .ok (some ⟨policies, h.1, h.2⟩)
  policyMappings := .ok mappings
  policyConstraints := .ok constraints
  inhibitAnyPolicy := .ok none

/-- The policy `1.1` of the issuer is the policy `1.2` of the subject. -/
private def oneMapping : PolicyMappings := ⟨[([1, 1], [1, 2])], by decide, by decide⟩

theorem checkPolicies_fail_closed_mapped :
    Rfc5280.accepts [policyCertificate false [[1, 2]] (by decide) none none,
      policyCertificate false [[1, 1], anyPolicy] (by decide) (some oneMapping) none]
      (.require [[1, 1]]) = true :=
  checkPolicies_fail_closed _ _ rfl (by decide +kernel) (by decide +kernel)

/-- The leaf's policy is one that the issuer maps another one to; it ends up below `anyPolicy`, as
itself. -/
theorem checkPolicies_accepts_more :
    let leaf := policyCertificate false [[1, 2]] (by decide) none none
    let unmapped := [leaf, policyCertificate false [anyPolicy] (by decide) (some oneMapping) none]
    let early := [leaf, policyCertificate false [[1, 1], anyPolicy] (by decide) (some oneMapping) none,
      policyCertificate true [anyPolicy] (by decide) none none,
      policyCertificate false [anyPolicy] (by decide) none (some ⟨none,some 1,by decide⟩)]
    ∀ path ∈ [unmapped, early], checkPolicies path (.require [[1, 2]]) = .ok () ∧
      Rfc5280.accepts path (.require [[1, 2]]) = false := by
  decide +kernel
end PureCrypto.Pki
