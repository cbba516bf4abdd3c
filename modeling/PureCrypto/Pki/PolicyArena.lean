import PureCrypto.Pki.PolicyRefinement

/-! # The arena throughout policy processing -/
namespace PureCrypto.Pki
namespace PolicyTree
/-- Node `i` is in the current row or has a descendant there. -/
def OnWayToRow (t : PolicyTree) (i : Nat) : Prop :=
  ∃ j n, t.nodes[j]? = some n ∧ n.depth = t.depth ∧ Forest.Above t.nodes i j

/-- The nodes on the way to the current row are left, in their order, with links to where their parents are now. -/
structure PrunedTo (t t' : PolicyTree) (index : Nat → Nat) : Prop where
  depth : t'.depth = t.depth
  moved : ∀ i n, t.nodes[i]? = some n → t.OnWayToRow i →
    t'.nodes[index i]? = some { n with parent := n.parent.map index }
  order : ∀ i j, t.OnWayToRow i → i < j → index i < index j
  complete : ∀ k < t'.nodes.length, ∃ i, t.OnWayToRow i ∧ index i = k
variable {t : PolicyTree}
theorem flagged_iff (h : Arena t) (i : Nat) :
    (Forest.flagsAbove t.nodes fun n => n.depth == t.depth)[i]? = some true ↔ t.OnWayToRow i := by
  rw [Forest.flagsAbove_iff h.ordered]
  simp only [beq_iff_eq,OnWayToRow]

theorem prunedTo (h : Arena t) : ∃ index, PrunedTo t t.prune index := by
  have hflags := flagged_iff h
  have hclosed := (Forest.flagsAbove_marked h.ordered fun n => n.depth == t.depth).2.1
  rw [prune]
  generalize Forest.flagsAbove t.nodes (fun n => n.depth == t.depth) = keep at hflags hclosed ⊢
  refine ⟨fun i => (keep.take i).count true,rfl,fun i n hn hi => ?_,fun i j hi hij => ?_,fun k hk => ?_⟩
  · have hkeep := (hflags i).mpr hi
    have hparent : n.parent.bind (Forest.remap keep) = n.parent.map fun i => (keep.take i).count true := by
      cases hp : n.parent with
      | none => rfl
      | some p => rw [Option.bind_some,Forest.remap,if_pos (hclosed i n p hn hp hkeep),Option.map_some]
    rw [Forest.getElem?_compact hn hkeep,← hparent]
    rfl
  · exact Forest.count_take_lt ((hflags i).mpr hi) hij
  · obtain ⟨i,n,hn,hkeep,hindex,-⟩ := Forest.exists_of_compact (List.getElem?_eq_getElem hk)
    rw [Forest.remap,if_pos hkeep,Option.some.injEq] at hindex
    exact ⟨i,(hflags i).mp hkeep,hindex⟩
variable {newNodes newNodes' : List Node} {node : Node}
theorem pushNode_le (h : pushNode t.nodes.length newNodes node = .ok newNodes') :
    t.nodes.length + newNodes'.length ≤ maxPolicyTreeNodes := by
  rw [pushNode] at h
  split_ifs at h
  cases h
  rw [List.length_append,List.length_singleton]
  omega

/-- The row under construction is counted with what is there already. -/
theorem newRow_le (hle : t.nodes.length ≤ maxPolicyTreeNodes) {policies : List Oid} {inhibitAnyPolicy : Nat}
    (h : t.newRow policies inhibitAnyPolicy = .ok newNodes) :
    t.nodes.length + newNodes.length ≤ maxPolicyTreeNodes := by
  obtain ⟨concrete,hconcrete,h⟩ := bind_eq_ok.mp h
  let P := fun l : List Node => t.nodes.length + l.length ≤ maxPolicyTreeNodes
  have hnil : P [] := hle
  have hle' : P concrete := foldlM_invariant
    (fun _ _ _ hacc hpolicy => foldlM_invariant (P := P) (fun _ _ _ _ hpush => pushNode_le hpush) hacc hpolicy)
    hnil hconcrete
  split_ifs at h
  · refine foldlM_invariant (P := P) (fun _ _ _ hacc hparent =>
      foldlM_invariant (P := P) (fun acc _ _ hacc hpush => ?_) hacc hparent) hle' h
    split_ifs at hpush
    · cases hpush
      exact hacc
    · exact pushNode_le hpush
  · cases h
    exact hle'

/-- A sound arena within the limit. -/
structure Sound (t : PolicyTree) : Prop where
  arena : Arena t
  length_le : t.nodes.length ≤ maxPolicyTreeNodes
variable (h : Sound t)
include h
theorem Sound.prune : Sound t.prune :=
  ⟨arena_prune h.arena,Nat.le_trans (Forest.length_compact_le _ _) h.length_le⟩

theorem Sound.dropMapped (mappings : List (Oid × Oid)) : Sound (t.dropMapped mappings) :=
  ⟨arena_dropMapped h.arena,Nat.le_trans (Forest.length_compact_le _ _) h.length_le⟩
theorem Sound.applyPolicyMappings (mappings : List (Oid × Oid)) : Sound (t.applyPolicyMappings mappings) :=
  ⟨arena_applyPolicyMappings h.arena,by rw [PolicyTree.applyPolicyMappings,List.length_map]; exact h.length_le⟩

theorem Sound.grow {cert : Certificate} {inhibitAnyPolicy : Nat} {t' : PolicyTree}
    (ht : t.processCertificatePolicies cert inhibitAnyPolicy = .ok t') : Sound t' := by
  obtain ⟨found,hfound,hgrow⟩ := bind_eq_ok.mp ht
  cases found with
  | none =>
    cases hgrow
    exact h
  | some policies =>
    refine ⟨(processCertificatePolicies_spec h.arena (orBad_eq_ok.mp hfound) ht).1,?_⟩
    obtain ⟨newNodes,hnew,hgrow⟩ := bind_eq_ok.mp hgrow
    cases hgrow
    rw [List.length_append]
    exact newRow_le h.length_le hnew
end PolicyTree
open PolicyTree (Sound)
namespace PolicyState
/-- The trees of the walk over `certs`, after each step that changes the tree, whether or not the walk goes on. -/
inductive Visits : PolicyState → List Certificate → PolicyTree → Prop
  | here {s certs} : Visits s certs s.tree
  | grown {s cert rest t} (h : s.tree.processCertificatePolicies cert s.counters.inhibitAnyPolicy = .ok t) :
    Visits s (cert :: rest) t
  | processed {s s' cert rest} (h : s.process cert = .ok s') : Visits s (cert :: rest) s'.tree
  | dropped {s s' cert next rest mappings} (h : s.process cert = .ok s')
      (hm : cert.policyMappings = .ok (some mappings)) (hinhibited : s'.counters.policyMapping = 0) :
    Visits s (cert :: next :: rest) (s'.tree.dropMapped mappings.pairs)
  | mapped {s s' cert next rest mappings} (h : s.process cert = .ok s')
      (hm : cert.policyMappings = .ok (some mappings)) :
    Visits s (cert :: next :: rest) (s'.mapPolicies mappings.pairs).tree
  | prepared {s s' s'' cert next rest t} (h : s.process cert = .ok s') (h' : s'.prepareForNext cert = .ok s'')
      (ht : Visits s'' (next :: rest) t) : Visits s (cert :: next :: rest) t
variable {s s' : PolicyState} {cert : Certificate} {certs : List Certificate} {t : PolicyTree}
theorem visits_walk (h : s.walk certs = .ok s') : Visits s certs s'.tree := by
  induction certs generalizing s with
  | nil =>
    cases h
    exact .here
  | cons cert rest ih =>
    cases rest with
    | nil => exact .processed h
    | cons next rest =>
      obtain ⟨s₁,hs₁,h⟩ := bind_eq_ok.mp h
      obtain ⟨s₂,hs₂,h⟩ := bind_eq_ok.mp h
      exact .prepared hs₁ hs₂ (ih h)

theorem sound_process (hs : Sound s.tree) (h : s.process cert = .ok s') : Sound s'.tree := by
  obtain ⟨tree,htree,h⟩ := bind_eq_ok.mp h
  obtain ⟨found,-,h⟩ := bind_eq_ok.mp h
  cases found with
  | none =>
    cases h
    exact ⟨arena_nil rfl,Nat.zero_le _⟩
  | some policies =>
    cases h
    exact (hs.grow htree).prune

theorem sound_mapPolicies (hs : Sound s.tree) (mappings : List (Oid × Oid)) : Sound (s.mapPolicies mappings).tree := by
  rw [mapPolicies]
  split_ifs
  · exact hs.applyPolicyMappings mappings
  · exact (hs.dropMapped mappings).prune

theorem sound_prepareForNext (hs : Sound s.tree) (h : s.prepareForNext cert = .ok s') : Sound s'.tree := by
  obtain ⟨mappings,-,h⟩ := bind_eq_ok.mp h
  obtain ⟨constraints,-,h⟩ := bind_eq_ok.mp h
  obtain ⟨inhibitAny,-,h⟩ := bind_eq_ok.mp h
  cases h
  cases mappings with
  | none => exact hs
  | some mappings => exact sound_mapPolicies hs mappings.pairs

theorem Visits.sound (h : Visits s certs t) (hs : Sound s.tree) : Sound t := by
  induction h with
  | here => exact hs
  | grown h => exact hs.grow h
  | processed h => exact sound_process hs h
  | dropped h _ _ => exact (sound_process hs h).dropMapped _
  | mapped h _ => exact sound_mapPolicies (sound_process hs h) _
  | prepared h h' _ ih => exact ih (sound_prepareForNext (sound_process hs h) h')

/-- For every path and options: each tree on the way has its links in range, with depths that differ by one, and at
most the allowed number of nodes, and pruning it keeps exactly what leads to the current row. -/
theorem policy_arena_invariant (path : List Certificate) (opts : PolicyOptions) :
    (∀ s, (start opts path.length).walk path.reverse = .ok s → Visits (start opts path.length) path.reverse s.tree) ∧
    ∀ t, Visits (start opts path.length) path.reverse t →
      (∀ (i : Nat) (n : Node), t.nodes[i]? = some n → match n.parent with
        | none => n.depth = 0
        | some p => ∃ m, t.nodes[p]? = some m ∧ n.depth = m.depth + 1) ∧
      (∀ i ∈ t.leafIndices, i < t.nodes.length) ∧ t.nodes.length ≤ maxPolicyTreeNodes ∧
      ∃ index, t.PrunedTo t.prune index := by
  refine ⟨fun s => visits_walk,fun t ht => ?_⟩
  obtain ⟨harena,hle⟩ := ht.sound ⟨PolicyTree.arena_initial,show 1 ≤ maxPolicyTreeNodes by decide⟩
  refine ⟨fun i n hn => ?_,fun i hi => ?_,hle,PolicyTree.prunedTo harena⟩
  · cases hp : n.parent with
    | none => exact (harena.root n (List.mem_of_getElem? hn) hp).1
    | some p => exact harena.link i n p hn hp
  · exact List.mem_range.mp (List.mem_of_mem_filter hi)
end PolicyState
end PureCrypto.Pki
