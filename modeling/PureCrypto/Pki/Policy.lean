import PureCrypto.Framework.Forest
import PureCrypto.Pki.Certificate

/-!
# Certificate policies

`tls/pki/policy.rs`: the `valid_policy_tree` in a flat arena, grown by one row for every certificate
from the trust anchor down to the leaf.  A parent is `none` where the source has `usize::MAX`.
-/
namespace PureCrypto.Pki
open Tls (Error)
def maxPolicyTreeNodes : Nat := 1000

structure PolicyOptions where
  /-- `none` is the special value any-policy. -/
  initialPolicies : Option (List Oid)
  requireExplicitPolicy : Bool
  inhibitPolicyMapping : Bool
  inhibitAnyPolicy : Bool
namespace PolicyOptions
def none : PolicyOptions := ⟨Option.none, false, false, false⟩

def require (policies : List Oid) : PolicyOptions := ⟨some policies, true, false, false⟩

def policyProcessingEnabled (opts : PolicyOptions) : Bool :=
  opts.requireExplicitPolicy || opts.initialPolicies.isSome
end PolicyOptions
structure Node where
  validPolicy : Oid
  expectedPolicySet : List Oid
  parent : Option Nat
  depth : Nat
deriving DecidableEq

instance : Forest.Linked Node Oid where
  parent := Node.parent
  relink p n := { n with parent := p }
  label := Node.validPolicy
  parent_relink _ _ := rfl
  label_relink _ _ := rfl

/-- The arena; `depth` is the depth of the current row. -/
structure PolicyTree where
  nodes : List Node
  depth : Nat
namespace PolicyTree
def initial : PolicyTree := ⟨[⟨anyPolicy, [anyPolicy], none, 0⟩], 0⟩

def leafIndices (tree : PolicyTree) : List Nat :=
  (List.range tree.nodes.length).filter fun i => tree.nodes[i]?.any fun n => n.depth == tree.depth

/-- Keep what is on a way to the current row. -/
def prune (tree : PolicyTree) : PolicyTree :=
  { tree with
    nodes := Forest.compact tree.nodes
      (Forest.flagsAbove tree.nodes fun n => n.depth == tree.depth) }

def pushNode (existing : Nat) (newNodes : List Node) (node : Node) : Except Error (List Node) :=
  if maxPolicyTreeNodes ≤ existing + newNodes.length then .error .badCertificate
  else .ok (newNodes ++ [node])
def child (depth : Nat) (policy : Oid) (parent : Nat) : Node :=
  ⟨policy, [policy], some parent, depth⟩
def expects (tree : PolicyTree) (i : Nat) (policy : Oid) : Bool :=
  tree.nodes[i]?.any fun n => n.expectedPolicySet.contains policy
def assertsAny (tree : PolicyTree) (i : Nat) : Bool :=
  tree.nodes[i]?.any fun n => n.validPolicy == anyPolicy

/-- The parents that expect a policy or, if there are none, those that assert `anyPolicy`. -/
def parentsFor (tree : PolicyTree) (policy : Oid) : List Nat :=
  let matching := tree.leafIndices.filter fun i => tree.expects i policy
  if matching.isEmpty then tree.leafIndices.filter fun i => tree.assertsAny i else matching

def addConcrete (tree : PolicyTree) (concrete : List Oid) : Except Error (List Node) :=
  concrete.foldlM (fun newNodes policy =>
    (tree.parentsFor policy).foldlM (fun newNodes parent =>
      pushNode tree.nodes.length newNodes (child (tree.depth + 1) policy parent)) newNodes) []

/-- A node for everything a parent expects that has none yet. -/
def addExpected (tree : PolicyTree) (newNodes : List Node) : Except Error (List Node) :=
  tree.leafIndices.foldlM (fun newNodes parent =>
    ((tree.nodes[parent]?.map Node.expectedPolicySet).getD []).foldlM (fun newNodes policy =>
      if newNodes.any (fun n => n.parent == some parent && n.validPolicy == policy) then .ok newNodes
      else pushNode tree.nodes.length newNodes (child (tree.depth + 1) policy parent)) newNodes)
    newNodes

def newRow (tree : PolicyTree) (policies : List Oid) (inhibitAnyPolicy : Nat) :
    Except Error (List Node) := do
  let newNodes ← tree.addConcrete (policies.filter fun p => p != anyPolicy)
  if policies.contains anyPolicy && decide (0 < inhibitAnyPolicy) then tree.addExpected newNodes
  else return newNodes

def processCertificatePolicies (tree : PolicyTree) (cert : Certificate) (inhibitAnyPolicy : Nat) :
    Except Error PolicyTree := do
  match ← orBad cert.certificatePolicies with
  | none => return tree
  | some policies =>
    let newNodes ← tree.newRow policies.oids inhibitAnyPolicy
    return ⟨tree.nodes ++ newNodes, tree.depth + 1⟩

def subjectsOf (mappings : List (Oid × Oid)) (policy : Oid) : List Oid :=
  (mappings.filter fun m => m.1 == policy).map Prod.snd

def applyPolicyMappings (tree : PolicyTree) (mappings : List (Oid × Oid)) : PolicyTree :=
  { tree with
    nodes := tree.nodes.map fun n =>
      if n.depth != tree.depth then n
      else
        let subjects := subjectsOf mappings n.validPolicy
        if subjects.isEmpty then n else { n with expectedPolicySet := subjects } }

/-- Mapping is inhibited: drop the nodes of the current row whose policy is mapped. -/
def dropMapped (tree : PolicyTree) (mappings : List (Oid × Oid)) : PolicyTree :=
  { tree with
    nodes := Forest.compact tree.nodes (tree.nodes.map fun n =>
      !(n.depth == tree.depth && mappings.any fun m => m.1 == n.validPolicy)) }
end PolicyTree
/-- The counters of RFC 5280 section 6.1.2. -/
structure PolicyCounters where
  explicitPolicy : Nat
  policyMapping : Nat
  inhibitAnyPolicy : Nat

/-- The counters behind a certificate's own constraints. -/
def PolicyCounters.constrain (c : PolicyCounters) (constraints : Option PolicyConstraints)
    (inhibitAny : Option Nat) : PolicyCounters where
  explicitPolicy := match constraints.bind PolicyConstraints.requireExplicitPolicy with
    | some r => min c.explicitPolicy r
    | none => c.explicitPolicy
  policyMapping := match constraints.bind PolicyConstraints.inhibitPolicyMapping with
    | some m => min c.policyMapping m
    | none => c.policyMapping
  inhibitAnyPolicy := match inhibitAny with
    | some skip => min c.inhibitAnyPolicy skip
    | none => c.inhibitAnyPolicy

structure PolicyState where
  tree : PolicyTree
  counters : PolicyCounters
namespace PolicyState
def start (opts : PolicyOptions) (n : Nat) : PolicyState :=
  ⟨.initial, ⟨if opts.requireExplicitPolicy then 0 else n + 1,
    if opts.inhibitPolicyMapping then 0 else n + 1, if opts.inhibitAnyPolicy then 0 else n + 1⟩⟩

/-- The row of one certificate: `None` empties the tree. -/
def process (s : PolicyState) (cert : Certificate) : Except Error PolicyState := do
  let tree ← s.tree.processCertificatePolicies cert s.counters.inhibitAnyPolicy
  match ← orBad cert.certificatePolicies with
  | none => return { s with tree := { tree with nodes := [] } }
  | some _ => return { s with tree := tree.prune }

def mapPolicies (s : PolicyState) (mappings : List (Oid × Oid)) : PolicyState :=
  if 0 < s.counters.policyMapping then { s with tree := s.tree.applyPolicyMappings mappings }
  else { s with tree := (s.tree.dropMapped mappings).prune }

def prepareForNext (s : PolicyState) (cert : Certificate) : Except Error PolicyState := do
  let s := match ← orBad cert.policyMappings with
    | some mappings => s.mapPolicies mappings.pairs
    | none => s
  -- the source counts self-issued certificates too
  let c := s.counters
  let counters : PolicyCounters :=
    ⟨c.explicitPolicy - 1, c.policyMapping - 1, c.inhibitAnyPolicy - 1⟩
  let constraints ← orBad cert.policyConstraints
  let inhibitAny ← orBad cert.inhibitAnyPolicy
  return { s with counters := counters.constrain constraints inhibitAny }

def walk (s : PolicyState) : List Certificate → Except Error PolicyState
  | [] => .ok s
  | [leaf] => s.process leaf
  | cert :: rest => do
      let s ← s.process cert
      let s ← s.prepareForNext cert
      s.walk rest
end PolicyState
namespace PolicyTree
/-- The nodes from a node up to depth 1. -/
def branch (tree : PolicyTree) : Nat → Nat → List Nat
  | 0, _ => []
  | fuel + 1, i =>
    i :: match tree.nodes[i]? with
      | some n =>
        if n.depth ≤ 1 then []
        else match n.parent with
          | some p => if p < tree.nodes.length then tree.branch fuel p else []
          | none => []
      | none => []

/-- The policy of a branch: the first one below the root that is not `anyPolicy`. -/
def branchPolicy (tree : PolicyTree) (leaf : Nat) : Option Oid :=
  ((tree.branch tree.nodes.length leaf).reverse.filterMap
    fun i => tree.nodes[i]?.map Node.validPolicy).find? fun p => p != anyPolicy

def intersectWithUserSet (tree : PolicyTree) (userSet : Option (List Oid)) : List Oid :=
  if tree.nodes.isEmpty || tree.depth == 0 then []
  else
    let policies := tree.leafIndices.map tree.branchPolicy
    let effective := policies.reduceOption.foldl (fun acc p => if acc.contains p then acc else acc ++ [p]) []
    let anyPresent := policies.any Option.isNone
    match userSet with
    | none => if anyPresent && effective.isEmpty then [anyPolicy] else effective
    | some set =>
      let acceptable := effective.filter fun p => set.contains p
      if anyPresent then
        set.foldl (fun acc u => if acc.contains u then acc else acc ++ [u]) acceptable
      else acceptable
end PolicyTree
def checkPolicies (path : List Certificate) (opts : PolicyOptions) : Except Error Unit := do
  if !opts.policyProcessingEnabled then return ()
  match path with
  | [] => throw .badCertificate
  | leaf :: _ =>
    let s ← (PolicyState.start opts path.length).walk path.reverse
    let explicitPolicy := s.counters.explicitPolicy - 1
    let constraints ← orBad leaf.policyConstraints
    let explicitPolicy :=
      if constraints.bind PolicyConstraints.requireExplicitPolicy = some 0 then 0 else explicitPolicy
    if explicitPolicy = 0 ∧ (s.tree.intersectWithUserSet opts.initialPolicies).isEmpty then
      throw .badCertificate
    return ()
end PureCrypto.Pki
