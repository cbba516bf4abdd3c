import PureCrypto.Pki.Policy
import Mathlib.Data.List.Dedup
import Mathlib.Logic.Function.Iterate

/-!
# The policy procedure of RFC 5280

Sections 6.1.2 to 6.1.5 as the RFC states them; nothing here is translated from the source. A node
is named by the `valid_policy` values on the way to it.
-/
namespace PureCrypto.Pki.Rfc5280
structure PolicyNode where
  path : List Oid
  expectedPolicySet : List Oid
deriving DecidableEq
namespace PolicyNode
def depth (n : PolicyNode) : Nat := n.path.length - 1

def validPolicy (n : PolicyNode) : Option Oid := n.path.getLast?

def child (n : PolicyNode) (policy : Oid) : PolicyNode := ⟨n.path ++ [policy], [policy]⟩
end PolicyNode
abbrev Tree := List PolicyNode
namespace Tree
def initial : Tree := [⟨[anyPolicy], [anyPolicy]⟩]

def row (tree : Tree) (depth : Nat) : List PolicyNode := tree.filter fun n => n.depth == depth
def hasChild (tree : Tree) (n : PolicyNode) : Bool := tree.any fun m => m.path.dropLast == n.path

/-- Delete the childless nodes above `depth`. -/
def dropChildless (depth : Nat) (tree : Tree) : Tree :=
  tree.filter fun n => decide (depth ≤ n.depth) || hasChild tree n

def prune (tree : Tree) (depth : Nat) : Tree := Nat.iterate (dropChildless depth) depth tree

def concreteChildren (parents : List PolicyNode) (policy : Oid) : List PolicyNode :=
  let matching := parents.filter fun n => n.expectedPolicySet.contains policy
  let parents := if matching.isEmpty then parents.filter fun n => n.validPolicy == some anyPolicy
    else matching
  parents.map fun n => n.child policy

def expectedChildren (parents created : List PolicyNode) : List PolicyNode :=
  parents.flatMap fun n =>
    (n.expectedPolicySet.filter fun policy => !created.any fun m => m.path == n.path ++ [policy]).map
      n.child

/-- The nodes below `parents`; `anyAllowed` says whether `anyPolicy` counts in `policies`. -/
def newNodes (parents : List PolicyNode) (policies : List Oid) (anyAllowed : Bool) :
    List PolicyNode :=
  let created := (policies.filter fun p => p != anyPolicy).flatMap (concreteChildren parents)
  created ++ if policies.contains anyPolicy && anyAllowed then expectedChildren parents created else []

def grow (tree : Tree) (i : Nat) (policies : List Oid) (anyAllowed : Bool) : Tree :=
  prune (tree ++ newNodes (tree.row (i - 1)) policies anyAllowed) i

/-- A mapped node of depth `i` expects what its policy is mapped to. -/
def mapNode (i : Nat) (mappings : List (Oid × Oid)) (n : PolicyNode) : PolicyNode :=
  match n.validPolicy with
  | some policy =>
    if n.depth == i && mappings.any (fun m => m.1 == policy)
    then { n with expectedPolicySet := PolicyTree.subjectsOf mappings policy } else n
  | none => n

/-- The nodes that `anyPolicy` stands for. -/
def generated (tree : Tree) (i : Nat) (mappings : List (Oid × Oid)) : List PolicyNode :=
  match (tree.row i).find? fun n => n.validPolicy == some anyPolicy with
  | some a =>
    ((mappings.map Prod.fst).dedup.filter fun policy =>
      !(tree.row i).any fun n => n.validPolicy == some policy).map
        fun policy => ⟨a.path.dropLast ++ [policy], PolicyTree.subjectsOf mappings policy⟩
  | none => []

def map (tree : Tree) (i : Nat) (mappings : List (Oid × Oid)) : Tree :=
  List.map (mapNode i mappings) tree ++ tree.generated i mappings
def dropMapped (tree : Tree) (i : Nat) (mappings : List (Oid × Oid)) : Tree :=
  prune (tree.filter fun n =>
    !(n.depth == i && mappings.any fun m => n.validPolicy == some m.1)) i

/-- The nodes whose parent asserts `anyPolicy`. -/
def validPolicyNodeSet (tree : Tree) : List PolicyNode :=
  tree.filter fun n => n.path.dropLast.getLast? == some anyPolicy

/-- The nodes of that set that the user does not accept. -/
def refused (tree : Tree) (userSet : List Oid) : List PolicyNode :=
  tree.validPolicyNodeSet.filter fun m =>
    m.validPolicy != some anyPolicy && !userSet.any fun u => m.validPolicy == some u

def accepted (tree : Tree) (userSet : List Oid) : Tree :=
  tree.filter fun m => !(tree.refused userSet).any fun r => r.path.isPrefixOf m.path

/-- The intersection with a `user-initial-policy-set` that is not any-policy. -/
def intersect (tree : Tree) (n : Nat) (userSet : List Oid) : Tree :=
  let kept := tree.accepted userSet
  let expanded : Tree := match (kept.row n).find? fun m => m.validPolicy == some anyPolicy with
    | some a =>
      kept.filter (fun m => !(m.depth == n && m.validPolicy == some anyPolicy)) ++
        (userSet.filter fun u => !tree.validPolicyNodeSet.any fun m => m.validPolicy == some u).map
          fun u => ⟨a.path.dropLast ++ [u], [u]⟩
    | none => kept
  prune expanded n

/-- Section 6.1.5 (g). -/
def acceptable (tree : Tree) (n : Nat) : Option (List Oid) → Tree
  | none => tree
  | some userSet => if userSet.contains anyPolicy then tree else tree.intersect n userSet
end Tree
structure State where
  tree : Tree
  counters : PolicyCounters
namespace State
def start (opts : PolicyOptions) (n : Nat) : State :=
  ⟨.initial, ⟨if opts.requireExplicitPolicy then 0 else n + 1,
    if opts.inhibitPolicyMapping then 0 else n + 1, if opts.inhibitAnyPolicy then 0 else n + 1⟩⟩

/-- Section 6.1.3 (d), (e) and (f) for certificate `i`; `last` is whether it is the leaf. -/
def basic (s : State) (i : Nat) (last : Bool) (cert : Certificate) : Option State := do
  let policies ← cert.certificatePolicies.toOption
  let tree := match policies with
    | some policies => s.tree.grow i policies.oids
        (decide (0 < s.counters.inhibitAnyPolicy) || (!last && cert.isSelfIssued))
    | none => []
  if s.counters.explicitPolicy = 0 ∧ tree = [] then none
  else some { s with tree }

/-- Section 6.1.4 (h), (i) and (j): a self-issued certificate is not counted. -/
def nextCounters (c : PolicyCounters) (cert : Certificate) : Option PolicyCounters := do
  let c : PolicyCounters := if cert.isSelfIssued then c
    else ⟨c.explicitPolicy - 1, c.policyMapping - 1, c.inhibitAnyPolicy - 1⟩
  let constraints ← cert.policyConstraints.toOption
  let inhibitAny ← cert.inhibitAnyPolicy.toOption
  some (c.constrain constraints inhibitAny)

/-- Section 6.1.4.  No mapping has `anyPolicy`, so (a) never fails. -/
def prepare (s : State) (i : Nat) (cert : Certificate) : Option State := do
  let mappings ← cert.policyMappings.toOption
  let tree := match mappings with
    | some mappings =>
      if 0 < s.counters.policyMapping then s.tree.map i mappings.pairs
      else s.tree.dropMapped i mappings.pairs
    | none => s.tree
  let counters ← nextCounters s.counters cert
  some ⟨tree, counters⟩

/-- Certificate `i` and those below it. -/
def walk (s : State) (i : Nat) : List Certificate → Option State
  | [] => some s
  | [leaf] => s.basic i true leaf
  | cert :: rest => do
      let s ← s.basic i false cert
      let s ← s.prepare i cert
      s.walk (i + 1) rest
end State
/-- Whether the procedure accepts `path`, which has the leaf first. -/
def accepts (path : List Certificate) (opts : PolicyOptions) : Bool :=
  match path with
  | [] => false
  | leaf :: _ =>
    match (State.start opts path.length).walk 1 path.reverse, leaf.policyConstraints.toOption with
    | some s, some constraints =>
      let explicitPolicy :=
        if constraints.bind PolicyConstraints.requireExplicitPolicy = some 0 then 0
        else s.counters.explicitPolicy - 1
      decide (0 < explicitPolicy) || !(s.tree.acceptable path.length opts.initialPolicies).isEmpty
    | _, _ => false
end PureCrypto.Pki.Rfc5280
