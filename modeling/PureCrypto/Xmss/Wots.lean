import PureCrypto.Xmss.Hash

/-!
# One-time signatures and tree hashing

The WOTS+ part of `xmss/mod.rs`, the randomised tree hash and the L-tree.  Addresses are changed in
place: every function returns the address it leaves behind.  The kernels that run several chains at a
time compute what the loops here compute.
-/
namespace PureCrypto.Xmss
variable {p : Params} (H : HashFunctions p)
def expandLoop (skSeed pubSeed : Node p) : Nat → Nat → Adrs → Adrs × List (Node p)
  | _, 0, addr => (addr, [])
  | i, count + 1, addr =>
    let addr := addr.setChain i
    let x := H.prfKeygen skSeed pubSeed addr.toBytes
    let (addr, xs) := expandLoop skSeed pubSeed (i + 1) count addr
    (addr, x :: xs)

def wotsExpandSeed (skSeed pubSeed : Node p) (addr : Adrs) : Adrs × List (Node p) :=
  expandLoop H skSeed pubSeed 0 p.wotsLen ((addr.setHash 0).setKeyAndMask 0)

def wotsStep (pubSeed : Node p) (s : Adrs × Node p) (i : Nat) : Adrs × Node p :=
  let addr := (s.1.setHash i).setKeyAndMask 0
  let key := H.prf pubSeed addr.toBytes
  let addr := addr.setKeyAndMask 1
  let bm := H.prf pubSeed addr.toBytes
  (addr, H.f key (Node.xor s.2 bm))

def wotsChain (pubSeed : Node p) (x : Node p) (start steps : Nat) (addr : Adrs) : Adrs × Node p :=
  let stop := min (start + steps) p.wotsW
  (List.range' start (stop - start)).foldl (wotsStep H pubSeed) (addr, x)

/-- Chain `i` and those after it, each with its value, position and end. -/
def wotsChains (pubSeed : Node p) : Nat → List (Node p × Nat × Nat) → Adrs → Adrs × List (Node p)
  | _, [], addr => (addr, [])
  | i, (x, pos, stop) :: rest, addr =>
    let (addr, y) := wotsChain H pubSeed x pos (stop - pos) (addr.setChain i)
    let (addr, ys) := wotsChains pubSeed (i + 1) rest addr
    (addr, y :: ys)

def wotsPkgen (skSeed pubSeed : Node p) (addr : Adrs) : Adrs × List (Node p) :=
  let (addr, pk) := wotsExpandSeed H skSeed pubSeed addr
  wotsChains H pubSeed 0 (pk.map fun x => (x, 0, p.wotsW - 1)) addr

/-- The digits of `input`: `total` holds the current byte, of which `bits` are left. -/
def baseW (p : Params) : Nat → List UInt8 → Nat → Nat → List Nat
  | 0, _, _, _ => []
  | count + 1, input, total, bits =>
    let (total, input, bits) :=
      if bits = 0 then ((input.headD 0).toNat, input.tail, 8) else (total, input, bits)
    let bits := bits - p.wotsLogW
    ((total >>> bits) &&& (p.wotsW - 1)) :: baseW p count input total bits

def chainLengths (p : Params) (msg : List UInt8) : List Nat :=
  let lengths := baseW p p.wotsLen1 msg 0 0
  let csum := (lengths.map fun l => p.wotsW - 1 - l).sum
  let shift := (8 - (p.wotsLen2 * p.wotsLogW) % 8) % 8
  let csum := csum <<< shift
  let csumBytesLen := (p.wotsLen2 * p.wotsLogW + 7) / 8
  lengths ++ baseW p p.wotsLen2 (ByteArrays.beBytes csumBytesLen csum) 0 0

def wotsSign (msg skSeed pubSeed : Node p) (addr : Adrs) : Adrs × List (Node p) :=
  let lengths := chainLengths p msg.toList
  let (addr, sig) := wotsExpandSeed H skSeed pubSeed addr
  wotsChains H pubSeed 0 ((sig.zip lengths).map fun x => (x.1, 0, x.2)) addr

def wotsPkFromSig (sig : List (Node p)) (msg pubSeed : Node p) (addr : Adrs) : Adrs × List (Node p) :=
  let lengths := chainLengths p msg.toList
  wotsChains H pubSeed 0 ((sig.zip lengths).map fun x => (x.1, x.2, p.wotsW - 1)) addr

def randHash (left right pubSeed : Node p) (addr : Adrs) : Adrs × Node p :=
  let addr := addr.setKeyAndMask 0
  let key := H.prf pubSeed addr.toBytes
  let addr := addr.setKeyAndMask 1
  let bm0 := H.prf pubSeed addr.toBytes
  let addr := addr.setKeyAndMask 2
  let bm1 := H.prf pubSeed addr.toBytes
  (addr, H.h key (Node.xor left bm0) (Node.xor right bm1))

/-- One level of the L-tree from index `i` on; a node without a neighbour moves up. -/
def lTreeLevel (pubSeed : Node p) : Nat → List (Node p) → Adrs → Adrs × List (Node p)
  | i, left :: right :: rest, addr =>
    let (addr, node) := randHash H left right pubSeed (addr.setTreeIndex i)
    let (addr, nodes) := lTreeLevel pubSeed (i + 1) rest addr
    (addr, node :: nodes)
  | _, nodes, addr => (addr, nodes)

theorem length_lTreeLevel (pubSeed : Node p) (i : Nat) (xs : List (Node p)) (addr : Adrs) :
    (lTreeLevel H pubSeed i xs addr).2.length = (xs.length + 1) / 2 := by
  fun_induction lTreeLevel H pubSeed i xs addr with
  | case1 i left right rest addr addr' node heq addr'' nodes heq' ih =>
    rw [heq'] at ih
    simp only [List.length_cons] at ih ⊢
    omega
  | case2 i nodes addr hshort =>
    match nodes, hshort with
    | [], _ => simp
    | [x], _ => simp
    | x :: y :: rest, h => exact absurd rfl (h x y rest)

def lTreeLoop (pubSeed : Node p) (height : Nat) (xs : List (Node p)) (addr : Adrs) : Adrs × Node p :=
  if h : 1 < xs.length then
    let level := lTreeLevel H pubSeed 0 xs addr
    lTreeLoop pubSeed (height + 1) level.2 (level.1.setTreeHeight (height + 1))
  else (addr, xs.headD (Vector.replicate p.n 0))
termination_by xs.length
decreasing_by
  rw [length_lTreeLevel]
  omega

def lTree (wotsPk : List (Node p)) (pubSeed : Node p) (addr : Adrs) : Adrs × Node p :=
  lTreeLoop H pubSeed 0 wotsPk (addr.setTreeHeight 0)

/-- The leaf of a key pair, with both addresses. -/
def genLeaf (skSeed pubSeed : Node p) (ltreeAddr otsAddr : Adrs) : Adrs × Adrs × Node p :=
  let (otsAddr, pk) := wotsPkgen H skSeed pubSeed otsAddr
  let (ltreeAddr, leaf) := lTree H pk pubSeed ltreeAddr
  (ltreeAddr, otsAddr, leaf)
end PureCrypto.Xmss
