import PureCrypto.Framework.LittleEndian

/-!
# AEZ

`cipher/aez.rs` over any subkeys and any functions for the four and ten AES rounds: the hash of the
tweak vector, the wide-block core, the Feistel network for short strings, and encryption with an
expansion.  The kernels for several blocks at a time compute what the portable loops compute.
-/
namespace PureCrypto.Cipher
abbrev Block := Vector UInt8 16
namespace Block
def zero : Block := Vector.replicate 16 0

def xor (a b : Block) : Block := Vector.zipWith (· ^^^ ·) a b
def rd (buf : List UInt8) (off : Nat) : Block := Vector.ofFn fun k => buf.getD (off + k) 0
def toNat (b : Block) : Nat := LittleEndian.leNat b.toList.reverse
def ofNat (v : Nat) : Block := rd (LittleEndian.leBytes 16 v).reverse 0

/-- Twice the block in the field: a shift by one bit, reduced on carry-out. -/
def double (p : Block) : Block :=
  let v := p.toNat
  ofNat ((v <<< 1) % 2 ^ 128 ^^^ (if v >>> 127 = 0 then 0 else 0x87))

def multLoop : Nat → Nat → Block → Block → Block
  | 0, _, _, r => r
  | fuel + 1, x, t, r =>
    if x = 0 then r else multLoop fuel (x >>> 1) t.double (if x &&& 1 ≠ 0 then r.xor t else r)

/-- `x` times the block, for a 32-bit `x`. -/
def mult (x : Nat) (src : Block) : Block := multLoop 32 x src zero

/-- The first `sz` bytes of `src`, a one bit and zeros. -/
def oneZeroPad (src : List UInt8) (sz : Nat) : Block := rd (src.take sz ++ [0x80]) 0

def increment (ctr : Block) : Nat → Block
  | 0 => ctr.set 0 (ctr.get 0 + 1) (Nat.zero_lt_succ 15)
  | k + 1 =>
    if h : k + 1 < 16 then
      let ctr' := ctr.set (k + 1) (ctr[k + 1] + 1)
      if ctr'[k + 1] ≠ 0 then ctr' else increment ctr' k
    else ctr
end Block
open Block
/-- The subkeys, and the two functions from AES rounds under them. -/
structure Aez where
  i : Vector Block 2
  j : Vector Block 3
  l : Vector Block 8
  /-- Four rounds, after the three offsets for `J`, `I` and `L`. -/
  aes4 : Block → Block → Block → Block → Block
  /-- Ten rounds, after the offset for `L`. -/
  aes10 : Block → Block → Block
namespace Aez
variable (a : Aez)
/-- The expansion in bits.  Panics if it does not fit in 32 bits. -/
def tauBits (tau : Nat) : Option Nat := if tau * 8 < 2 ^ 32 then some (tau * 8) else none

def hashBlocks (oj : Block) : Nat → Nat → Block → List UInt8 → Block → Block × List UInt8
  | 0, _, _, data, sum => (sum, data)
  | blocks + 1, i, ii, data, sum =>
    let sum := sum.xor (a.aes4 oj ii a.l[i % 8] (rd data 0))
    hashBlocks oj blocks (i + 1) (if i % 8 = 0 then ii.double else ii) (data.drop 16) sum

def hashComponent (oj : Block) (data : List UInt8) (sum : Block) : Block :=
  let (sum, rest) := a.hashBlocks oj (data.length / 16) 1 a.i[1] data sum
  if 0 < rest.length ∨ data.isEmpty then
    sum.xor (a.aes4 oj a.i[0] a.l[0] (oneZeroPad rest rest.length))
  else sum

def aezHash (nonce : List UInt8) (ad : List (List UInt8)) (tauBits : Nat) : Block :=
  let sum := a.aes4 (a.j[0].xor a.j[1]) a.i[1] a.l[1] (ofNat tauBits)
  let sum := a.hashComponent a.j[2] nonce sum
  ad.zipIdx.foldl (fun sum p => a.hashComponent (mult ((5 + p.2) % 2 ^ 32) a.j[0]) p.1 sum) sum

/-- The output blocks for `len` bytes, from a counter on. -/
def prfBlocks (delta : Block) : Nat → Block → List Block
  | 0, _ => []
  | blocks + 1, ctr => a.aes10 a.l[3] (delta.xor ctr) :: prfBlocks delta blocks (ctr.increment 15)

def aezPrf (delta : Block) (len : Nat) : List UInt8 :=
  ((a.prfBlocks delta ((len + 15) / 16) zero).flatMap Vector.toList).take len

/-- Whether `c` is the output, from the bits in which a byte differs. -/
def aezPrfEq (delta : Block) (c : List UInt8) : Bool :=
  let acc := (a.prfBlocks delta ((c.length + 15) / 16) zero).zipIdx.foldl (fun acc b =>
    let n := min (c.length - 16 * b.2) 16
    ((b.1.toList.take n).zip ((c.drop (16 * b.2)).take n)).foldl (fun acc p => acc ||| (p.1 ^^^ p.2)) acc) 0
  acc == 0

/-- The number of pairs of blocks in front of the fragment and the last two blocks. -/
def corePairs (len : Nat) : Nat := if 64 ≤ len then (len - 32) / 32 else 0

def readPairs : Nat → List UInt8 → List (Block × Block)
  | 0, _ => []
  | n + 1, buf => (rd buf 0, rd buf 16) :: readPairs n (buf.drop 32)
def writePairs (pairs : List (Block × Block)) : List UInt8 :=
  pairs.flatMap fun p => p.1.toList ++ p.2.toList

/-- The pairs from number `i` on, with the running multiple of `I`. -/
def corePass1 : Nat → Block → List (Block × Block) → Block → List (Block × Block) × Block
  | _, _, [], x => ([], x)
  | i, ii, (m0, m1) :: rest, x =>
    let o0 := m0.xor (a.aes4 a.j[0] ii a.l[i % 8] m1)
    let o1 := m1.xor (a.aes4 zero a.i[0] a.l[0] o0)
    let (rest, x) := corePass1 (i + 1) (if i % 8 = 0 then ii.double else ii) rest (x.xor o1)
    ((o0, o1) :: rest, x)

def corePass2 (s : Block) : Nat → Block → List (Block × Block) → Block → List (Block × Block) × Block
  | _, _, [], y => ([], y)
  | i, ii, (m0, m1) :: rest, y =>
    let t := a.aes4 a.j[1] ii a.l[i % 8] s
    let o0 := m0.xor t
    let o1 := m1.xor t
    let y := y.xor o0
    let o0 := o0.xor (a.aes4 zero a.i[0] a.l[0] o1)
    let o1 := o1.xor (a.aes4 a.j[0] ii a.l[i % 8] o0)
    let (rest, y) := corePass2 s (i + 1) (if i % 8 = 0 then ii.double else ii) rest y
    ((o1, o0) :: rest, y)

def absorbFragment (x : Block) (frag : List UInt8) : Block :=
  if 16 ≤ frag.length then
    let x := x.xor (a.aes4 zero a.i[1] a.l[4] (rd frag 0))
    x.xor (a.aes4 zero a.i[1] a.l[5] (oneZeroPad (frag.drop 16) (frag.length - 16)))
  else if 0 < frag.length then x.xor (a.aes4 zero a.i[1] a.l[4] (oneZeroPad frag frag.length))
  else x

def xorBytes (x : List UInt8) (t : Block) : List UInt8 := List.zipWith (· ^^^ ·) x t.toList

def mixFragment (s : Block) (frag : List UInt8) : List UInt8 :=
  if 16 ≤ frag.length then
    ((rd frag 0).xor (a.aes10 a.l[4] s)).toList ++ xorBytes (frag.drop 16) (a.aes10 a.l[5] s)
  else if 0 < frag.length then xorBytes frag (a.aes10 a.l[4] s)
  else frag

/-- Encipher (`d = 0`) or decipher (`d = 1`) at least 32 bytes. -/
def aezCore (delta : Block) (buf : List UInt8) (d : Nat) : List UInt8 :=
  let total := buf.length
  let fragBytes := total % 32
  let fpos := total - fragBytes - 32
  let frag := (buf.drop fpos).take fragBytes
  let (pairs, x) := a.corePass1 1 a.i[1] (readPairs (corePairs total) buf) zero
  let x := a.absorbFragment x frag
  let xy := total - 32
  let mx := rd buf xy
  let my := rd buf (xy + 16)
  let sx := ((x.xor mx).xor delta).xor (a.aes4 zero a.i[1] a.l[(1 + d) % 8] my)
  let sy := my.xor (a.aes10 a.l[(1 + d) % 8] sx)
  let s := sx.xor sy
  let (pairs, y) := a.corePass2 s 1 a.i[1] pairs zero
  let frag := a.mixFragment s frag
  let y := a.absorbFragment y frag
  let cx := sx.xor (a.aes10 a.l[(2 - d) % 8] sy)
  let cy := ((sy.xor (a.aes4 zero a.i[1] a.l[(2 - d) % 8] cx)).xor delta).xor y
  writePairs pairs ++ frag ++ cy.toList ++ cx.toList

/-- The index of the subkey and the number of rounds. -/
def tinyParams (inBytes : Nat) : Fin 8 × Nat :=
  if inBytes = 1 then (7, 24)
  else if inBytes = 2 then (7, 16)
  else if inBytes < 16 then (7, 10)
  else (6, 8)

/-- What is kept of the byte in the middle. -/
def tinyMask (inBytes : Nat) : UInt8 := if inBytes % 2 = 1 then 0xf0 else 0x00

def tinyPad (inBytes : Nat) : UInt8 := if inBytes % 2 = 1 then 0x08 else 0x80

/-- For an odd length each byte of the right half takes in the high half of the next. -/
def tinySplit (buf : List UInt8) : Block × Block :=
  let inBytes := buf.length
  let half := (inBytes + 1) / 2
  let l : Block := Vector.ofFn fun k => if k < half then buf.getD k 0 else 0
  let r : Block := Vector.ofFn fun k => if k < half then buf.getD (inBytes / 2 + k) 0 else 0
  if inBytes % 2 = 1 then
    (l, Vector.ofFn fun k =>
      if k.val < inBytes / 2 then (r[k.val] <<< 4) ||| ((r.toList.getD (k + 1) 0) >>> 4)
      else if k.val = inBytes / 2 then r[k.val] <<< 4
      else r[k.val])
  else (l, r)

/-- The bytes of the halves, the right one first. -/
def tinyJoin (inBytes : Nat) (l r : Block) : List UInt8 :=
  let out := r.toList.take (inBytes / 2) ++ l.toList.take ((inBytes + 1) / 2)
  if inBytes % 2 = 1 then
    (List.range inBytes).map fun k =>
      if inBytes / 2 < k then (out.getD k 0 >>> 4) ||| (out.getD (k - 1) 0 <<< 4)
      else if k = inBytes / 2 then (l[0] >>> 4) ||| (r.toList.getD (inBytes / 2) 0 &&& 0xf0)
      else out.getD k 0
  else out

/-- The bit by which the top bit of a string below 16 bytes is corrected. -/
def topBit (delta : Block) (buf : List UInt8) : UInt8 :=
  let b : Block := (rd buf 0).set 0 ((rd buf 0)[0] ||| 0x80)
  (a.aes4 zero a.i[1] a.l[3] (xor b delta))[0] &&& 0x80

/-- The round function on the other half `h`, for round number `j`. -/
def tinyRound (delta : Block) (inBytes : Nat) (j : UInt8) (h : Block) : Block :=
  let half := (inBytes + 1) / 2
  let b : Block := Vector.ofFn fun k => if k < half then h[k] else 0
  let b : Block := Vector.ofFn fun k =>
    if k.val = inBytes / 2 then (b[k] &&& tinyMask inBytes) ||| tinyPad inBytes else b[k]
  let b := b.xor delta
  a.aes4 zero a.i[1] a.l[(tinyParams inBytes).1] (b.set 15 (b[15] ^^^ j))

/-- Two rounds at a time, with the round number going up or down. -/
def tinyRounds (delta : Block) (inBytes : Nat) (up : Bool) : Nat → Nat → Block × Block → Block × Block
  | 0, _, s => s
  | n + 1, j, (l, r) =>
    let j' := if up then j + 1 else j - 1
    let l := l.xor (a.tinyRound delta inBytes (UInt8.ofNat j) r)
    let r := r.xor (a.tinyRound delta inBytes (UInt8.ofNat j') l)
    tinyRounds delta inBytes up n (if up then j + 2 else j - 2) (l, r)

/-- Encipher (`d = 0`) or decipher (`d = 1`) up to 31 bytes. -/
def aezTiny (delta : Block) (buf : List UInt8) (d : Nat) : List UInt8 :=
  let inBytes := buf.length
  let rounds := (tinyParams inBytes).2
  let (l, r) := tinySplit buf
  if d ≠ 0 then
    let l := if inBytes < 16 then l.set 0 (l[0] ^^^ a.topBit delta buf) else l
    let (l, r) := a.tinyRounds delta inBytes false (rounds / 2) (rounds - 1) (l, r)
    tinyJoin inBytes l r
  else
    let (l, r) := a.tinyRounds delta inBytes true (rounds / 2) 0 (l, r)
    let buf := tinyJoin inBytes l r
    if inBytes < 16 then buf.set 0 (buf.getD 0 0 ^^^ a.topBit delta buf) else buf

def encipher (delta : Block) (buf : List UInt8) : List UInt8 :=
  if buf.isEmpty then buf
  else if buf.length < 32 then a.aezTiny delta buf 0
  else a.aezCore delta buf 0

def decipher (delta : Block) (buf : List UInt8) : List UInt8 :=
  if buf.isEmpty then buf
  else if buf.length < 32 then a.aezTiny delta buf 1
  else a.aezCore delta buf 1

inductive TagMismatch
  | tagMismatch
deriving DecidableEq

/-- No result means that `tau` is too large. -/
def encrypt (nonce : List UInt8) (ad : List (List UInt8)) (tau : Nat) (m : List UInt8) :
    Option (List UInt8) := do
  let tauBits ← tauBits tau
  let delta := a.aezHash nonce ad tauBits
  return if m.isEmpty then a.aezPrf delta tau else a.encipher delta (m ++ List.replicate tau 0)

/-- The verdict comes before any panic when `c` is too short. -/
def decrypt (nonce : List UInt8) (ad : List (List UInt8)) (tau : Nat) (c : List UInt8) :
    Option (Except TagMismatch (List UInt8)) :=
  if c.length < tau then some (.error .tagMismatch)
  else do
    let tauBits ← tauBits tau
    let delta := a.aezHash nonce ad tauBits
    if c.length = tau then
      return if a.aezPrfEq delta c then .ok [] else .error .tagMismatch
    else
      let buf := a.decipher delta c
      let mLen := c.length - tau
      let acc := (buf.drop mLen).foldl (· ||| ·) 0
      return if acc == 0 then .ok (buf.take mLen) else .error .tagMismatch
end Aez
end PureCrypto.Cipher
