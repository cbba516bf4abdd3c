import PureCrypto.Bignum.Mul

/-!
# The Montgomery kernels

`mont_mul_kernel` and `mont_sqr_kernel` of `bignum/montgomery.rs`, over lists of limbs.  Both take two rows
of the product at a time, with one carry for each of the four sums that run through a column.
-/
namespace PureCrypto.Bignum
def sum3 (a b c : Limb) : Limb × Limb := adc a b c

/-- Newton's iteration for `n⁻¹` modulo `2 ^ 64`. -/
def invMod264 (n : Limb) : Limb := (List.range 6).foldl (fun x _ => x * (2#64 - n * x)) 1#64

/-- `t` with the limb `ts` above it, less `n` unless that borrows. -/
def montFinalSub (n t : List Limb) (ts : Limb) : List Limb :=
  let (diff, bo) := sbbLimbs t n 0#64
  let borrow := (sbb ts 0#64 bo).2
  let mask := -(borrow ^^^ 1#64)
  List.zipWith (fun t d => t ^^^ (mask &&& (d ^^^ t))) t diff

/-- The columns of one row from the second on: what is left of `t + a * b + m * n`. -/
def rowLoop (b m : Limb) : Limb → Limb → List Limb → List Limb → List Limb → List Limb × Limb × Limb
  | c1, c2, t :: ts, a :: as, n :: ns =>
    let (s, c1) := mac t a b c1
    let (s2, c2) := mac s m n c2
    let (out, c1, c2) := rowLoop b m c1 c2 ts as ns
    (s2 :: out, c1, c2)
  | c1, c2, _, _, _ => ([], c1, c2)

def singleRow (n : List Limb) (np : Limb) (a : List Limb) (b : Limb) (acc : List Limb × Limb) : List Limb × Limb :=
  match acc.1, a, n with
  | t0 :: t, a0 :: a, n0 :: n =>
    let (s0, c1) := mac t0 a0 b 0#64
    let m := s0 * np
    let c2 := (mac s0 m n0 0#64).2
    let (out, c1, c2) := rowLoop b m c1 c2 t a n
    let (top, ts) := sum3 acc.2 c1 c2
    (out ++ [top], ts)
  | _, _, _ => acc

/-- The carries of two rows, and the limbs of `a` and `n` one column behind. -/
structure PairCarry where
  c1 : Limb
  c2 : Limb
  d1 : Limb
  d2 : Limb
  a : Limb
  n : Limb

/-- The columns of two rows from the third on. -/
def pairLoop (b0 b1 m0 m1 : Limb) : PairCarry → List Limb → List Limb → List Limb → List Limb × PairCarry
  | k, t :: ts, a :: as, n :: ns =>
    let (s, c1) := mac t a b0 k.c1
    let (tp, c2) := mac s m0 n k.c2
    let (u, d1) := mac tp k.a b1 k.d1
    let (u2, d2) := mac u m1 k.n k.d2
    let (out, k) := pairLoop b0 b1 m0 m1 ⟨c1, c2, d1, d2, a, n⟩ ts as ns
    (u2 :: out, k)
  | k, _, _, _ => ([], k)

/-- Two rows in one pass, the second one column behind the first. -/
def pairRow (n : List Limb) (np : Limb) (a : List Limb) (b0 b1 : Limb) (acc : List Limb × Limb) : List Limb × Limb :=
  match acc.1, a, n with
  | t0 :: t1 :: t, a0 :: a1 :: a, n0 :: n1 :: n =>
    let (s0, c1) := mac t0 a0 b0 0#64
    let m0 := s0 * np
    let c2 := (mac s0 m0 n0 0#64).2
    let (s, c1) := mac t1 a1 b0 c1
    let (tp0, c2) := mac s m0 n1 c2
    let (u0, d1) := mac tp0 a0 b1 0#64
    let m1 := u0 * np
    let d2 := (mac u0 m1 n0 0#64).2
    let (out, k) := pairLoop b0 b1 m0 m1 ⟨c1, c2, d1, d2, a1, n1⟩ t a n
    let (tpl1, tpl) := sum3 acc.2 k.c1 k.c2
    let (u, d1) := mac tpl1 k.a b1 k.d1
    let (u2, d2) := mac u m1 k.n k.d2
    let (top, ts) := sum3 tpl d1 d2
    (out ++ [u2, top], ts)
  | _, _, _ => acc

def mulRows (n : List Limb) (np : Limb) (a : List Limb) : List Limb → List Limb × Limb → List Limb × Limb
  | b0 :: b1 :: b, acc => mulRows n np a b (pairRow n np a b0 b1 acc)
  | [b], acc => singleRow n np a b acc
  | [], acc => acc

def montMulKernel (n : List Limb) (np : Limb) (a b : List Limb) : List Limb :=
  let l := n.length
  let (t, ts) := mulRows n np (a.take l) (b.take l) (List.replicate l 0#64, 0#64)
  montFinalSub n t ts

/-- Column `i + j` of the rows `i` and `i + 1` of the triangle. -/
def triangleStep (a : List Limb) (i : Nat) (acc : List Limb × Limb × Limb) (j : Nat) : List Limb × Limb × Limb :=
  let (p, c0, c1) := acc
  let (s, c0) := mac (limbAt p (i + j)) (limbAt a i) (limbAt a j) c0
  let (s2, c1) := mac s (limbAt a (i + 1)) (limbAt a (j - 1)) c1
  (p.set (i + j) s2, c0, c1)

/-- The rows `i` and `i + 1` of the products `a[i] * a[j]` with `i < j`. -/
def trianglePair (a : List Limb) (p : List Limb) (i : Nat) : List Limb :=
  let l := a.length
  let (s, c0) := mac (limbAt p (2 * i + 1)) (limbAt a i) (limbAt a (i + 1)) 0#64
  let p := p.set (2 * i + 1) s
  if i + 2 < l then
    let (s, c0) := mac (limbAt p (2 * i + 2)) (limbAt a i) (limbAt a (i + 2)) c0
    let p := p.set (2 * i + 2) s
    let (p, c0, c1) := (List.range' (i + 3) (l - (i + 3))).foldl (triangleStep a i) (p, c0, 0#64)
    let (s2, cc1) := mac c0 (limbAt a (i + 1)) (limbAt a (l - 1)) c1
    (p.set (i + l) s2).set (i + l + 1) cc1
  else p.set (i + l) c0

/-- Two rows at a time; an odd width leaves a row without products. -/
def triangle (a : List Limb) (p : List Limb) : List Limb :=
  (List.range (a.length / 2)).foldl (fun p k => trianglePair a p (2 * k)) p

def diagonalLoop : Limb → List Limb → List Limb → List Limb
  | carry, p0 :: p1 :: p, a :: as =>
    let (s, c) := mac p0 a a carry
    let (s', c2) := adc p1 c 0#64
    s :: s' :: diagonalLoop c2 p as
  | _, p, _ => p

/-- The columns of two rows of the reduction from the third on. -/
def reduceLoop (m0 m1 : Limb) : Limb → Limb → Limb → List Limb → List Limb → List Limb × Limb × Limb × Limb
  | c0, c1, nPrev, p :: ps, n :: ns =>
    let (s, c0) := mac p m0 n c0
    let (s2, c1) := mac s m1 nPrev c1
    let (out, c0, c1, nLast) := reduceLoop m0 m1 c0 c1 n ps ns
    (s2 :: out, c0, c1, nLast)
  | c0, c1, nPrev, _, _ => ([], c0, c1, nPrev)

/-- Two rows of the reduction from limb `i` on; what is left starts two limbs later. -/
def reducePair (n : List Limb) (np : Limb) (acc : List Limb × Limb) : List Limb × Limb :=
  match acc.1, n with
  | p0 :: p1 :: p, n0 :: n1 :: ns =>
    let m0 := p0 * np
    let c0 := (mac p0 m0 n0 0#64).2
    let (s, c0) := mac p1 m0 n1 c0
    let m1 := s * np
    let c1 := (mac s m1 n0 0#64).2
    let (out, c0, c1, nLast) := reduceLoop m0 m1 c0 c1 n1 p ns
    let (s, sHigh) := sum3 (limbAt p ns.length) c0 acc.2
    let (s2, cc1) := mac s m1 nLast c1
    let (s3, hi) := sum3 (limbAt p (ns.length + 1)) cc1 sHigh
    (out ++ s2 :: s3 :: p.drop (ns.length + 2), hi)
  | _, _ => acc

def reduceSingle (n : List Limb) (np : Limb) (acc : List Limb × Limb) : List Limb × Limb :=
  match acc.1 with
  | p0 :: p =>
    let m := p0 * np
    let (out, carry) := addMulLoop m 0#64 (p0 :: p) n
    let (s, hi) := adc (limbAt (p0 :: p) n.length) carry acc.2
    (out.tail ++ s :: (p0 :: p).drop (n.length + 1), hi)
  | [] => acc

def reduceRows (n : List Limb) (np : Limb) : Nat → List Limb × Limb → List Limb × Limb
  | rows + 2, acc => reduceRows n np rows (reducePair n np acc)
  | 1, acc => reduceSingle n np acc
  | 0, acc => acc

def montSqrKernel (n : List Limb) (np : Limb) (a : List Limb) : List Limb :=
  let l := n.length
  let a := a.take l
  let p := triangle a (List.replicate (2 * l) 0#64)
  let p := (shiftIn p 0#64).1
  let p := diagonalLoop 0#64 p a
  let (t, hi) := reduceRows n np l (p, 0#64)
  montFinalSub n t hi
end PureCrypto.Bignum
