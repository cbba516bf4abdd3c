import PureCrypto.Bignum.MontgomeryProduct

/-! # The Montgomery square -/
namespace PureCrypto.Bignum
open Limbs List
open BitVec (toNat_ofNat)
open Nat (cast_zero zero_mod)
theorem value_set (p : List Limb) {k : Nat} (hk : k < p.length) (x : Limb) :
    (value (p.set k x) : ℤ) = value p + (2 ^ 64) ^ k * (x.toNat - (limbAt p k).toNat) := by
  induction p generalizing k with
  | nil => simp at hk
  | cons y p ih =>
    cases k with
    | zero =>
      simp only [set_cons_zero,value_cons,limbAt,getD_cons_zero]
      push_cast
      ring
    | succ k =>
      have h := ih (Nat.lt_of_succ_lt_succ hk)
      simp only [set_cons_succ,value_cons,limbAt,getD_cons_succ] at h ⊢
      push_cast
      linear_combination 2 ^ 64 * h

theorem limbAt_set_of_ne (p : List Limb) {j k : Nat} (hne : j ≠ k) (x : Limb) : limbAt (p.set k x) j = limbAt p j := by
  simp [limbAt,getD_eq_getElem?_getD,getElem?_set_ne (Ne.symm hne)]

/-- The number of the limbs of `a` from `j` on. -/
def tailValue (a : List Limb) (j : Nat) : ℤ := value (a.drop j)

theorem tailValue_eq {a : List Limb} {j : Nat} (hj : j < a.length) :
    tailValue a j = (limbAt a j).toNat + 2 ^ 64 * tailValue a (j + 1) := by
  rw [tailValue,drop_eq_getElem_cons hj,value_cons]
  simp [tailValue,limbAt,hj]

theorem tailValue_of_length_le {a : List Limb} {j : Nat} (hj : a.length ≤ j) : tailValue a j = 0 := by
  simp [tailValue,drop_eq_nil_of_le hj]
section Triangle
variable {a p : List Limb} {i : Nat}
/-- What a pass over rows `i` and `i + 1` has reached at column `i + j`. -/
def rowPotential (a : List Limb) (i : Nat) (acc : List Limb × Limb × Limb) (j : Nat) : ℤ :=
  value acc.1 + (2 ^ 64) ^ (i + j) * (acc.2.1.toNat + acc.2.2.toNat + (limbAt a i).toNat * tailValue a j +
    (limbAt a (i + 1)).toNat * tailValue a (j - 1))

def ClearFrom (p : List Limb) (k : Nat) : Prop := ∀ j, k ≤ j → limbAt p j = 0#64

theorem ClearFrom.set {k j : Nat} (h : ClearFrom p k) (hj : j < k) (x : Limb) : ClearFrom (p.set j x) k := by
  intro m hm
  rw [limbAt_set_of_ne p (by omega)]
  exact h m hm

theorem rowPotential_triangleStep {acc : List Limb × Limb × Limb} {j : Nat} (hj : 0 < j) (hja : j < a.length)
    (hp : i + j < acc.1.length) : rowPotential a i (triangleStep a i acc j) (j + 1) = rowPotential a i acc j := by
  obtain ⟨p,c0,c1⟩ := acc
  rcases hs : mac (limbAt p (i + j)) (limbAt a i) (limbAt a j) c0 with ⟨s,c0'⟩
  rcases hs2 : mac s (limbAt a (i + 1)) (limbAt a (j - 1)) c1 with ⟨s2,c1'⟩
  have htail := tailValue_eq hja
  have htail' := @tailValue_eq a (j - 1) (by omega)
  rw [Nat.sub_add_cancel hj] at htail'
  simp only [rowPotential,triangleStep,hs,hs2,value_set p hp,Nat.add_sub_cancel]
  rw [htail']
  linear_combination (2 ^ 64) ^ (i + j) * (mac_eq hs + mac_eq hs2) -
    (2 ^ 64) ^ (i + j) * (limbAt a i).toNat * htail

theorem triangleSteps_spec (k j : Nat) {acc : List Limb × Limb × Limb} (hj : 0 < j) (hjk : j + k ≤ a.length)
    (hp : i + a.length ≤ acc.1.length) (hclear : ClearFrom acc.1 (i + a.length)) :
    let acc' := (List.range' j k).foldl (triangleStep a i) acc
    acc'.1.length = acc.1.length ∧ ClearFrom acc'.1 (i + a.length) ∧
      rowPotential a i acc' (j + k) = rowPotential a i acc j := by
  induction k generalizing j acc with
  | zero => exact ⟨rfl,hclear,rfl⟩
  | succ k ih =>
    have hlen : (triangleStep a i acc j).1.length = acc.1.length := by simp [triangleStep]
    obtain ⟨hlen',hclear',hvalue⟩ := ih (j + 1) (Nat.succ_pos j) (by omega) (by rw [hlen]; exact hp)
      (hclear.set (show i + j < i + a.length by omega) _)
    rw [range'_succ,foldl_cons]
    refine ⟨hlen'.trans hlen,hclear',?_⟩
    rw [show j + (k + 1) = j + 1 + k by omega,hvalue]
    exact rowPotential_triangleStep hj (by omega) (by omega)

/-- The last product of row `i + 1` lands on the carry of row `i`. -/
theorem trianglePair_top {acc : List Limb × Limb × Limb} (ha : 0 < a.length) (hp : i + a.length + 1 < acc.1.length)
    (hclear : ClearFrom acc.1 (i + a.length)) {v cc1 : Limb}
    (hv : mac acc.2.1 (limbAt a (i + 1)) (limbAt a (a.length - 1)) acc.2.2 = (v, cc1)) :
    ((acc.1.set (i + a.length) v).set (i + a.length + 1) cc1).length = acc.1.length ∧
      ClearFrom ((acc.1.set (i + a.length) v).set (i + a.length + 1) cc1) (i + 2 + a.length) ∧
      (value ((acc.1.set (i + a.length) v).set (i + a.length + 1) cc1) : ℤ) = rowPotential a i acc a.length := by
  refine ⟨by simp,?_,?_⟩
  · intro m hm
    rw [limbAt_set_of_ne _ (by omega),limbAt_set_of_ne _ (by omega)]
    exact hclear m (by omega)
  · have hlast := @tailValue_eq a (a.length - 1) (by omega)
    rw [Nat.sub_add_cancel ha] at hlast
    rw [value_set _ (by simpa using hp),value_set _ (by omega),limbAt_set_of_ne _ (by omega),hclear _ (by omega),
      hclear _ (by omega),rowPotential,hlast,tailValue_of_length_le (le_refl _)]
    simp only [toNat_ofNat,zero_mod,cast_zero]
    linear_combination (2 ^ 64) ^ (i + a.length) * mac_eq hv

/-- A pass adds the products of limb `i` and of limb `i + 1` with the limbs above them. -/
theorem trianglePair_spec (hi : i + 1 < a.length) (hp : p.length = 2 * a.length) (hclear : ClearFrom p (i + a.length)) :
    (trianglePair a p i).length = p.length ∧ ClearFrom (trianglePair a p i) (i + 2 + a.length) ∧
      (value (trianglePair a p i) : ℤ) = value p + (2 ^ 64) ^ (2 * i + 1) * (limbAt a i).toNat * tailValue a (i + 1) +
        (2 ^ 64) ^ (2 * i + 3) * (limbAt a (i + 1)).toNat * tailValue a (i + 2) := by
  rcases hs : mac (limbAt p (2 * i + 1)) (limbAt a i) (limbAt a (i + 1)) 0#64 with ⟨s,c0⟩
  have hs' := mac_eq hs
  have hset := value_set p (k := 2 * i + 1) (by omega) s
  have htail1 := tailValue_eq hi
  have hclear1 := hclear.set (show 2 * i + 1 < i + a.length by omega) s
  by_cases hmore : i + 2 < a.length
  · rcases hu : mac (limbAt (p.set (2 * i + 1) s) (2 * i + 2)) (limbAt a i) (limbAt a (i + 2)) c0 with ⟨u,c0'⟩
    have hu' := mac_eq hu
    have hset' := value_set (p.set (2 * i + 1) s) (k := 2 * i + 2) (by simp; omega) u
    have htail2 := tailValue_eq hmore
    obtain ⟨hlen,hclear',hvalue⟩ := @triangleSteps_spec a i (a.length - (i + 3)) (i + 3)
      ((p.set (2 * i + 1) s).set (2 * i + 2) u, c0', 0#64) (by omega) (by omega) (by simp; omega)
      (hclear1.set (show 2 * i + 2 < i + a.length by omega) u)
    rcases hloop : (List.range' (i + 3) (a.length - (i + 3))).foldl (triangleStep a i)
        ((p.set (2 * i + 1) s).set (2 * i + 2) u, c0', 0#64) with ⟨q,d0,d1⟩
    rw [hloop] at hlen hclear' hvalue
    have hqlen : q.length = p.length := by simpa using hlen
    rcases hv : mac d0 (limbAt a (i + 1)) (limbAt a (a.length - 1)) d1 with ⟨v,cc1⟩
    obtain ⟨htop,hclearTop,hvalueTop⟩ := @trianglePair_top a i (q, d0, d1) (by omega) (by dsimp only; omega) hclear' v cc1 hv
    have heq : trianglePair a p i = (q.set (i + a.length) v).set (i + a.length + 1) cc1 := by
      simp only [trianglePair,hs,if_pos hmore,hu,hloop,hv]
    rw [heq]
    refine ⟨htop.trans hqlen,hclearTop,hvalueTop.trans ?_⟩
    rw [show i + 3 + (a.length - (i + 3)) = a.length by omega] at hvalue
    rw [hvalue,rowPotential]
    simp only [toNat_ofNat,zero_mod,cast_zero,show i + 3 - 1 = i + 2 by omega,
      show i + (i + 3) = 2 * i + 3 by omega,show i + 1 + 1 = i + 2 by omega,show i + 2 + 1 = i + 3 by omega]
      at hs' htail1 htail2 ⊢
    linear_combination hset' + hset + (2 ^ 64) ^ (2 * i + 1) * hs' + (2 ^ 64) ^ (2 * i + 2) * hu' -
      (2 ^ 64) ^ (2 * i + 1) * (limbAt a i).toNat * (htail1 + 2 ^ 64 * htail2)
  · have heq : trianglePair a p i = (p.set (2 * i + 1) s).set (i + a.length) c0 := by
      simp only [trianglePair,hs,if_neg hmore]
    have hset' := value_set (p.set (2 * i + 1) s) (k := i + a.length) (by simp; omega) c0
    rw [hclear1 _ (le_refl _),show i + a.length = 2 * i + 2 by omega] at hset'
    rw [heq]
    refine ⟨by simp,?_,?_⟩
    · intro m hm
      rw [limbAt_set_of_ne _ (by omega)]
      exact hclear1 m (by omega)
    · rw [tailValue_of_length_le (show a.length ≤ i + 1 + 1 by omega)] at htail1
      rw [show i + a.length = 2 * i + 2 by omega,tailValue_of_length_le (show a.length ≤ i + 2 by omega)]
      simp only [toNat_ofNat,zero_mod,cast_zero] at hs' hset' ⊢
      linear_combination hset' + hset + (2 ^ 64) ^ (2 * i + 1) * hs' -
        (2 ^ 64) ^ (2 * i + 1) * (limbAt a i).toNat * htail1

def squares : List Limb → ℤ
  | [] => 0
  | x :: a => x.toNat ^ 2 + (2 ^ 64) ^ 2 * squares a

/-- Twice the products of two different limbs. -/
def crossTerms (a : List Limb) : ℤ := (value a : ℤ) ^ 2 - squares a

theorem crossTerms_drop {j : Nat} (hj : j < a.length) :
    crossTerms (a.drop j) = 2 * 2 ^ 64 * (limbAt a j).toNat * tailValue a (j + 1) +
      (2 ^ 64) ^ 2 * crossTerms (a.drop (j + 1)) := by
  have hget : limbAt a j = a[j] := by simp [limbAt,hj]
  rw [drop_eq_getElem_cons hj,crossTerms,crossTerms,squares,value_cons,hget,tailValue]
  push_cast
  ring

theorem triangle_spec (hp : p.length = 2 * a.length) (hclear : ClearFrom p 0) (hzero : value p = 0) :
    (triangle a p).length = p.length ∧ (2 : ℤ) * value (triangle a p) = crossTerms a := by
  have hrun : ∀ k ≤ a.length / 2,
      let q := (List.range k).foldl (fun p k => trianglePair a p (2 * k)) p
      q.length = p.length ∧ ClearFrom q (2 * k + a.length) ∧
        2 * value q + (2 ^ 64) ^ (4 * k) * crossTerms (a.drop (2 * k)) = crossTerms a := by
    intro k hk
    induction k with
    | zero => exact ⟨rfl,fun j _ => hclear j (Nat.zero_le j),by simp [hzero]⟩
    | succ k ih =>
      obtain ⟨hlen,hclear',hvalue⟩ := ih (by omega)
      obtain ⟨hlen',hclear'',hvalue'⟩ := trianglePair_spec (show 2 * k + 1 < a.length by omega) (hlen.trans hp) hclear'
      rw [List.range_succ,foldl_append,foldl_cons,foldl_nil]
      refine ⟨hlen'.trans hlen,hclear'',?_⟩
      rw [crossTerms_drop (show 2 * k < a.length by omega),crossTerms_drop (show 2 * k + 1 < a.length by omega)] at hvalue
      simp only [show 2 * (k + 1) = 2 * k + 1 + 1 by omega,show 2 * (2 * k) = 4 * k by omega] at hvalue' ⊢
      rw [hvalue',← hvalue]
      ring
  obtain ⟨hlen,-,hvalue⟩ := hrun (a.length / 2) (le_refl _)
  refine ⟨hlen,?_⟩
  have hrest : crossTerms (a.drop (2 * (a.length / 2))) = 0 := by
    by_cases heven : 2 * (a.length / 2) = a.length
    · simp [heven,crossTerms,squares]
    · obtain ⟨x,hx⟩ := length_eq_one_iff.mp (show (a.drop (2 * (a.length / 2))).length = 1 by simp; omega)
      simp [hx,crossTerms,squares]
  rw [hrest] at hvalue
  simpa [triangle] using hvalue
end Triangle
theorem diagonalLoop_spec {carry : Limb} {p a : List Limb} (hp : p.length = 2 * a.length) :
    (diagonalLoop carry p a).length = p.length ∧
      ∃ c : Nat, (value (diagonalLoop carry p a) : ℤ) + (2 ^ 64) ^ (2 * a.length) * c = value p + squares a + carry.toNat := by
  induction a generalizing carry p with
  | nil =>
    obtain rfl := length_eq_zero_iff.mp hp
    exact ⟨rfl,carry.toNat,by simp [diagonalLoop,squares]⟩
  | cons x a ih =>
    obtain ⟨p0,p',rfl⟩ := exists_cons_of_length_pos (show 0 < p.length by simp [hp])
    obtain ⟨p1,p,rfl⟩ := exists_cons_of_length_pos (show 0 < p'.length by simp at hp; omega)
    rcases hs : mac p0 x x carry with ⟨s,c⟩
    rcases hs' : sum3 p1 c 0#64 with ⟨s',c2⟩
    obtain ⟨hlen,d,hvalue⟩ := @ih c2 p (by simp at hp; omega)
    have heq : diagonalLoop carry (p0 :: p1 :: p) (x :: a) = s :: s' :: diagonalLoop c2 p a := by
      rw [sum3] at hs'
      simp only [diagonalLoop,hs,hs']
    rw [heq]
    refine ⟨by simp [hlen],d,?_⟩
    have hsum := sum3_eq hs'
    push_cast [value_cons,squares,length_cons,toNat_ofNat,zero_mod,cast_zero] at hsum ⊢
    linear_combination mac_eq hs + 2 ^ 64 * hsum + (2 ^ 64) ^ 2 * hvalue
section Reduce
variable {n : List Limb} {np : Limb}
theorem limbAt_append {r rest : List Limb} {x : Limb} : limbAt (r ++ x :: rest) r.length = x := by
  simp [limbAt]

theorem reduceLoop_spec {m0 m1 c0 c1 nPrev c0' c1' nLast : Limb} {p rest out : List Limb} (hp : p.length = n.length)
    (h : reduceLoop m0 m1 c0 c1 nPrev (p ++ rest) n = (out, c0', c1', nLast)) : out.length = p.length ∧
      (value out : ℤ) + (2 ^ 64) ^ p.length * (c0'.toNat + c1'.toNat + m1.toNat * nLast.toNat) =
        value p + m0.toNat * value n + m1.toNat * value (nPrev :: n) + c0.toNat + c1.toNat := by
  induction p generalizing n c0 c1 nPrev out with
  | nil =>
    obtain rfl := length_eq_zero_iff.mp hp.symm
    obtain ⟨rfl,rfl,rfl,rfl⟩ : out = [] ∧ c0' = c0 ∧ c1' = c1 ∧ nLast = nPrev := by
      cases rest <;> simpa [reduceLoop,eq_comm] using h
    refine ⟨rfl,?_⟩
    simp only [value_nil,value_cons,length_nil,mul_zero,add_zero]
    ring
  | cons x p ih =>
    obtain ⟨n0,n,rfl⟩ := exists_cons_of_length_pos (show 0 < n.length by simp [← hp])
    rw [cons_append,reduceLoop] at h
    rcases hs : mac x m0 n0 c0 with ⟨s,d0⟩
    rcases hs2 : mac s m1 nPrev c1 with ⟨s2,d1⟩
    rcases hrest : reduceLoop m0 m1 d0 d1 n0 (p ++ rest) n with ⟨tail,e0,e1,last⟩
    simp only [hs,hs2,hrest,Prod.mk.injEq] at h
    obtain ⟨rfl,rfl,rfl,rfl⟩ := h
    obtain ⟨hlen,hvalue⟩ := ih (Nat.succ.inj hp) hrest
    refine ⟨by simp [hlen],?_⟩
    push_cast [value_cons,length_cons] at hvalue ⊢
    linear_combination 2 ^ 64 * hvalue + mac_eq hs + mac_eq hs2

/-- The product from some limb on, with the carry that rides above its `l` low limbs. -/
def ridingValue (l : Nat) (acc : List Limb × Limb) : ℤ := value acc.1 + (2 ^ 64) ^ l * acc.2.toNat
variable (hnp : limbAt n 0 * np = -1)
include hnp
theorem reducePair_spec (hl : 2 ≤ n.length) {acc : List Limb × Limb}
    (hp : n.length + 2 ≤ acc.1.length) : (reducePair n np acc).1.length + 2 = acc.1.length ∧
      ∃ m0 m1 : Limb, 2 ^ 64 * 2 ^ 64 * ridingValue n.length (reducePair n np acc) =
        ridingValue n.length acc + (m0.toNat + 2 ^ 64 * m1.toNat) * value n := by
  obtain ⟨p,hi⟩ := acc
  dsimp only at hp
  obtain ⟨n0,n',rfl⟩ := exists_cons_of_length_pos (show 0 < n.length by omega)
  obtain ⟨n1,n,rfl⟩ := exists_cons_of_length_pos (show 0 < n'.length by simp at hl; omega)
  obtain ⟨p0,p',rfl⟩ := exists_cons_of_length_pos (show 0 < p.length by omega)
  obtain ⟨p1,p,rfl⟩ := exists_cons_of_length_pos (show 0 < p'.length by simp at hp; omega)
  -- the columns of the loop, the two at its top, and those that the rows do not reach
  obtain ⟨r,x,y,rest,rfl,hr⟩ : ∃ r x y rest, p = r ++ x :: y :: rest ∧ r.length = n.length := by
    simp only [length_cons] at hp
    refine ⟨p.take n.length,p[n.length],p[n.length + 1],p.drop (n.length + 2),?_,by simp; omega⟩
    rw [getElem_cons_drop,getElem_cons_drop,take_append_drop]
  have hclear0 := @mac_clears_eq n0 np p0 hnp
  generalize hc0 : (mac p0 (p0 * np) n0 0#64).2 = c0 at hclear0
  rcases hs : mac p1 (p0 * np) n1 c0 with ⟨s,c0'⟩
  have hclear1 := @mac_clears_eq n0 np s hnp
  generalize hc1 : (mac s (s * np) n0 0#64).2 = c1 at hclear1
  rcases hloop : reduceLoop (p0 * np) (s * np) c0' c1 n1 (r ++ x :: y :: rest) n with ⟨out,d0,d1,nLast⟩
  rcases hsum : sum3 x d0 hi with ⟨u,uHigh⟩
  rcases hu2 : mac u (s * np) nLast d1 with ⟨s2,cc1⟩
  rcases htop : sum3 y cc1 uHigh with ⟨s3,hi'⟩
  have hx : limbAt (r ++ x :: y :: rest) n.length = x := by rw [← hr,limbAt_append]
  have hy : limbAt (r ++ x :: y :: rest) (n.length + 1) = y := by
    rw [← hr,show r ++ x :: y :: rest = (r ++ [x]) ++ y :: rest by simp,
      show r.length + 1 = (r ++ [x]).length by simp,limbAt_append]
  have hdrop : (r ++ x :: y :: rest).drop (n.length + 2) = rest := by
    rw [← hr]
    simp
  obtain ⟨hlen,hvalue⟩ := reduceLoop_spec hr hloop
  simp only [reducePair,hc0,hs,hc1,hloop,hx,hsum,hu2,hy,htop,hdrop]
  refine ⟨by simp [hlen],p0 * np,s * np,?_⟩
  push_cast [ridingValue,value_append,value_cons,length_cons,hlen,hr] at hvalue ⊢
  linear_combination hclear0 + 2 ^ 64 * (mac_eq hs + hclear1) + 2 ^ 64 * 2 ^ 64 * hvalue +
    2 ^ 64 * 2 ^ 64 * (2 ^ 64) ^ n.length * (sum3_eq hsum + mac_eq hu2 + 2 ^ 64 * sum3_eq htop)

theorem reduceSingle_spec (hl : n ≠ []) {acc : List Limb × Limb}
    (hp : n.length + 1 ≤ acc.1.length) : (reduceSingle n np acc).1.length + 1 = acc.1.length ∧
      ∃ m : Limb, 2 ^ 64 * ridingValue n.length (reduceSingle n np acc) =
        ridingValue n.length acc + m.toNat * value n := by
  obtain ⟨p,hi⟩ := acc
  dsimp only at hp
  obtain ⟨n0,n,rfl⟩ := exists_cons_of_ne_nil hl
  obtain ⟨p0,p,rfl⟩ := exists_cons_of_length_pos (show 0 < p.length by omega)
  obtain ⟨r,x,rest,rfl,hr⟩ : ∃ r x rest, p = r ++ x :: rest ∧ r.length = n.length := by
    simp only [length_cons] at hp
    refine ⟨p.take n.length,p[n.length],p.drop (n.length + 1),?_,by simp; omega⟩
    rw [getElem_cons_drop,take_append_drop]
  have hclear := @mac_clears_eq n0 np p0 hnp
  generalize hc0 : (mac p0 (p0 * np) n0 0#64).2 = c0 at hclear
  rcases hloop : addMulLoop (p0 * np) c0 (r ++ x :: rest) n with ⟨out,carry⟩
  rcases htop : sum3 x carry hi with ⟨s,hi'⟩
  have hx : limbAt (p0 :: (r ++ x :: rest)) (n.length + 1) = x := by
    rw [← hr]
    exact limbAt_append
  have hdrop : (p0 :: (r ++ x :: rest)).drop (n.length + 1 + 1) = rest := by
    rw [← hr]
    simp
  obtain ⟨hlen,hvalue⟩ := addMulLoop_spec hr hloop
  have heq : reduceSingle (n0 :: n) np (p0 :: (r ++ x :: rest), hi) = (out ++ s :: rest, hi') := by
    rw [sum3] at htop
    simp only [reduceSingle,addMulLoop,hc0,hloop,length_cons,hx,htop,hdrop,tail_cons]
  rw [heq]
  refine ⟨by simp [hlen],p0 * np,?_⟩
  push_cast [ridingValue,value_append,value_cons,length_cons,hlen,hr] at hvalue ⊢
  linear_combination hclear + 2 ^ 64 * hvalue + 2 ^ 64 * (2 ^ 64) ^ n.length * sum3_eq htop

theorem reduceRows_spec {rows : Nat} {acc : List Limb × Limb} (hrows : rows ≤ n.length)
    (hp : acc.1.length = n.length + rows) : (reduceRows n np rows acc).1.length = n.length ∧
      ∃ m : Nat, m < (2 ^ 64) ^ rows ∧
        (2 ^ 64) ^ rows * ridingValue n.length (reduceRows n np rows acc) = ridingValue n.length acc + m * value n := by
  induction rows using Nat.twoStepInduction generalizing acc with
  | zero => exact ⟨hp,0,by simp,by simp [reduceRows]⟩
  | one =>
    obtain ⟨hlen,m,hvalue⟩ := reduceSingle_spec hnp (ne_nil_of_length_pos hrows) (le_of_eq hp.symm)
    exact ⟨by simp only [reduceRows]; omega,m.toNat,by simpa using m.isLt,by simpa [reduceRows] using hvalue⟩
  | more rows ih _ =>
    obtain ⟨hlen,m0,m1,hvalue⟩ := reducePair_spec hnp (by omega) (show n.length + 2 ≤ acc.1.length by omega)
    obtain ⟨hlen',m,hm,hrest⟩ := @ih (reducePair n np acc) (by omega) (by omega)
    rw [reduceRows]
    refine ⟨hlen',m0.toNat + 2 ^ 64 * (m1.toNat + 2 ^ 64 * m),?_,?_⟩
    · rw [pow_succ' (2 ^ 64) (rows + 1),pow_succ' (2 ^ 64) rows]
      omega
    · push_cast
      linear_combination hvalue + 2 ^ 64 * 2 ^ 64 * hrest
end Reduce
section
variable (a : List Limb)
theorem squares_nonneg : 0 ≤ squares a := by
  induction a with
  | nil => exact le_refl _
  | cons x a ih =>
    rw [squares]
    positivity

theorem sq_value_lt : (value a : ℤ) ^ 2 < (2 ^ 64) ^ (2 * a.length) := by
  have h := Nat.pow_lt_pow_left (value_lt a) (show 2 ≠ 0 by decide)
  rw [← pow_mul,mul_comm] at h
  exact_mod_cast h

/-- The shift does not carry out: twice the triangle is at most the square. -/
theorem value_double_triangle :
    let p := triangle a (List.replicate (2 * a.length) 0#64)
    (shiftIn p 0#64).1.length = 2 * a.length ∧ (value (shiftIn p 0#64).1) = crossTerms a := by
  intro p
  obtain ⟨hlen,hvalue⟩ := @triangle_spec a (List.replicate (2 * a.length) 0#64) (by simp)
    (fun j _ => by by_cases hj : j < 2 * a.length <;> simp [limbAt,hj]) (value_replicate_zero _)
  rw [length_replicate] at hlen
  obtain ⟨hshift,-,hdouble⟩ := shiftIn_spec p 0#64 (Nat.zero_le _)
  rw [hlen] at hshift hdouble
  have hbound : value (shiftIn p 0#64).1 + (2 ^ 64) ^ (2 * a.length) * (shiftIn p 0#64).2.toNat <
      (2 ^ 64) ^ (2 * a.length) := by
    have hsquare := sq_value_lt a
    have hdiagonal := squares_nonneg a
    rw [hdouble]
    zify
    simp only [toNat_ofNat,zero_mod,cast_zero,add_zero]
    rw [hvalue,crossTerms]
    linarith
  have hout : (shiftIn p 0#64).2.toNat = 0 := by
    by_contra hne
    have := Nat.le_mul_of_pos_right ((2 ^ 64) ^ (2 * a.length)) (pos_of_ne_zero hne)
    omega
  rw [hout] at hdouble
  refine ⟨hshift,?_⟩
  rw [← hvalue]
  exact_mod_cast hdouble

theorem value_diagonal :
    let p := diagonalLoop 0#64 (shiftIn (triangle a (List.replicate (2 * a.length) 0#64)) 0#64).1 a
    p.length = 2 * a.length ∧ (value p : ℤ) = value a ^ 2 := by
  intro p
  obtain ⟨hshift,hdouble⟩ := value_double_triangle a
  obtain ⟨hlen,c,hvalue⟩ := @diagonalLoop_spec 0#64 _ a hshift
  refine ⟨hlen.trans hshift,?_⟩
  rw [hdouble,crossTerms] at hvalue
  simp only [toNat_ofNat,zero_mod,cast_zero,add_zero,sub_add_cancel] at hvalue
  have hsquare := sq_value_lt a
  have hc : c = 0 := by
    by_contra hne
    have hpos : (1 : ℤ) ≤ c := by exact_mod_cast pos_of_ne_zero hne
    nlinarith
  rw [hc] at hvalue
  simpa using hvalue
end
theorem isMontProduct_montSqrKernel {n a : List Limb} {np : Limb} (hnp : limbAt n 0 * np = -1) (ha : n.length ≤ a.length)
    (haa : value (a.take n.length) * value (a.take n.length) ≤ (2 ^ 64) ^ n.length * value n) (hn : 0 < value n) :
    IsMontProduct n (value (a.take n.length) * value (a.take n.length)) (montSqrKernel n np a) := by
  obtain ⟨hlen,hvalue⟩ := value_diagonal (a.take n.length)
  rw [length_take_of_le ha] at hlen hvalue
  generalize hp : diagonalLoop 0#64 (shiftIn (triangle (a.take n.length) (List.replicate (2 * n.length) 0#64)) 0#64).1
    (a.take n.length) = p at hlen hvalue
  obtain ⟨hlen',m,hm,hrows⟩ := @reduceRows_spec n np hnp n.length (p, 0#64) (le_refl _) (by dsimp only; omega)
  have heq : montSqrKernel n np a =
      montFinalSub n (reduceRows n np n.length (p, 0#64)).1 (reduceRows n np n.length (p, 0#64)).2 := by
    rw [← hp]
    rfl
  rw [heq]
  refine isMontProduct_of_rows hlen' hm haa hn ?_
  rw [accValue,hlen']
  simp only [ridingValue,hvalue,toNat_ofNat,zero_mod,cast_zero,mul_zero,add_zero] at hrows
  rw [hrows]
  push_cast
  ring

theorem montSqrKernel_spec {n a : List Limb} {np : Limb} (hnp : limbAt n 0 * np = -1) (ha : n.length ≤ a.length)
    (ha0 : value (a.drop n.length) = 0) (haa : value a * value a ≤ (2 ^ 64) ^ n.length * value n) (hn : 0 < value n) :
    IsMontProduct n (value a * value a) (montSqrKernel n np a) := by
  rw [← value_take_of_zeros _ _ ha0] at haa ⊢
  exact isMontProduct_montSqrKernel hnp ha haa hn

/-- Both kernels give the limbs of the one number that the product has. -/
theorem montSqrKernel_eq_montMulKernel {n a : List Limb} {np : Limb} (hodd : value n % 2 = 1) (hnp : limbAt n 0 * np = -1)
    (ha : n.length ≤ a.length) (hlt : value (a.take n.length) < value n) :
    montSqrKernel n np a = montMulKernel n np a a := by
  have hwidth := value_lt n
  have hbound := Nat.mul_le_mul (hlt.trans hwidth).le hlt.le
  have hsqr := isMontProduct_montSqrKernel hnp ha hbound (by omega)
  have hmul := isMontProduct_montMulKernel hnp ha ha hbound (by omega)
  exact value_inj (hsqr.length.trans hmul.length.symm) ((hmul.eq_iff hodd hsqr.lt).mp hsqr.modEq)

/-- An odd width, with the modulus `2 ^ 128 + 3` and the number `2 ^ 127 + 5`. -/
theorem montSqrKernel_eq_montMulKernel_three_limbs :
    montSqrKernel [3#64, 0#64, 1#64] 0x5555555555555555#64 [5#64, 0x8000000000000000#64, 0#64] =
      montMulKernel [3#64, 0#64, 1#64] 0x5555555555555555#64 [5#64, 0x8000000000000000#64, 0#64]
        [5#64, 0x8000000000000000#64, 0#64] :=
  montSqrKernel_eq_montMulKernel (by decide) (by decide) (by decide) (by decide)
end PureCrypto.Bignum
