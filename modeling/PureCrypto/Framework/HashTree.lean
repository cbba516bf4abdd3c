import Mathlib.Data.Nat.Bitwise
import Mathlib.Tactic.Ring

/-! # Hash chains and hash trees -/
namespace PureCrypto.HashTree
open List Nat
variable {α : Type*}
def chain (step : Nat → α → α) (start : Nat) : Nat → α → α
  | 0, x => x
  | steps + 1, x => step (start + steps) (chain step start steps x)

theorem chain_add (step : Nat → α → α) (start a b : Nat) (x : α) :
    chain step (start + a) b (chain step start a x) = chain step start (a + b) x := by
  induction b with
  | zero => rfl
  | succ b ih => rw [chain,ih,← add_assoc a,chain,add_assoc]

structure Tree (α : Type*) where
  leaf : Nat → α
  /-- From the height of the children and the index of the parent. -/
  parent : Nat → Nat → α → α → α
namespace Tree
variable (t : Tree α)
/-- The node at a height. -/
def node : Nat → Nat → α
  | 0, i => t.leaf i
  | h + 1, i => t.parent h i (node h (2 * i)) (node h (2 * i + 1))

def siblings (h : Nat) : Nat → Nat → List α
  | 0, _ => []
  | k + 1, i => t.node h (i ^^^ 1) :: siblings (h + 1) k (i / 2)

@[simp] theorem length_siblings (h k i : Nat) : (t.siblings h k i).length = k := by
  induction k generalizing h i with
  | zero => rfl
  | succ k ih => rw [siblings,length_cons,ih]

theorem siblings_eq_map (h k i : Nat) :
    t.siblings h k i = (List.range k).map fun j => t.node (h + j) ((i / 2 ^ j) ^^^ 1) := by
  induction k generalizing h i with
  | zero => rfl
  | succ k ih =>
    rw [siblings,ih,range_succ_eq_map,map_cons,List.map_map]
    simp [Nat.pow_succ',Nat.div_div_eq_div_mul,add_assoc,add_comm 1]

/-- The way up from the value `x` of node `i` at height `h`. -/
def climb (parent : Nat → Nat → α → α → α) : Nat → Nat → α → List α → α
  | _, _, x, [] => x
  | h, i, x, s :: path =>
    climb parent (h + 1) (i / 2)
      (if i % 2 = 1 then parent h (i / 2) s x else parent h (i / 2) x s) path

theorem xor_one (i : Nat) : i ^^^ 1 = if i % 2 = 1 then 2 * (i / 2) else 2 * (i / 2) + 1 := by
  split_ifs with h
  · rw [xor_one_of_odd (odd_iff.mpr h)]
    omega
  · rw [xor_one_of_even (even_iff.mpr (by omega))]
    omega
variable {k i count start h : Nat}
theorem xor_one_div (i : Nat) (hk : 0 < k) : (i ^^^ 1) / 2 ^ k = i / 2 ^ k := by
  have hhalf : (i ^^^ 1) / 2 = i / 2 := by
    rw [xor_one]
    split_ifs <;> omega
  obtain ⟨k,rfl⟩ := exists_eq_succ_of_ne_zero hk.ne'
  rw [Nat.pow_succ',← Nat.div_div_eq_div_mul,hhalf,Nat.div_div_eq_div_mul]

theorem climb_siblings (h k i : Nat) :
    climb t.parent h i (t.node h i) (t.siblings h k i) = t.node (h + k) (i / 2 ^ k) := by
  induction k generalizing h i with
  | zero => simp [siblings,climb]
  | succ k ih =>
    have hparent : (if i % 2 = 1 then t.parent h (i / 2) (t.node h (i ^^^ 1)) (t.node h i)
        else t.parent h (i / 2) (t.node h i) (t.node h (i ^^^ 1))) = t.node (h + 1) (i / 2) := by
      rw [xor_one,node]
      split_ifs with hodd
      · rw [show 2 * (i / 2) + 1 = i by omega]
      · rw [show 2 * (i / 2) = i by omega]
    rw [siblings,climb,hparent,ih,Nat.div_div_eq_div_mul,← Nat.pow_succ',add_assoc,add_comm 1]

def row (h : Nat) : Nat → Nat → List α
  | _, 0 => []
  | first, count + 1 => t.node h first :: row h (first + 1) count

@[simp] theorem length_row (h first count : Nat) : (t.row h first count).length = count := by
  induction count generalizing first with
  | zero => rfl
  | succ count ih => rw [row,length_cons,ih]

theorem getElem_row (h first count : Nat) (hi : i < (t.row h first count).length) :
    (t.row h first count)[i] = t.node h (first + i) := by
  induction count generalizing first i with
  | zero => cases hi
  | succ count ih =>
    cases i with
    | zero => rfl
    | succ i =>
      simp only [row,getElem_cons_succ]
      rw [ih,add_assoc,add_comm 1]

theorem getD_row (h first : Nat) (hi : i < count) (x : α) :
    (t.row h first count).getD i x = t.node h (first + i) := by
  have hi' : i < (t.row h first count).length := by rwa [length_row]
  rw [getD_eq_getElem _ _ hi',getElem_row]

def pairUp (f : Nat → α → α → α) : Nat → List α → List α
  | i, x :: y :: rest => f i x y :: pairUp f (i + 1) rest
  | _, _ => []

theorem pairUp_row (h first count : Nat) :
    pairUp (t.parent h) first (t.row h (2 * first) (2 * count)) = t.row (h + 1) first count := by
  induction count generalizing first with
  | zero => rfl
  | succ count ih =>
    rw [show 2 * (count + 1) = 2 * count + 1 + 1 by ring,row,row,pairUp,
      show 2 * first + 1 + 1 = 2 * (first + 1) by ring,ih,row,node]

def rows (start : Nat) : Nat → Nat → List (List α)
  | h, 0 => [t.row h (start / 2 ^ h) 1]
  | h, count + 1 => t.row h (start / 2 ^ h) (2 ^ (count + 1)) :: rows start (h + 1) count

theorem getD_rows (start h : Nat) {j : Nat} (hj : j ≤ count) :
    (t.rows start h count).getD j [] = t.row (h + j) (start / 2 ^ (h + j)) (2 ^ (count - j)) := by
  induction count generalizing h j with
  | zero =>
    rw [le_zero.mp hj]
    rfl
  | succ count ih =>
    cases j with
    | zero => rfl
    | succ j =>
      rw [rows,getD_cons_succ,ih (h + 1) (by omega),show h + 1 + j = h + (j + 1) by omega,
        show count + 1 - (j + 1) = count - j by omega]

theorem getLastD_rows (start h count : Nat) :
    (t.rows start h count).getLastD [] = t.row (h + count) (start / 2 ^ (h + count)) 1 := by
  induction count generalizing h with
  | zero => rfl
  | succ count ih =>
    have hne : t.rows start (h + 1) count ≠ [] := by cases count <;> exact cons_ne_nil _ _
    rw [rows,getLastD_cons, getLastD_eq_getLast?,← add_assoc,Nat.add_right_comm,← ih,
      getLastD_eq_getLast?,getLast?_eq_some_getLast hne,Option.getD_some,Option.getD_some]

/-- The first index of a row is even below the root of the block. -/
theorem div_eq_two_mul (hstart : 2 ^ (h + k + 1) ∣ start) : start / 2 ^ h = 2 * (start / 2 ^ (h + 1)) := by
  obtain ⟨m,rfl⟩ := hstart
  have hsplit : 2 ^ (h + k + 1) * m = 2 ^ (h + 1) * (2 ^ k * m) := by ring
  rw [hsplit,Nat.mul_div_cancel_left _ (Nat.two_pow_pos _),pow_succ,mul_assoc,
    Nat.mul_div_cancel_left _ (Nat.two_pow_pos _)]

theorem pairUp_rows (hstart : 2 ^ (h + (count + 1)) ∣ start) :
    pairUp (t.parent h) (start / 2 ^ (h + 1)) (t.row h (start / 2 ^ h) (2 ^ (count + 1))) =
      t.row (h + 1) (start / 2 ^ (h + 1)) (2 ^ count) := by
  rw [div_eq_two_mul (k := count) hstart,Nat.pow_succ' (m := 2) (n := count),pairUp_row]
end Tree
end PureCrypto.HashTree
