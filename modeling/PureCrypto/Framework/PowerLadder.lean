import Mathlib.Data.Nat.ModEq
import Mathlib.Data.Nat.Size
import Mathlib.Tactic.Ring

/-!
# Ladders of squarings and multiplications

A ladder reads an exponent in windows from the top. What the values hold is a relation to numbers
that products and squares respect.
-/
namespace PureCrypto
open List
section Countdown
variable {α : Type*}
/-- The body runs for `n - 1` down to `0`. -/
def countdown (body : α → ℕ → α) : ℕ → α → α
  | 0, acc => acc
  | n + 1, acc => countdown body n (body acc n)

theorem countdown_rule {body : α → ℕ → α} {P : ℕ → α → Prop} {n : ℕ} {acc : α} (hinit : P n acc)
    (hstep : ∀ w < n, ∀ acc, P (w + 1) acc → P w (body acc w)) : P 0 (countdown body n acc) := by
  induction n generalizing acc with
  | zero => exact hinit
  | succ n ih => exact ih (hstep n n.lt_succ_self acc hinit) fun w hw => hstep w (Nat.lt_succ_of_lt hw)
end Countdown
/-- A window to the left of the exponent reached, and the next digit. -/
theorem window_step (e base w : ℕ) : e / base ^ w = e / base ^ (w + 1) * base + e / base ^ w % base := by
  rw [pow_succ,← Nat.div_div_eq_div_mul,mul_comm,Nat.div_add_mod]

theorem digit_of_mod (e base : ℕ) {w n : ℕ} (hw : w < n) : e % base ^ n / base ^ w % base = e / base ^ w % base := by
  rw [show base ^ n = base ^ w * base ^ (n - w) by rw [← pow_add]; congr 1; omega,Nat.mod_mul_right_div_self,
    Nat.mod_mod_of_dvd _ (dvd_pow_self base (by omega))]

theorem top_digit (e base w : ℕ) : e % base ^ (w + 1) / base ^ w = e / base ^ w % base := by
  rw [pow_succ,Nat.mod_mul_right_div_self]

theorem size_top_window {e k : ℕ} (he : 0 < e) (hk : 0 < k) :
    0 < e / (2 ^ k) ^ ((Nat.size e - 1) / k) ∧ e / (2 ^ k) ^ ((Nat.size e - 1) / k) < 2 ^ k := by
  have hsize := Nat.size_pos.mpr he
  have hdiv := Nat.div_add_mod (Nat.size e - 1) k
  have hmod := Nat.mod_lt (Nat.size e - 1) hk
  rw [← pow_mul]
  constructor
  · refine Nat.div_pos ((Nat.pow_le_pow_right (by decide) ?_).trans (Nat.lt_size.mp (show Nat.size e - 1 < _ by omega)))
      (Nat.two_pow_pos _)
    omega
  · refine Nat.div_lt_of_lt_mul ((Nat.lt_size_self e).trans_le ?_)
    rw [← pow_add]
    exact Nat.pow_le_pow_right (by decide) (by omega)

theorem size_top_bit {e : ℕ} (he : 0 < e) : e / 2 ^ (Nat.size e - 1) = 1 := by
  have h := size_top_window he Nat.one_pos
  rw [pow_one,Nat.div_one] at h
  omega
section Holds
variable {α : Type*} {Holds : α → ℕ → Prop} {mul : α → α → α} {sqr : α → α}
theorem holds_iterate_sqr (hsqr : ∀ a u, Holds a u → Holds (sqr a) (u * u)) {a : α} {u : ℕ} (ha : Holds a u) (k : ℕ) :
    Holds (sqr^[k] a) (u ^ 2 ^ k) := by
  induction k with
  | zero => simpa using ha
  | succ k ih =>
    rw [Function.iterate_succ_apply',pow_succ,pow_mul,sq]
    exact hsqr _ _ ih

def EntriesHold (Holds : α → ℕ → Prop) (table : List α) (f : ℕ → ℕ) : Prop :=
  ∀ k, ∀ y ∈ table[k]?, Holds y (f k)

theorem EntriesHold.cons {x : α} {l : List α} {f : ℕ → ℕ} (hx : Holds x (f 0)) (hl : EntriesHold Holds l fun k => f (k + 1)) :
    EntriesHold Holds (x :: l) f := by
  intro k y hy
  cases k with
  | zero =>
    obtain rfl : x = y := by simpa using hy
    exact hx
  | succ k => exact hl k y (by simpa using hy)

theorem EntriesHold.append {l l' : List α} {f : ℕ → ℕ} (hl : EntriesHold Holds l f)
    (hl' : EntriesHold Holds l' fun k => f (l.length + k)) : EntriesHold Holds (l ++ l') f := by
  intro k y hy
  by_cases hk : k < l.length
  · rw [getElem?_append_left hk] at hy
    exact hl k y hy
  · rw [getElem?_append_right (by omega)] at hy
    have hy' : Holds y (f (l.length + (k - l.length))) := hl' _ y hy
    rwa [Nat.add_sub_cancel' (by omega)] at hy'

def productChain (mul : α → α → α) (a : α) : ℕ → α → List α
  | 0, _ => []
  | n + 1, x => x :: productChain mul a n (mul x a)

@[simp] theorem length_productChain (a : α) (n : ℕ) (x : α) : (productChain mul a n x).length = n := by
  induction n generalizing x with
  | zero => rfl
  | succ n ih => simp [productChain,ih]
section Tables
variable (hmul : ∀ a u b v, Holds a u → Holds b v → Holds (mul a b) (u * v))
include hmul
variable {u v k w x : ℕ} {entry : ℕ → α}
theorem entriesHold_productChain {a x : α} (ha : Holds a u) (hx : Holds x v) (n : ℕ) :
    EntriesHold Holds (productChain mul a n x) fun k => v * u ^ k := by
  induction n generalizing x v with
  | zero => simp [productChain,EntriesHold]
  | succ n ih =>
    refine .cons (by simpa using hx) ?_
    simpa only [pow_succ',← mul_assoc] using ih (hmul _ _ _ _ hx ha)

theorem entriesHold_powers {one a : α} (hone : Holds one 1) (ha : Holds a u) (n : ℕ) :
    EntriesHold Holds (one :: productChain mul a n a) fun k => u ^ k := by
  refine .cons (by simpa using hone) ?_
  simpa only [pow_succ'] using entriesHold_productChain hmul ha ha n

/-- Entry `i + 4 * j` is for the power `i` of one number and the power `j` of the other. -/
theorem entriesHold_joint {one a b b2 b3 : α} (hone : Holds one 1) (ha : Holds a u) (hb : Holds b v)
    (hb2 : Holds b2 (v * v)) (hb3 : Holds b3 (v * v * v)) :
    EntriesHold Holds (one :: productChain mul a 3 a ++ productChain mul a 4 b ++ productChain mul a 4 b2 ++
      productChain mul a 4 b3) fun k => u ^ (k % 4) * v ^ (k / 4) := by
  have hrow : ∀ {l : List α} {x : α} {j : ℕ}, Holds x (v ^ j) → l.length = 4 * j →
      EntriesHold Holds (productChain mul a 4 x) fun k => u ^ ((l.length + k) % 4) * v ^ ((l.length + k) / 4) := by
    intro l x j hx hl k y hy
    have hk : k < 4 := by
      have := (List.getElem?_eq_some_iff.mp hy).1
      rwa [length_productChain] at this
    dsimp only
    rw [hl,show (4 * j + k) % 4 = k by omega,show (4 * j + k) / 4 = j by omega,mul_comm]
    exact entriesHold_productChain hmul ha hx 4 k y hy
  have hfirst : EntriesHold Holds (one :: productChain mul a 3 a) fun k => u ^ (k % 4) * v ^ (k / 4) := by
    intro k y hy
    have hk : k < 4 := by
      have := (List.getElem?_eq_some_iff.mp hy).1
      rwa [length_cons] at this
    dsimp only
    rw [show k % 4 = k by omega,show k / 4 = 0 by omega,pow_zero,mul_one]
    exact entriesHold_powers hmul hone ha 3 k y hy
  have hrow1 := hfirst.append (hrow (j := 1) (by simpa using hb) (by simp))
  have hrow2 := hrow1.append (hrow (j := 2) (by simpa [sq] using hb2) (by simp))
  exact hrow2.append (hrow (j := 3) (by simpa [pow_succ] using hb3) (by simp))
variable (hsqr : ∀ a u, Holds a u → Holds (sqr a) (u * u))
include hsqr
/-- The ladder for two exponents, read in `w + 1` windows of `k` bits. -/
theorem holds_joint_ladder {a b y : ℕ}
    (hentry : ∀ v ≤ w, Holds (entry v) (a ^ (x / (2 ^ k) ^ v % 2 ^ k) * b ^ (y / (2 ^ k) ^ v % 2 ^ k))) :
    Holds (countdown (fun acc v => mul (sqr^[k] acc) (entry v)) w (entry w))
      (a ^ (x % (2 ^ k) ^ (w + 1)) * b ^ (y % (2 ^ k) ^ (w + 1))) := by
  have hloop := @countdown_rule α (fun acc v => mul (sqr^[k] acc) (entry v))
    (fun v acc => Holds acc
      (a ^ (x % (2 ^ k) ^ (w + 1) / (2 ^ k) ^ v) * b ^ (y % (2 ^ k) ^ (w + 1) / (2 ^ k) ^ v))) w (entry w)
    (by
      rw [top_digit,top_digit]
      exact hentry w le_rfl)
    (by
      intro v hv acc hacc
      have hround := hmul _ _ _ _ (holds_iterate_sqr hsqr hacc k) (hentry v hv.le)
      rw [← digit_of_mod x (2 ^ k) (show v < w + 1 by omega),← digit_of_mod y (2 ^ k) (show v < w + 1 by omega)] at hround
      convert hround using 1
      conv_lhs => rw [window_step _ (2 ^ k) v,window_step (y % _) (2 ^ k) v]
      ring)
  simpa using hloop

theorem holds_pow_ladder {a : ℕ} (hentry : ∀ v ≤ w, Holds (entry v) (a ^ (x / (2 ^ k) ^ v % 2 ^ k))) :
    Holds (countdown (fun acc v => mul (sqr^[k] acc) (entry v)) w (entry w)) (a ^ (x % (2 ^ k) ^ (w + 1))) := by
  simpa using holds_joint_ladder hmul hsqr (b := 1) (y := 0) (by simpa using hentry)

/-- A ladder that multiplies only where the digit asks for it. -/
theorem holds_sparse_ladder {n a : ℕ} {take : ℕ → Prop} [DecidablePred take] {acc : α}
    (hinit : Holds acc (a ^ (x / (2 ^ k) ^ n)))
    (hentry : ∀ v < n, take v → Holds (entry v) (a ^ (x / (2 ^ k) ^ v % 2 ^ k)))
    (hskip : ∀ v < n, ¬ take v → x / (2 ^ k) ^ v % 2 ^ k = 0) :
    Holds (countdown (fun acc v => if take v then mul (sqr^[k] acc) (entry v) else sqr^[k] acc) n acc) (a ^ x) := by
  have hloop := @countdown_rule α (fun acc v => if take v then mul (sqr^[k] acc) (entry v) else sqr^[k] acc)
    (fun v acc => Holds acc (a ^ (x / (2 ^ k) ^ v))) n acc hinit
    (by
      intro v hv acc hacc
      have hsquared := holds_iterate_sqr hsqr hacc k
      rw [window_step,pow_add,pow_mul]
      by_cases ht : take v
      · rw [if_pos ht]
        exact hmul _ _ _ _ hsquared (hentry v hv ht)
      · rw [if_neg ht,hskip v hv ht,pow_zero,mul_one]
        exact hsquared)
  simpa using hloop

/-- From the highest bit of the exponent down, with a product where a bit is set. -/
theorem holds_bit_ladder {a : ℕ} {base : α} {take : ℕ → Prop} [DecidablePred take] (hbase : Holds base a) (hx : 0 < x)
    (hbit : ∀ i, take i ↔ x / 2 ^ i % 2 = 1) :
    Holds (countdown (fun acc i => if take i then mul (sqr acc) base else sqr acc) (Nat.size x - 1) base) (a ^ x) := by
  refine holds_sparse_ladder hmul hsqr (k := 1) ?_ (fun i _ ht => ?_) fun i _ ht => ?_
  · rwa [pow_one,size_top_bit hx,pow_one]
  · rwa [pow_one,(hbit i).mp ht,pow_one]
  · rw [hbit] at ht
    rw [pow_one]
    omega
end Tables
/-- Horner's rule over the digits of `x` for the base `r`, the highest of which starts it. -/
theorem holds_horner {add : α → α → α} {lift : α → α} {r x n : ℕ} {chunk : ℕ → α} (init : α)
    (hadd : ∀ a u b v, Holds a u → Holds b v → Holds (add a b) (u + v)) (hlift : ∀ a u, Holds a u → Holds (lift a) (u * r))
    (hchunk : ∀ i, Holds (chunk i) (x / r ^ i % r)) (hn : 0 < n) (hx : x < r ^ n) :
    Holds (countdown (fun acc i => if i + 1 = n then chunk i else add (lift acc) (chunk i)) n init) x := by
  have hloop := @countdown_rule α (fun acc i => if i + 1 = n then chunk i else add (lift acc) (chunk i))
    (fun i acc => i < n → Holds acc (x / r ^ i)) n init (fun hlt => absurd hlt (lt_irrefl _))
    (by
      intro i hi acc hacc _
      by_cases hlast : i + 1 = n
      · rw [if_pos hlast]
        have htop : x / r ^ i < r := Nat.div_lt_of_lt_mul (by rwa [← pow_succ,hlast])
        have htopChunk := hchunk i
        rwa [Nat.mod_eq_of_lt htop] at htopChunk
      · rw [if_neg hlast,window_step]
        exact hadd _ _ _ _ (hlift _ _ (hacc (by omega))) (hchunk i))
  simpa using hloop hn
end Holds
section Scaled
variable {N R x a b u v : ℕ}
variable (hcop : N.Coprime R)
include hcop
theorem scaled_mul (hx : R * x ≡ a * b [MOD N]) (ha : a ≡ u * R [MOD N]) (hb : b ≡ v * R [MOD N]) :
    x ≡ u * v * R [MOD N] := by
  refine Nat.ModEq.cancel_left_of_coprime (c := R) hcop ?_
  calc R * x ≡ a * b [MOD N] := hx
    _ ≡ u * R * (v * R) [MOD N] := ha.mul hb
    _ = R * (u * v * R) := by ring

theorem scaled_enter (hx : R * x ≡ a * b [MOD N]) (hb : b ≡ R * R [MOD N]) : x ≡ a * R [MOD N] := by
  refine Nat.ModEq.cancel_left_of_coprime (c := R) hcop ?_
  calc R * x ≡ a * b [MOD N] := hx
    _ ≡ a * (R * R) [MOD N] := hb.mul_left a
    _ = R * (a * R) := by ring

theorem scaled_leave (hx : R * x ≡ a [MOD N]) (ha : a ≡ v * R [MOD N]) : x ≡ v [MOD N] := by
  refine Nat.ModEq.cancel_left_of_coprime (c := R) hcop ?_
  rw [mul_comm R v]
  exact hx.trans ha
end Scaled
end PureCrypto
