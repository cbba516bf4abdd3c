import Mathlib.Data.Int.ModEq
import Mathlib.Data.Nat.Bitwise
import Mathlib.Tactic.SplitIfs

/-!
# Rounding and hints

High bits, decomposition and hints of ML-DSA (`mldsa/reduce.rs`).  A `u32` is a natural number and
an `i32` an integer; no operation leaves the range but those that wrap.
-/
namespace PureCrypto.Mldsa
def q : Nat := 8380417

def qMinus1Div2 : Nat := (q - 1) / 2
def gamma2_32 : Nat := (q - 1) / 32
def gamma2_88 : Nat := (q - 1) / 88

/-- Reduces a value below `2 * q`. -/
def reduceOnce (a : Nat) : Nat :=
  let x := (a + 2 ^ 32 - q) % 2 ^ 32
  (x + (x >>> 31) * q) % 2 ^ 32

def add (a b : Nat) : Nat := reduceOnce (a + b)

/-- `x >> 31` of an `i32`, as a mask. -/
def signMask (x : Int) : Nat := if x < 0 then 2 ^ 32 - 1 else 0

def highBits (r gamma2 : Nat) : Nat :=
  let r1 := (r + 127) >>> 7
  if gamma2 = gamma2_32 then (r1 * 1025 + 1 <<< 21) >>> 22 &&& 15
  else
    let r1 := (r1 * 11275 + 1 <<< 23) >>> 24
    r1 ^^^ (signMask (43 - r1) &&& r1)

def decompose (r gamma2 : Nat) : Nat × Int :=
  let r1 := highBits r gamma2
  let r0 : Int := r - r1 * gamma2 * 2
  (r1, r0 - (signMask (qMinus1Div2 - r0) &&& q : Nat))

def makeHint (z r gamma2 : Nat) : Nat :=
  let d := highBits (add r z) gamma2 ^^^ highBits r gamma2
  (d ||| (2 ^ 32 - d) % 2 ^ 32) >>> 31

def useHint (hint r gamma2 : Nat) : Nat :=
  let (r1, r0) := decompose r gamma2
  if hint = 0 then r1
  else if gamma2 = gamma2_32 then
    if 0 < r0 then (r1 + 1) &&& 15 else (r1 + 2 ^ 32 - 1) % 2 ^ 32 &&& 15
  else if 0 < r0 then
    if r1 = 43 then 0 else r1 + 1
  else if r1 = 0 then 43
  else r1 - 1

/-- The rounding ranges of the parameter sets. -/
inductive Gamma2
  | thirtyTwo
  | eightyEight
namespace Gamma2
def value : Gamma2 → Nat
  | thirtyTwo => gamma2_32
  | eightyEight => gamma2_88

/-- The number of high parts. -/
def parts : Gamma2 → Nat
  | thirtyTwo => 16
  | eightyEight => 44

private theorem values (g : Gamma2) : g.value = 261888 ∧ g.parts = 16 ∨ g.value = 95232 ∧ g.parts = 44 := by
  cases g
  · exact .inl ⟨rfl,rfl⟩
  · exact .inr ⟨rfl,rfl⟩
end Gamma2
/-- The nearest multiple `k` of the interval length and what is left.  The multiple `q - 1` counts as zero. -/
structure Splits (g : Gamma2) (r k : Nat) (s : Int) : Prop where
  part_lt : k < g.parts
  le : s ≤ g.value
  ge : -g.value ≤ s
  tie : 0 < k → -g.value < s
  sum : (r : Int) = k * (2 * g.value) + s ∨ k = 0 ∧ r = q + s

private theorem and_fifteen (n : Nat) : n &&& 15 = n % 16 := Nat.and_two_pow_sub_one_eq_mod n 4

private theorem reduceOnce_eq {a : Nat} (h : a < 2 * q) : reduceOnce a = a % q := by
  rw [q] at h
  simp only [reduceOnce,q,Nat.shiftRight_eq_div_pow]
  by_cases hlt : a < 8380417 <;> omega

private theorem signMask_and (x : Int) {n : Nat} (h : n < 2 ^ 32) : signMask x &&& n = if x < 0 then n else 0 := by
  rw [signMask]
  split_ifs
  · rw [Nat.and_comm,Nat.and_two_pow_sub_one_eq_mod,Nat.mod_eq_of_lt h]
  · exact Nat.zero_and n
variable {g : Gamma2} {r : Nat}
private theorem highBits_eq (h : r < q) : highBits r g.value = (r + (g.value - 1)) / (2 * g.value) % g.parts := by
  rw [q] at h
  cases g with
  | thirtyTwo =>
    have hpart : ((r + 127) / 128 * 1025 + 2 ^ 21) / 2 ^ 22 = (r + 261887) / 523776 :=
      Nat.div_eq_of_lt_le (by omega) (by omega)
    rw [highBits,Gamma2.value,if_pos rfl,and_fifteen,Nat.shiftRight_eq_div_pow,Nat.shiftRight_eq_div_pow]
    exact congrArg (· % 16) hpart
  | eightyEight =>
    have hpart : ((r + 127) / 128 * 11275 + 2 ^ 23) / 2 ^ 24 = (r + 95231) / 190464 :=
      Nat.div_eq_of_lt_le (by omega) (by omega)
    have hwrap : ∀ n : Nat, n < 45 → n ^^^ (signMask (43 - n) &&& n) = n % 44 := by decide
    simp only [highBits,Gamma2.value,if_neg (show gamma2_88 ≠ gamma2_32 by decide),Nat.shiftRight_eq_div_pow]
    refine Eq.trans ?_ (hwrap ((r + 95231) / 190464) (by omega))
    rw [← hpart]
    rfl

private theorem splits (h : r < q) : Splits g r (highBits r g.value) (decompose r g.value).2 := by
  have hhigh := highBits_eq (g := g) h
  have hlow : (decompose r g.value).2 = if (qMinus1Div2 : Int) < r - highBits r g.value * g.value * 2
      then (r : Int) - highBits r g.value * g.value * 2 - q else r - highBits r g.value * g.value * 2 := by
    simp only [decompose,signMask_and _ (show q < 2 ^ 32 by decide)]
    split_ifs <;> omega
  have hhalf : qMinus1Div2 = 4190208 := rfl
  generalize highBits r g.value = k at *
  generalize (decompose r g.value).2 = s at *
  rw [hhalf] at hlow
  -- the last half interval has the part zero
  rcases g.values with ⟨hv,hp⟩ | ⟨hv,hp⟩
  all_goals
    rw [hv,hp] at hhigh
    rw [hv,q] at hlow
    rw [q] at h
    by_cases hpart : r + g.value ≤ g.parts * (2 * g.value) <;> rw [hv,hp] at hpart
    · rw [if_neg (by omega)] at hlow
      constructor <;> simp only [hv,hp,q] <;> omega
    · rw [if_pos (by omega)] at hlow
      constructor <;> simp only [hv,hp,q] <;> omega

/-- A hint moves on to the next part, on the side of what is left. -/
private theorem useHint_eq (h : r < q) {hint : Nat} (hhint : hint ≠ 0) : useHint hint r g.value =
    if 0 < (decompose r g.value).2 then (highBits r g.value + 1) % g.parts
    else (highBits r g.value + (g.parts - 1)) % g.parts := by
  have hlt := (splits (g := g) h).part_lt
  have hfst : (decompose r g.value).1 = highBits r g.value := rfl
  simp only [useHint,if_neg hhint,hfst,and_fifteen]
  generalize highBits r g.value = k at *
  cases g with
  | thirtyTwo =>
    rw [Gamma2.value,if_pos rfl]
    rw [Gamma2.parts] at *
    split_ifs <;> omega
  | eightyEight =>
    rw [Gamma2.value,if_neg (by decide)]
    rw [Gamma2.parts] at *
    split_ifs <;> omega

private theorem differ {a b : Nat} (ha : a < g.parts) (hb : b < g.parts) (hne : a ≠ b) :
    (a ^^^ b ||| (2 ^ 32 - (a ^^^ b)) % 2 ^ 32) >>> 31 ≠ 0 := by
  have hparts : g.parts < 2 ^ 6 := by cases g <;> decide
  have hxor := Nat.xor_lt_two_pow (ha.trans hparts) (hb.trans hparts)
  have hbit : ∀ d < 2 ^ 6, d ≠ 0 → (d ||| (2 ^ 32 - d) % 2 ^ 32) >>> 31 ≠ 0 := by decide
  exact hbit _ hxor (Nat.xor_ne_zero_iff.mpr hne)

/-- A summand of norm at most `gamma2` leaves the part or moves to a neighbour. -/
private theorem Splits.next {z k k' : Nat} {s s' : Int} (h : Splits g r k s) (h' : Splits g ((r + z) % q) k' s')
    (hr : r < q) (hz : z < q) (hnorm : min z (q - z) ≤ g.value) (hne : k' ≠ k) :
    k' = if 0 < s then (k + 1) % g.parts else (k + (g.parts - 1)) % g.parts := by
  obtain ⟨hk,hle,hge,htie,hsum⟩ := h
  obtain ⟨hk',hle',hge',htie',hsum'⟩ := h'
  have hmove : ∃ d : Int, -g.value ≤ d ∧ d ≤ g.value ∧ ((((r + z) % q : Nat) : Int) = r + d ∨
      (((r + z) % q : Nat) : Int) = r + d - q ∨ (((r + z) % q : Nat) : Int) = r + d + q) := by
    rw [q] at *
    by_cases hsmall : z ≤ g.value
    · exact ⟨z,by omega,by omega,by omega⟩
    · exact ⟨z - 8380417,by omega,by omega,by omega⟩
  obtain ⟨d,hd,hd',hmove⟩ := hmove
  generalize (((r + z) % q : Nat) : Int) = t at *
  rcases g.values with ⟨hv,hp⟩ | ⟨hv,hp⟩
  all_goals
    simp only [hv,hp,q] at *
    split_ifs <;> rcases hsum with hsum | hsum <;> rcases hsum' with hsum' | hsum' <;>
      rcases hmove with hmove | hmove | hmove <;> omega

/-- A hint recovers the high bits of a sum with a summand of norm at most `gamma2`, and `decompose` gives the high
bits and what is left, of at most that norm. -/
theorem hint_recovers_high_bits (g : Gamma2) (r : Fin q) : (∀ z : Fin q, min z.val (q - z) ≤ g.value →
      useHint (makeHint z r g.value) r g.value = highBits ((r + z : Nat) % q) g.value) ∧
    (decompose r g.value).1 = highBits r g.value ∧ highBits r g.value < g.parts ∧
    (decompose r g.value).2.natAbs ≤ g.value ∧
    (decompose r g.value).1 * (2 * g.value) + (decompose r g.value).2 ≡ r.val [ZMOD q] := by
  have hr := splits (g := g) r.isLt
  have hfst : (decompose r g.value).1 = highBits r g.value := rfl
  refine ⟨?_,rfl,hr.part_lt,?_,?_⟩
  · intro z hnorm
    have hadd : add r z = (r + z) % q := reduceOnce_eq (by omega)
    have hsum := splits (g := g) (Nat.mod_lt (r + z : Nat) (show 0 < q by decide))
    rw [makeHint,hadd]
    by_cases hsame : highBits ((r + z : Nat) % q) g.value = highBits r g.value
    · simp [hsame,useHint,hfst]
    · rw [useHint_eq r.isLt (differ hsum.part_lt hr.part_lt hsame)]
      exact (hr.next hsum r.isLt z.isLt hnorm hsame).symm
  · have hle := hr.le
    have hge := hr.ge
    omega
  · rw [hfst]
    rcases hr.sum with hsum | ⟨hzero,hsum⟩
    · rw [hsum]
    · rw [hzero,hsum]
      simp
end PureCrypto.Mldsa
