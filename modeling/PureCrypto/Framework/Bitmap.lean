import Mathlib.Data.List.Basic
import Mathlib.Data.Nat.Bitwise

/-! # Bitmaps in 64-bit words -/
namespace PureCrypto
open List Nat
section Bits
variable {w : Nat} (x : BitVec w) (i : Nat)
theorem masked_bit_clear (hi : i < w) : (x &&& 1#w <<< i == 0#w) = !x.getLsbD i := by
  rw [Bool.eq_iff_iff,beq_iff_eq,Bool.not_eq_true']
  constructor
  · intro h
    simpa [hi] using congrArg (BitVec.getLsbD · i) h
  · intro h
    apply BitVec.eq_of_getLsbD_eq
    intro j hj
    by_cases hji : j = i
    · simp [hji,h]
    · simp
      omega

theorem shifted_bit_clear (hw : 0 < w) : (x >>> i &&& 1#w == 0#w) = !x.getLsbD i := by
  have hmasked := masked_bit_clear (x >>> i) 0 hw
  rwa [BitVec.shiftLeft_zero,BitVec.getLsbD_ushiftRight] at hmasked
end Bits
abbrev Bitmap := List (BitVec 64)
namespace Bitmap
def zeros (bits : Nat) : Bitmap := List.replicate ((bits + 63) / 64) 0#64

def test (ws : Bitmap) (i : Nat) : Bool :=
  match ws[i >>> 6]? with
  | some w => (w >>> (i &&& 0x3f)) &&& 1#64 != 0#64
  | none => false

/-- Set a bit; the flag says that it was not set before.  Out of range is a no-op. -/
def mark (ws : Bitmap) (i : Nat) : Bool × Bitmap :=
  match ws[i >>> 6]? with
  | some w =>
    let mask := 1#64 <<< (i &&& 0x3f)
    if w &&& mask != 0#64 then (false, ws) else (true, ws.set (i >>> 6) (w ||| mask))
  | none => (false, ws)

def count (ws : Bitmap) (n : Nat) : Nat := (List.range n).countP ws.test
private theorem word_index (i : Nat) : i >>> 6 = i / 64 := shiftRight_eq_div_pow i 6
private theorem bit_index (i : Nat) : i &&& 0x3f = i % 64 := and_two_pow_sub_one_eq_mod i 6

theorem test_eq (ws : Bitmap) (i : Nat) : ws.test i = (ws[i / 64]?.getD 0#64).getLsbD (i % 64) := by
  unfold test
  rw [word_index,bit_index]
  cases h : ws[i / 64]? with
  | none => simp
  | some w => simp only [bne,shifted_bit_clear w _ (show 0 < 64 by decide),Bool.not_not,Option.getD_some]

@[simp] theorem test_zeros (bits i : Nat) : (zeros bits).test i = false := by
  rw [test_eq,zeros,getElem?_replicate]
  split_ifs <;> simp

theorem length_zeros (bits : Nat) : bits ≤ 64 * (zeros bits).length := by
  rw [zeros,length_replicate]
  omega
section Mark
variable {ws : Bitmap} {i : Nat}
theorem mark_eq (hi : i < 64 * ws.length) : ws.mark i = if ws.test i then (false, ws)
      else (true, ws.set (i / 64) (ws[i / 64]?.getD 0#64 ||| 1#64 <<< (i % 64))) := by
  have hword : i / 64 < ws.length := by omega
  rw [test_eq,mark,word_index,bit_index,getElem?_eq_getElem hword]
  simp [bne,masked_bit_clear _ _ (mod_lt i (by omega : 0 < 64))]

theorem length_mark (ws : Bitmap) (i : Nat) : (ws.mark i).2.length = ws.length := by
  unfold mark
  split
  · simp only
    split_ifs
    · rfl
    · exact length_set
  · rfl

theorem mark_fst (hi : i < 64 * ws.length) : (ws.mark i).1 = !ws.test i := by
  rw [mark_eq hi]
  cases ws.test i <;> rfl

theorem test_mark (hi : i < 64 * ws.length) (j : Nat) : (ws.mark i).2.test j = (ws.test j || decide (j = i)) := by
  have hword : i / 64 < ws.length := by omega
  rw [mark_eq hi]
  by_cases hset : ws.test i = true
  · rw [if_pos hset]
    by_cases hj : j = i
    · rw [hj,hset,Bool.true_or]
    · simp [hj]
  · rw [if_neg hset,test_eq,test_eq]
    by_cases hsame : i / 64 = j / 64
    · have hbit : j % 64 = i % 64 ↔ j = i := by omega
      rw [← hsame,getElem?_set_self hword,Option.getD_some,← BitVec.twoPow_eq]
      simp [mod_lt _ (show 0 < 64 by omega),← hbit,eq_comm]
    · have hj : j ≠ i := fun h => hsame (by rw [h])
      rw [getElem?_set_ne hsame]
      simp [hj]
end Mark
theorem count_zeros (bits n : Nat) : (zeros bits).count n = 0 := by
  simp [count]

theorem count_eq_iff (ws : Bitmap) (n : Nat) : ws.count n = n ↔ ∀ i < n, ws.test i = true := by
  have h := countP_eq_length (p := ws.test) (l := List.range n)
  simpa [count] using h

private theorem countP_range_update (p q : Nat → Bool) {i : Nat} (hp : p i = false)
    (hq : ∀ j, q j = (p j || decide (j = i))) (n : Nat) :
    (List.range n).countP q = (List.range n).countP p + if i < n then 1 else 0 := by
  induction n with
  | zero => simp
  | succ n ih =>
    rw [List.range_succ,countP_append,countP_append,ih,countP_singleton,hq n]
    by_cases hn : n = i
    · subst hn
      simp [hp]
    · by_cases hlt : i < n
      · have hlt' : i < n + 1 := by omega
        simp [hn,hlt,hlt']
        omega
      · have hlt' : ¬ i < n + 1 := by omega
        simp [hn,hlt,hlt']

theorem count_mark {ws : Bitmap} {i n : Nat} (hi : i < 64 * ws.length) (hn : i < n) :
    (ws.mark i).2.count n = ws.count n + if (ws.mark i).1 then 1 else 0 := by
  rw [mark_fst hi]
  by_cases hset : ws.test i = true
  · have hsame : (ws.mark i).2 = ws := by rw [mark_eq hi,if_pos hset]
    simp [hsame,hset]
  · have hclear : ws.test i = false := by simpa using hset
    have h := countP_range_update ws.test (ws.mark i).2.test hclear (test_mark hi) n
    simpa [count,hclear,hn] using h
end Bitmap
end PureCrypto
