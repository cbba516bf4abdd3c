import Mathlib.Data.Nat.Bitwise
import Mathlib.Data.Nat.Size
import PureCrypto.Quic.StreamTypes

/-!
# Packet-number truncation

`decode_packet_number` and `encode_packet_number_length` of `quic/pn.rs` (RFC 9000 §17.1 and
Appendix A.3).  The decoder takes the number congruent to the wire value that is closest to the one it
expects next.
-/
namespace PureCrypto.Quic
open Nat
/-- `!x` on a `u64`. -/
def complement (x : Nat) : Nat := u64Bound - 1 - x

def wrappingSub (a b : Nat) : Nat := (a + u64Bound - b) % u64Bound

/-- The wire value's bits, and the expected ones above them. -/
def candidatePn (expectedPn truncatedPn pnMask : Nat) : Nat :=
  (expectedPn &&& complement pnMask) ||| truncatedPn

def decodePacketNumber (largestPn truncatedPn pnNbits : Nat) : Nat :=
  let expectedPn := wrappingAdd largestPn 1
  let pnWin := 1 <<< pnNbits
  let pnHwin := pnWin >>> 1
  let pnMask := pnWin - 1
  let candidate := candidatePn expectedPn truncatedPn pnMask
  if wrappingAdd candidate pnHwin ≤ expectedPn ∧ candidate < (1 <<< 62) - pnWin then
    wrappingAdd candidate pnWin
  else if candidate > wrappingAdd expectedPn pnHwin ∧ candidate ≥ pnWin then
    wrappingSub candidate pnWin
  else candidate

/-- The distance to the largest acknowledged number; with none acknowledged, to "−1". -/
def packetNumberGap (pn : Nat) : Option Nat → Nat
  | some la => pn - la
  | none => saturatingAdd pn 1

/-- The bits of the gap and one more; `64 - leading_zeros` is the size. -/
def neededBits (gap : Nat) : Nat := (if gap = 0 then 1 else Nat.size gap) + 1

def encodePacketNumberLength (pn : Nat) (largestAcked : Option Nat) : Nat :=
  let neededBits := neededBits (packetNumberGap pn largestAcked)
  if neededBits ≤ 8 then 8
  else if neededBits ≤ 16 then 16
  else if neededBits ≤ 24 then 24
  else 32

theorem candidatePn_eq {expected pn k : Nat} (hexp : expected < u64Bound) (hk : k ≤ 64) :
    candidatePn expected (pn % 2 ^ k) (2 ^ k - 1) = 2 ^ k * (expected / 2 ^ k) + pn % 2 ^ k := by
  have hlow : pn % 2 ^ k < 2 ^ k := mod_lt _ (Nat.two_pow_pos k)
  have hhigh : expected &&& complement (2 ^ k - 1) = 2 ^ k * (expected / 2 ^ k) := by
    apply eq_of_testBit_eq
    intro i
    rw [testBit_and,testBit_two_pow_mul,testBit_div_two_pow]
    have hcompl : (complement (2 ^ k - 1)).testBit i = decide (k ≤ i ∧ i < 64) := by
      have hlt : 2 ^ k - 1 < 2 ^ 64 :=
        lt_of_lt_of_le (sub_lt (Nat.two_pow_pos k) Nat.one_pos) (Nat.pow_le_pow_right Nat.two_pos hk)
      have hform : complement (2 ^ k - 1) = 2 ^ 64 - (2 ^ k - 1 + 1) := by
        rw [complement,u64Bound]
        omega
      rw [hform,testBit_two_pow_sub_succ hlt]
      by_cases hik : i < k <;> by_cases hi : i < 64 <;> simp [hik,hi]; omega
    rw [hcompl]
    by_cases hki : k ≤ i
    · rw [Nat.sub_add_cancel hki]
      by_cases hi : i < 64
      · simp [hki,hi]
      · have hzero : expected.testBit i = false :=
          testBit_lt_two_pow (lt_of_lt_of_le hexp (Nat.pow_le_pow_right Nat.two_pos (by omega)))
        simp [hzero]
    · simp [hki]
  rw [candidatePn,hhigh,two_pow_add_eq_or_of_lt hlow]

theorem packetNumberGap_lt {pn : Nat} {largestAcked : Option Nat} (h : packetNumberGap pn largestAcked < 2 ^ 31) :
    packetNumberGap pn largestAcked < 2 ^ (encodePacketNumberLength pn largestAcked - 1) := by
  have hgap : ∀ k, neededBits (packetNumberGap pn largestAcked) ≤ k + 1 → packetNumberGap pn largestAcked < 2 ^ k := by
    intro k hk
    rw [neededBits] at hk
    split_ifs at hk with hzero
    · rw [hzero]
      exact Nat.two_pow_pos k
    · exact Nat.size_le.mp (by omega)
  rw [encodePacketNumberLength]
  split_ifs with h8 h16 h24
  · exact hgap 7 h8
  · exact hgap 15 h16
  · exact hgap 23 h24
  · exact h

theorem decodePacketNumber_of_near {pn largestPn k : Nat} (hpn : pn < 2 ^ 62) (hk : 8 ≤ k ∧ k ≤ 32)
    (hbelow : pn ≤ largestPn + 2 ^ (k - 1)) (habove : largestPn + 2 ≤ pn + 2 ^ (k - 1)) :
    decodePacketNumber largestPn (pn % 2 ^ k) k = pn := by
  have hwin : 2 ^ k = 2 * 2 ^ (k - 1) := by rw [← Nat.pow_succ']; congr 1; omega
  have hwin32 : 2 ^ k ≤ 2 ^ 32 := Nat.pow_le_pow_right Nat.two_pos hk.2
  have hexpected : wrappingAdd largestPn 1 = largestPn + 1 := by
    apply wrappingAdd_eq
    rw [u64Bound]
    omega
  have hcand := @candidatePn_eq (largestPn + 1) pn k (show largestPn + 1 < u64Bound by rw [u64Bound]; omega)
    (show k ≤ 64 by omega)
  rw [decodePacketNumber]
  simp only [one_shiftLeft,hexpected,shiftRight_one,hcand]
  have hhalf : 2 ^ k / 2 = 2 ^ (k - 1) := by omega
  rw [hhalf]
  -- the expected number and `pn` lie in the same block, or in neighbouring ones
  have hpnDiv := div_add_mod pn (2 ^ k)
  have hexpDiv := div_add_mod (largestPn + 1) (2 ^ k)
  have hpnMod := mod_lt pn (Nat.two_pow_pos k)
  have hexpMod := mod_lt (largestPn + 1) (Nat.two_pow_pos k)
  generalize hw : 2 ^ (k - 1) = half at *
  generalize 2 ^ k = win at *
  generalize pn / win = p at *
  generalize (largestPn + 1) / win = e at *
  have hcases : p = e ∨ p = e + 1 ∨ e = p + 1 := by
    rcases Nat.lt_trichotomy p e with hlt | heq | hgt
    · by_cases hne : e = p + 1
      · exact .inr (.inr hne)
      · have : win * (p + 2) ≤ win * e := Nat.mul_le_mul_left _ (by omega)
        rw [mul_add] at this
        omega
    · exact .inl heq
    · by_cases hne : p = e + 1
      · exact .inr (.inl hne)
      · have : win * (e + 2) ≤ win * p := Nat.mul_le_mul_left _ (by omega)
        rw [mul_add] at this
        omega
  have hadd : ∀ a b, a + b < 2 ^ 64 → wrappingAdd a b = a + b := fun a b h => wrappingAdd_eq h
  rw [hadd (largestPn + 1) half (by omega)]
  rcases hcases with rfl | rfl | rfl
  · rw [hadd _ half (by omega),if_neg (by omega),if_neg (by omega)]
    exact hpnDiv
  · rw [mul_add,mul_one] at hpnDiv
    rw [hadd _ half (by omega),if_pos ⟨by omega,by omega⟩,hadd _ win (by omega)]
    omega
  · rw [mul_add,hadd _ half (by omega),if_neg (by omega),if_pos ⟨by omega,by omega⟩,wrappingSub,u64Bound]
    omega

/-- A receiver no further behind than the acknowledged number, and less than half a window ahead. -/
theorem decode_truncated (pn : Nat) (largestAcked : Option Nat) (largestPn : Nat) (hpn : pn < 2 ^ 62)
    (hacked : ∀ la ∈ largestAcked, la < pn ∧ pn - la < 2 ^ 31)
    (hnone : largestAcked = none → pn + 1 < 2 ^ 31) (hbehind : largestAcked.getD 0 ≤ largestPn)
    (hahead : largestPn ≤ pn + 2 ^ (encodePacketNumberLength pn largestAcked - 1) - 2) :
    decodePacketNumber largestPn (pn % 2 ^ encodePacketNumberLength pn largestAcked)
      (encodePacketNumberLength pn largestAcked) = pn := by
  have hlen : 8 ≤ encodePacketNumberLength pn largestAcked ∧ encodePacketNumberLength pn largestAcked ≤ 32 := by
    rw [encodePacketNumberLength]
    split_ifs <;> omega
  have hpow : 2 ^ 7 ≤ 2 ^ (encodePacketNumberLength pn largestAcked - 1) :=
    Nat.pow_le_pow_right Nat.two_pos (by omega)
  apply decodePacketNumber_of_near hpn hlen
  · cases largestAcked with
    | some la =>
      obtain ⟨hla,hgap⟩ := hacked la rfl
      have hlt := packetNumberGap_lt (show packetNumberGap pn (some la) < 2 ^ 31 from hgap)
      rw [packetNumberGap] at hlt
      change la ≤ largestPn at hbehind
      omega
    | none =>
      have hgap : packetNumberGap pn none = pn + 1 := by
        rw [packetNumberGap,saturatingAdd_eq]
        rw [u64Bound]
        omega
      have hlt := packetNumberGap_lt (show packetNumberGap pn none < 2 ^ 31 by rw [hgap]; exact hnone rfl)
      omega
  · omega

/-- A number past a block boundary, decoded by a receiver that has only seen the acknowledged one. -/
theorem decode_truncated_boundary : decodePacketNumber 0xfe (0x101 % 2 ^ 8) 8 = 0x101 :=
  decode_truncated 0x101 (some 0xfe) 0xfe (by decide) (by simp) (by simp) (by decide) (by decide)
end PureCrypto.Quic
