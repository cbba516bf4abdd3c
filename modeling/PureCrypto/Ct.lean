import Mathlib.Data.Nat.Bitwise

/-!
# Constant-time selection

The masks and selects of the `ct` module.  A `Choice` is a truth value; the barriers that keep the
compiler from branching on it have no meaning here.
-/
namespace PureCrypto.Ct
variable {w : Nat}
/-- All ones for a true choice, all zeros otherwise. -/
def mask (w : Nat) (choice : Bool) : BitVec w := -(BitVec.ofNat w choice.toNat)

def conditionalSelect (a b : BitVec w) (choice : Bool) : BitVec w := b ^^^ (mask w choice &&& (a ^^^ b))

/-- The top bit of `x | -x`. -/
def nonzero (x : BitVec w) : Bool := (x ||| -x).msb

def ctEq (x y : BitVec w) : Bool := !nonzero (x ^^^ y)

theorem mask_eq (choice : Bool) : mask w choice = if choice then BitVec.allOnes w else 0#w := by
  cases choice with
  | false => simp [mask]
  | true => exact BitVec.neg_one_eq_allOnes

@[simp] theorem conditionalSelect_eq (a b : BitVec w) (choice : Bool) :
    conditionalSelect a b choice = if choice then a else b := by
  rw [conditionalSelect,mask_eq]
  cases choice with
  | false => simp
  | true =>
    rw [if_pos rfl,if_pos rfl,BitVec.allOnes_and,BitVec.xor_comm a b,← BitVec.xor_assoc,
      BitVec.xor_self,BitVec.zero_xor]

@[simp] theorem nonzero_eq (x : BitVec w) : nonzero x = decide (x ≠ 0#w) := by
  rw [nonzero,BitVec.msb_or,BitVec.msb_neg]
  by_cases hx : x = 0#w
  · simp [hx]
  · have hw : 0 < w := by
      rcases Nat.eq_zero_or_pos w with hzero | hpos
      · subst hzero
        exact absurd (Subsingleton.elim x 0#0) hx
      · exact hpos
    by_cases hmin : x = BitVec.intMin w
    · subst hmin
      simp [hx,BitVec.msb_intMin,hw]
    · cases hmsb : x.msb <;> simp [hx,hmin]

@[simp] theorem ctEq_eq (x y : BitVec w) : ctEq x y = decide (x = y) := by
  simp [ctEq]
end PureCrypto.Ct
