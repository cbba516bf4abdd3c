import Mathlib.Algebra.Module.Basic
import Mathlib.Tactic.FieldSimp
import Mathlib.Tactic.Module

/-! # Ring signatures and the ECDSA relation -/
namespace PureCrypto.RingSignature
structure Scheme (F P τ : Type*) where
  generator : P
  encode : P → τ
  /-- Of what was encoded last, for the member at a position. -/
  challenge : τ → Nat → F
namespace Scheme
variable {F P τ : Type*} [CommRing F] [AddCommGroup P] [Module F P] (S : Scheme F P τ)
/-- The point of a member. -/
def point (j : Nat) (prev : τ) (x : F × P) : P := x.1 • S.generator + S.challenge prev j • x.2

def walk : Nat → τ → List (F × P) → τ
  | _, prev, [] => prev
  | j, prev, x :: xs => walk (j + 1) (S.encode (S.point j prev x)) xs
def points : Nat → τ → List (F × P) → List P
  | _, _, [] => []
  | j, prev, x :: xs => S.point j prev x :: points (j + 1) (S.encode (S.point j prev x)) xs

theorem walk_append (j : Nat) (prev : τ) (xs ys : List (F × P)) :
    S.walk j prev (xs ++ ys) = S.walk (j + xs.length) (S.walk j prev xs) ys := by
  induction xs generalizing j prev with
  | nil => rfl
  | cons x xs ih => rw [List.cons_append,walk,ih,walk,List.length_cons,Nat.add_right_comm,Nat.add_assoc]

/-- The scalar that takes the signer's point to its nonce's. -/
def response (secret nonce : F) (j : Nat) (prev : τ) : F := nonce - S.challenge prev j * secret

theorem point_response (secret nonce : F) (j : Nat) (prev : τ) :
    S.point j prev (S.response secret nonce j prev, secret • S.generator) = nonce • S.generator := by
  rw [point,response]
  module

theorem walk_response (secret nonce : F) (j : Nat) (prev : τ) (xs ys : List (F × P)) :
    S.walk j prev (xs ++ (S.response secret nonce (j + xs.length) (S.walk j prev xs), secret • S.generator) ::
        ys) = S.walk (j + xs.length + 1) (S.encode (nonce • S.generator)) ys := by
  rw [walk_append,walk,point_response]
end Scheme
end PureCrypto.RingSignature
namespace PureCrypto.Ecdsa
/-- The commitment of a proof of equal logarithms comes back from the response. -/
theorem commitment_of_response {R P : Type*} [CommRing R] [AddCommGroup P] [Module R P] (base : P) (a b k : R) :
    (a + b * k) • base + -b • k • base = a • base := by
  module
variable {F P : Type*} [Field F] [AddCommGroup P] [Module F P]
def point (generator key : P) (m r s : F) : P := (s⁻¹ * m) • generator + (s⁻¹ * r) • key

theorem point_neg (generator key : P) (m r s : F) : point generator key m r (-s) = -point generator key m r s := by
  rw [point,point]
  module

theorem point_mul_inv (generator key : P) (m r s y : F) :
    point generator key m r (s * y⁻¹) = y • point generator key m r s := by
  rw [point,point,mul_inv,inv_inv]
  module

theorem point_sign (generator : P) {m r x k : F} (hk : k ≠ 0) (hs : k⁻¹ * (m + r * x) ≠ 0) :
    point generator (x • generator) m r (k⁻¹ * (m + r * x)) = k • generator := by
  have hsum : m + r * x ≠ 0 := right_ne_zero_of_mul hs
  have hscalar : (k⁻¹ * (m + r * x))⁻¹ * m + (k⁻¹ * (m + r * x))⁻¹ * r * x = k := by
    field_simp
  rw [point,smul_smul,← add_smul,hscalar]
end PureCrypto.Ecdsa
