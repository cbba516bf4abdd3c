import Mathlib.Algebra.Field.ZMod
import Mathlib.AlgebraicGeometry.EllipticCurve.Affine.Point
import Mathlib.Tactic.LinearCombination

/-!
# Complete addition

Addition and doubling of projective points on `y² = x³ + 7` (`ec/secp256k1/group.rs`), with the operations of any
field for those of the field backend.  The straight-line code keeps the names and the reuse of its variables.
-/
namespace PureCrypto.Ec
open WeierstrassCurve WeierstrassCurve.Affine
variable {F : Type*} [Field F]
/-- A point in projective coordinates. -/
structure Point (F : Type*) where
  x : F
  y : F
  z : F
namespace Point
/-- Three times the constant of the curve. -/
def b3 : Nat := 21

def add (p q : Point F) : Point F :=
  let t0 := p.x * q.x
  let t1 := p.y * q.y
  let t2 := p.z * q.z
  let t3 := p.x + p.y
  let t4 := q.x + q.y
  let t3 := t3 * t4
  let t4 := t0 + t1
  let t3 := t3 - t4
  let t4 := p.y + p.z
  let x3 := q.y + q.z
  let t4 := t4 * x3
  let x3 := t1 + t2
  let t4 := t4 - x3
  let x3 := p.x + p.z
  let y3 := q.x + q.z
  let x3 := x3 * y3
  let y3 := t0 + t2
  let y3 := x3 - y3
  let x3 := t0 + t0
  let t0 := x3 + t0
  let t2 := t2 * b3
  let z3 := t1 + t2
  let t1 := t1 - t2
  let y3 := y3 * b3
  let x3 := t4 * y3
  let t2 := t3 * t1
  let x3 := t2 - x3
  let y3 := y3 * t0
  let t1 := t1 * z3
  let y3 := t1 + y3
  let t0 := t0 * t3
  let z3 := z3 * t4
  let z3 := z3 + t0
  ⟨x3, y3, z3⟩

def addMixed (p : Point F) (x2 y2 : F) : Point F :=
  let t0 := p.x * x2
  let t1 := p.y * y2
  let t3 := x2 + y2
  let t4 := p.x + p.y
  let t3 := t3 * t4
  let t4 := t0 + t1
  let t3 := t3 - t4
  let t4 := y2 * p.z
  let t4 := t4 + p.y
  let y3 := x2 * p.z
  let y3 := y3 + p.x
  let x3 := t0 + t0
  let t0 := x3 + t0
  let t2 := p.z * b3
  let z3 := t1 + t2
  let t1 := t1 - t2
  let y3 := y3 * b3
  let x3 := t4 * y3
  let t2 := t3 * t1
  let x3 := t2 - x3
  let y3 := y3 * t0
  let t1 := t1 * z3
  let y3 := t1 + y3
  let t0 := t0 * t3
  let z3 := z3 * t4
  let z3 := z3 + t0
  ⟨x3, y3, z3⟩

def double (p : Point F) : Point F :=
  let t0 := p.y * p.y
  let z3 := t0 + t0
  let z3 := z3 + z3
  let z3 := z3 + z3
  let t1 := p.y * p.z
  let t2 := p.z * p.z
  let t2 := t2 * b3
  let x3 := t2 * z3
  let y3 := t0 + t2
  let z3 := t1 * z3
  let t1 := t2 + t2
  let t2 := t1 + t2
  let t0 := t0 - t2
  let y3 := t0 * y3
  let y3 := x3 + y3
  let t1 := p.x * p.y
  let x3 := t0 * t1
  let x3 := x3 + x3
  ⟨x3, y3, z3⟩
end Point
/-- The curve `y² = x³ + 7`. -/
def curve (F : Type*) [Field F] : WeierstrassCurve.Affine F := ⟨0, 0, 0, 0, 7⟩
namespace Point
/-- The coordinates satisfy the projective equation and are not all zero. -/
def OnCurve (p : Point F) : Prop :=
  p.y ^ 2 * p.z = p.x ^ 3 + 7 * p.z ^ 3 ∧ ¬(p.x = 0 ∧ p.y = 0 ∧ p.z = 0)

/-- The coordinates stand for a point of the curve, those with `z = 0` for the identity. -/
def Represents (p : Point F) : (curve F).Point → Prop
  | .zero => p.x = 0 ∧ p.y ≠ 0 ∧ p.z = 0
  | .some x y _ => p.x = x * p.z ∧ p.y = y * p.z ∧ p.z ≠ 0
end Point
variable {x₁ y₁ x₂ y₂ : F} {p q : Point F} {A B : (curve F).Point}
theorem equation_iff : (curve F).Equation x₁ y₁ ↔ y₁ ^ 2 = x₁ ^ 3 + 7 := by
  simp [WeierstrassCurve.Affine.equation_iff,curve]

theorem negY_eq (x y : F) : (curve F).negY x y = -y := by simp [negY,curve]
theorem addX_eq (x₁ x₂ l : F) : (curve F).addX x₁ x₂ l = l ^ 2 - x₁ - x₂ := by simp [addX,curve]

theorem addY_eq (x₁ x₂ y₁ l : F) : (curve F).addY x₁ x₂ y₁ l = l * (2 * x₁ + x₂ - l ^ 2) - y₁ := by
  rw [addY,negY_eq,negAddY,addX_eq]
  ring
namespace Point
theorem add_eq (p q : Point F) : p.add q = ⟨(p.x * q.y + q.x * p.y) * (p.y * q.y - 21 * (p.z * q.z)) -
        21 * (p.y * q.z + q.y * p.z) * (p.x * q.z + q.x * p.z),
      (p.y * q.y - 21 * (p.z * q.z)) * (p.y * q.y + 21 * (p.z * q.z)) + 63 * (p.x * q.x) * (p.x * q.z + q.x * p.z),
      (p.y * q.y + 21 * (p.z * q.z)) * (p.y * q.z + q.y * p.z) + 3 * (p.x * q.x) * (p.x * q.y + q.x * p.y)⟩ := by
  simp only [add,b3,mk.injEq,Nat.cast_ofNat]
  refine ⟨?_,?_,?_⟩ <;> ring

theorem add_comm (p q : Point F) : p.add q = q.add p := by
  simp only [add_eq,mk.injEq]
  refine ⟨?_,?_,?_⟩ <;> ring
theorem addMixed_eq (p : Point F) (x y : F) : p.addMixed x y = p.add ⟨x, y, 1⟩ := by
  simp only [addMixed,add_eq,b3,mk.injEq,Nat.cast_ofNat]
  refine ⟨?_,?_,?_⟩ <;> ring

/-- On the curve the doubling formulas are those of the addition. -/
theorem double_eq (h : p.y ^ 2 * p.z = p.x ^ 3 + 7 * p.z ^ 3) : p.double = p.add p := by
  simp only [double,add_eq,b3,mk.injEq,Nat.cast_ofNat]
  refine ⟨by ring,?_,?_⟩
  · linear_combination 126 * p.z * h
  · linear_combination 6 * p.y * h

/-- The third point of the line of slope `l` through two points, which is the tangent if they are equal. -/
theorem add_eq_of_line {l : F} (e₁ : y₁ ^ 2 = x₁ ^ 3 + 7)
    (hline : l * (x₁ - x₂) = y₁ - y₂) (hslope : l * (y₁ + y₂) = x₁ ^ 2 + x₁ * x₂ + x₂ ^ 2) :
    let r := (mk x₁ y₁ 1).add ⟨x₂,y₂,1⟩
    r.x = (l ^ 2 - x₁ - x₂) * r.z ∧ r.y = (l * (2 * x₁ + x₂ - l ^ 2) - y₁) * r.z := by
  simp only [add_eq]
  grind

theorem slope_spec [DecidableEq F] (h₁ : (curve F).Equation x₁ y₁) (h₂ : (curve F).Equation x₂ y₂) (hxy : ¬(x₁ = x₂ ∧ y₁ = -y₂)) :
    (curve F).slope x₁ x₂ y₁ y₂ * (x₁ - x₂) = y₁ - y₂ ∧
    (curve F).slope x₁ x₂ y₁ y₂ * (y₁ + y₂) = x₁ ^ 2 + x₁ * x₂ + x₂ ^ 2 := by
  have e₁ := equation_iff.mp h₁
  have e₂ := equation_iff.mp h₂
  by_cases hx : x₁ = x₂
  · subst hx
    rw [slope_of_Y_ne rfl (by rw [negY_eq]; grind),negY_eq]
    simp only [curve]
    grind
  · rw [slope_of_X_ne hx]
    grind

theorem Represents.equation (h : p.Represents A) : p.y ^ 2 * p.z = p.x ^ 3 + 7 * p.z ^ 3 := by
  cases A with
  | zero => simp [h.1,h.2.2]
  | some x y hA =>
    rw [h.1,h.2.1]
    linear_combination p.z ^ 3 * equation_iff.mp hA.1

theorem Represents.scale (h : p.Represents A) {c : F} (hc : c ≠ 0) :
    (mk (c * p.x) (c * p.y) (c * p.z)).Represents A := by
  cases A with
  | zero => exact ⟨by simp [h.1],mul_ne_zero hc h.2.1,by simp [h.2.2]⟩
  | some => exact ⟨by rw [h.1]; ring,by rw [h.2.1]; ring,mul_ne_zero hc h.2.2⟩
end Point
-- the hypothesis excludes points of order two, and with `1` and `-1` the characteristics two and three
variable (h7 : ∀ x : F, x ^ 3 ≠ -7)
include h7
theorem two_ne : (2 : F) ≠ 0 := fun h => h7 1 (by linear_combination 4 * h)

theorem y_ne_zero (h : (curve F).Equation x₁ y₁) : y₁ ≠ 0 := by
  rintro rfl
  exact h7 x₁ (by linear_combination -equation_iff.mp h)

theorem nonsingular_iff : (curve F).Nonsingular x₁ y₁ ↔ y₁ ^ 2 = x₁ ^ 3 + 7 := by
  rw [← equation_iff]
  refine ⟨And.left,fun h => (WeierstrassCurve.Affine.nonsingular_iff ..).mpr ⟨h,.inr fun hy => ?_⟩⟩
  refine mul_ne_zero (two_ne h7) (y_ne_zero h7 h) ?_
  simp only [curve] at hy
  linear_combination hy
namespace Point
theorem onCurve_iff : p.OnCurve ↔ ∃ A, p.Represents A := by
  constructor
  · rintro ⟨heq,hne⟩
    by_cases hz : p.z = 0
    · have hx : p.x = 0 := by simpa [hz] using heq.symm
      exact ⟨.zero,hx,fun hy => hne ⟨hx,hy,hz⟩,hz⟩
    · refine ⟨.some (p.x / p.z) (p.y / p.z) ((nonsingular_iff h7).mpr ?_),?_,?_,hz⟩
      · field_simp
        linear_combination heq
      · field_simp
      · field_simp
  · rintro ⟨A,h⟩
    refine ⟨h.equation,fun ⟨_,hy,hz⟩ => ?_⟩
    cases A with
    | zero => exact h.2.1 hy
    | some => exact h.2.2 hz

theorem Represents.y_ne_zero (h : p.Represents A) : p.y ≠ 0 := by
  cases A with
  | zero => exact h.2.1
  | some x y hA => exact h.2.1 ▸ mul_ne_zero (Ec.y_ne_zero h7 hA.1) h.2.2

theorem represents_identity_add (hp : p.Represents .zero) (hq : q.Represents A) : (p.add q).Represents A := by
  obtain ⟨hx,hy,hz⟩ := hp
  convert hq.scale (mul_ne_zero (pow_ne_zero 2 hy) (hq.y_ne_zero h7)) using 1
  simp only [add_eq,mk.injEq,hx,hz]
  refine ⟨?_,?_,?_⟩ <;> ring
variable [DecidableEq F]
/-- The difference of two points that differ is a point, so its ordinate does not vanish. -/
theorem difference (h₁ : (curve F).Equation x₁ y₁) (h₂ : (curve F).Equation x₂ y₂) (hxy : ¬(x₁ = x₂ ∧ y₁ = y₂)) :
    ∃ l, l * (x₁ - x₂) = y₁ + y₂ ∧ l * (y₁ - y₂) = x₁ ^ 2 + x₁ * x₂ + x₂ ^ 2 ∧
      l * (2 * x₁ + x₂ - l ^ 2) - y₁ ≠ 0 := by
  have hneg := (equation_neg x₂ y₂).mpr h₂
  have hne := y_ne_zero h7 (equation_add h₁ hneg (by rwa [negY_negY]))
  rw [negY_eq] at hneg
  obtain ⟨hline,hslope⟩ := slope_spec h₁ hneg (by rwa [neg_neg])
  rw [addY_eq,negY_eq] at hne
  exact ⟨_,by rw [hline,sub_neg_eq_add],by rw [← hslope,sub_eq_add_neg],hne⟩

theorem add_z_ne_zero (h₁ : (curve F).Equation x₁ y₁) (h₂ : (curve F).Equation x₂ y₂)
    (hxy : ¬(x₁ = x₂ ∧ y₁ = -y₂)) : ((mk x₁ y₁ 1).add ⟨x₂, y₂, 1⟩).z ≠ 0 := by
  have e₁ := equation_iff.mp h₁
  have e₂ := equation_iff.mp h₂
  simp only [add_eq,mul_one]
  by_cases hx : x₁ = x₂
  · have hz : (y₁ * y₂ + 21) * (y₁ + y₂) + 3 * (x₁ * x₂) * (x₁ * y₂ + x₂ * y₁) = (2 * y₁) ^ 3 := by grind
    rw [hz]
    exact pow_ne_zero 3 (mul_ne_zero (two_ne h7) (y_ne_zero h7 h₁))
  · obtain ⟨l,hline,hslope,hne⟩ := difference h7 h₁ h₂ fun h => hx h.1
    have hz : (y₁ * y₂ + 21) * (y₁ + y₂) + 3 * (x₁ * x₂) * (x₁ * y₂ + x₂ * y₁) =
        -((x₁ - x₂) ^ 3 * (l * (2 * x₁ + x₂ - l ^ 2) - y₁)) := by
      grind
    rw [hz]
    exact neg_ne_zero.mpr (mul_ne_zero (pow_ne_zero 3 (sub_ne_zero.mpr hx)) hne)

theorem represents_affine (h₁ : (curve F).Nonsingular x₁ y₁) (h₂ : (curve F).Nonsingular x₂ y₂) :
    ((mk x₁ y₁ 1).add ⟨x₂, y₂, 1⟩).Represents (.some x₁ y₁ h₁ + .some x₂ y₂ h₂) := by
  by_cases hxy : x₁ = x₂ ∧ y₁ = -y₂
  · rw [Affine.Point.add_of_Y_eq hxy.1 (by rw [negY_eq,hxy.2]),add_eq]
    obtain ⟨rfl,hy⟩ := hxy
    have e₁ := equation_iff.mp h₁.1
    have hpos := mul_ne_zero (two_ne h7) (y_ne_zero h7 h₁.1)
    obtain ⟨l,-,hslope,hne⟩ := difference h7 h₁.1 h₂.1 fun h => hpos (by linear_combination hy + h.2)
    -- the ordinate is a multiple of that of the double of the first point
    refine ⟨by simp [hy],fun hzero => mul_ne_zero (pow_ne_zero 3 hpos) hne ?_,by simp [hy]⟩
    grind
  · obtain ⟨hline,hslope⟩ := slope_spec h₁.1 h₂.1 hxy
    obtain ⟨hx,hy⟩ := add_eq_of_line (equation_iff.mp h₁.1) hline hslope
    rw [Affine.Point.add_some (by rwa [negY_eq])]
    exact ⟨by rw [hx,addX_eq],by rw [hy,addY_eq],add_z_ne_zero h7 h₁.1 h₂.1 hxy⟩

theorem represents_add (hp : p.Represents A) (hq : q.Represents B) : (p.add q).Represents (A + B) := by
  cases A with
  | zero => exact (zero_add B).symm ▸ represents_identity_add h7 hp hq
  | some x₁ y₁ h₁ =>
    cases B with
    | zero => exact add_comm q p ▸ represents_identity_add h7 hq hp
    | some x₂ y₂ h₂ =>
      obtain ⟨hx₁,hy₁,hz₁⟩ := hp
      obtain ⟨hx₂,hy₂,hz₂⟩ := hq
      convert (represents_affine h7 h₁ h₂).scale (pow_ne_zero 2 (mul_ne_zero hz₁ hz₂)) using 1
      simp only [add_eq,mk.injEq,hx₁,hy₁,hx₂,hy₂]
      refine ⟨?_,?_,?_⟩ <;> ring

/-- The formulas are complete: the coordinates on the curve are those that stand for a point, and the operations give
coordinates of the sum. -/
theorem add_complete : (∀ p : Point F, p.OnCurve ↔ ∃ A, p.Represents A) ∧
    ∀ (p : Point F) (A : (curve F).Point), p.Represents A →
      (∀ (q : Point F) (B : (curve F).Point), q.Represents B → (p.add q).Represents (A + B)) ∧
      p.double.Represents (A + A) ∧
      ∀ (x y : F) (h : (curve F).Nonsingular x y), (p.addMixed x y).Represents (A + .some x y h) := by
  refine ⟨fun p => onCurve_iff h7,fun p A hp => ⟨fun q B => represents_add h7 hp,?_,fun x y h => ?_⟩⟩
  · rw [double_eq hp.equation]
    exact represents_add h7 hp hp
  · rw [addMixed_eq]
    exact represents_add h7 hp ⟨(mul_one x).symm,(mul_one y).symm,one_ne_zero⟩

omit h7

local instance prime_thirteen : Fact (Nat.Prime 13) := ⟨by decide⟩

/-- A point added to itself, to its negative and to another one. -/
theorem add_complete_zmod_thirteen : (∀ x : ZMod 13, x ^ 3 ≠ -7) ∧
    ∃ (h : (curve (ZMod 13)).Nonsingular 7 5) (h' : (curve (ZMod 13)).Nonsingular 7 8)
      (k : (curve (ZMod 13)).Nonsingular 8 5),
      let p : Point (ZMod 13) := ⟨7, 5, 1⟩
      (p.add p).Represents (.some 7 5 h + .some 7 5 h) ∧ (p.add ⟨7, 8, 1⟩).Represents (.some 7 5 h + .some 7 8 h') ∧
        p.double.Represents (.some 7 5 h + .some 7 5 h) ∧ (p.addMixed 8 5).Represents (.some 7 5 h + .some 8 5 k) := by
  have h7 : ∀ x : ZMod 13, x ^ 3 ≠ -7 := by decide
  have hpoint : ∀ {x y : ZMod 13}, y ^ 2 = x ^ 3 + 7 → (curve (ZMod 13)).Nonsingular x y := (nonsingular_iff h7).mpr
  have hp : (⟨7, 5, 1⟩ : Point (ZMod 13)).Represents (.some 7 5 (hpoint (by decide))) := ⟨by decide,by decide,by decide⟩
  obtain ⟨hadd,hdouble,hmixed⟩ := (add_complete h7).2 _ _ hp
  exact ⟨h7,hpoint (by decide),hpoint (by decide),hpoint (by decide),hadd _ _ hp,
    hadd _ _ ⟨by decide,by decide,by decide⟩,hdouble,hmixed 8 5 _⟩
end Point
end PureCrypto.Ec
