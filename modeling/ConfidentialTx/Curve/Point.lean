import ConfidentialTx.Curve.Field
import ConfidentialTx.Curve.Scalar

namespace ConfidentialTx

inductive Point
  | infinity
  | affine (x y : Field)
  deriving DecidableEq

namespace Point

def cubic (x : Field) : Field :=
  x * x * x + 7

def IsOnCurve : Point → Prop
  | infinity => True
  | affine x y => y * y = cubic x

instance (p : Point) : Decidable p.IsOnCurve := by
  cases p <;> unfold IsOnCurve <;> infer_instance

instance : Zero Point := ⟨infinity⟩

def neg : Point → Point
  | infinity => infinity
  | affine x y => affine x (-y)

instance : Neg Point := ⟨neg⟩

/-- The third point on the line of the given slope through `(x₁, y₁)` and a point at `x₂`,
reflected. -/
def along (slope x₁ y₁ x₂ : Field) : Point :=
  let x := slope * slope - x₁ - x₂
  affine x (slope * (x₁ - x) - y₁)

def add : Point → Point → Point
  | infinity, q => q
  | p, infinity => p
  | affine x₁ y₁, affine x₂ y₂ =>
    if x₁ = x₂ then
      if y₁ = y₂ ∧ y₁ ≠ 0 then along (3 * x₁ * x₁ * (y₁ + y₁).inv) x₁ y₁ x₂ else infinity
    else along ((y₂ - y₁) * (x₂ - x₁).inv) x₁ y₁ x₂

instance : Add Point := ⟨add⟩

instance : Sub Point := ⟨fun p q ↦ p + -q⟩

def sum (ps : List Point) : Point :=
  ps.foldl (· + ·) 0

/-- The point with this first coordinate whose second coordinate is a square. -/
def ofSquareY? (x : Field) : Option Point :=
  (cubic x).sqrt?.map (affine x)

def ofParityY? (x : Field) (odd : Bool) : Option Point :=
  (cubic x).sqrt?.map fun y ↦ affine x (if y.isOdd = odd then y else -y)

end Point

end ConfidentialTx
