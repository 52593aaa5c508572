import ConfidentialTx.Curve.Point

namespace ConfidentialTx

structure Jacobian where
  x : Field
  y : Field
  z : Field

namespace Jacobian

def infinity : Jacobian := ⟨1, 1, 0⟩

def ofPoint : Point → Jacobian
  | .infinity => infinity
  | .affine x y => ⟨x, y, 1⟩

def toPoint (p : Jacobian) : Point :=
  if p.z = 0 then .infinity
  else
    let i := p.z.inv
    let i₂ := i * i
    .affine (p.x * i₂) (p.y * (i₂ * i))

def double (p : Jacobian) : Jacobian :=
  let a := p.x * p.x
  let b := p.y * p.y
  let c := b * b
  let t := p.x * b
  let t₂ := t + t
  let d := t₂ + t₂
  let e := a + a + a
  let x := e * e - (d + d)
  let c₂ := c + c
  let c₄ := c₂ + c₂
  ⟨x, e * (d - x) - (c₄ + c₄), (p.y + p.y) * p.z⟩

def add (p q : Jacobian) : Jacobian :=
  if p.z = 0 then q
  else if q.z = 0 then p
  else
    let zp := p.z * p.z
    let zq := q.z * q.z
    let u := p.x * zq
    let s := p.y * (zq * q.z)
    let h := q.x * zp - u
    let r := q.y * (zp * p.z) - s
    if h = 0 then if r = 0 then p.double else infinity
    else
      let h₂ := h * h
      let h₃ := h₂ * h
      let v := u * h₂
      let x := r * r - h₃ - (v + v)
      ⟨x, r * (v - x) - s * h₃, p.z * q.z * h⟩

/-- `a * p + b * q`, for factors below `2 ^ 256`, by doubling once for each pair of bits. -/
def mulAdd (a : Nat) (p : Jacobian) (b : Nat) (q : Jacobian) : Jacobian :=
  let both := p.add q
  ((bits 256 a).zip (bits 256 b)).foldl (fun r pair ↦
    match pair with
    | (true, true) => r.double.add both
    | (true, false) => r.double.add p
    | (false, true) => r.double.add q
    | (false, false) => r.double) infinity

def mul (a : Nat) (p : Jacobian) : Jacobian :=
  (bits 256 a).foldl (fun r bit ↦ if bit then r.double.add p else r.double) infinity

end Jacobian

namespace Point

def mul (a : Scalar) (p : Point) : Point :=
  (Jacobian.mul a.val (.ofPoint p)).toPoint

def mulAdd (a : Scalar) (p : Point) (b : Scalar) (q : Point) : Point :=
  (Jacobian.mulAdd a.val (.ofPoint p) b.val (.ofPoint q)).toPoint

end Point

end ConfidentialTx
