import Mathlib.Algebra.QuadraticAlgebra.Basic
import Mathlib.AlgebraicGeometry.EllipticCurve.Affine.Point
import Mathlib.Data.ZMod.Basic
import Zeth.Foundation.PairingGroups

/-!
# Words for field elements and for points of `y² = x³ + b`

Numbers modulo `q` are encoded by the word of their least representative, elements of a quadratic
extension by the words of the coefficient of the adjoined root followed by those of the other one,
and points of a curve `y² = x³ + b` by the words of their coordinates, the identity by those of
`(0, 0)`, which is not on the curve.

## Main definitions

* `PairingGroups.Encoding.Canonical`, `PairingGroups.Encoding.restrict`.
* `PairingGroups.Encoding.ofZMod`, `PairingGroups.Encoding.ofQuadratic`.
* `ShortCurve`, `ShortCurve.Point`, `ShortCurve.encoding`.

## Main results

* `ShortCurve.decode_eq_some_iff`: which words encode which point.
* `ShortCurve.decode_neg`: the words of the negated point.
-/

namespace PairingGroups.Encoding

variable {W G : Type*} {n : ℕ}

/-- An element has one encoding only. -/
def Canonical (c : Encoding W G n) : Prop := ∀ ws P, c.decode ws = some P → c.encode P = ws

theorem encode_injective (c : Encoding W G n) : Function.Injective c.encode := by
  intro P Q h
  have hP := c.decode_encode P
  rw [h, c.decode_encode] at hP
  exact (Option.some.inj hP).symm

theorem Canonical.decode_eq_some_iff {c : Encoding W G n} (hc : c.Canonical) {ws : List W} {P : G} :
    c.decode ws = some P ↔ ws = c.encode P := by
  constructor
  · intro h
    exact (hc ws P h).symm
  · rintro rfl
    exact c.decode_encode P

theorem Canonical.length_of_decode {c : Encoding W G n} (hc : c.Canonical) {ws : List W} {P : G}
    (h : c.decode ws = some P) : ws.length = n := by
  rw [hc.decode_eq_some_iff.mp h, c.length_encode]

/-! ### Subgroups -/

open Classical in
/-- The elements of a subgroup, under the encoding of the group. -/
noncomputable def restrict [AddGroup G] (c : Encoding W G n) (S : AddSubgroup G) :
    Encoding W S n where
  decode ws := (c.decode ws).bind fun P => if h : P ∈ S then some ⟨P, h⟩ else none
  encode P := c.encode P
  length_encode P := c.length_encode P
  decode_encode P := by simp [c.decode_encode]

theorem decode_restrict [AddGroup G] {c : Encoding W G n} {S : AddSubgroup G} {ws : List W}
    {P : S} : (c.restrict S).decode ws = some P ↔ c.decode ws = some (P : G) := by
  simp only [restrict, Option.bind_eq_some_iff]
  constructor
  · rintro ⟨Q, hQ, hP⟩
    split_ifs at hP with hmem
    rw [hQ, ← Option.some.inj hP]
  · intro h
    exact ⟨P, h, by rw [dif_pos P.2]⟩

/-! ### Field elements -/

/-- Numbers modulo `q`, in one word. -/
def ofZMod (w q : ℕ) [NeZero q] (hq : q ≤ 2 ^ w) : Encoding (BitVec w) (ZMod q) 1 where
  decode
    | [x] => if x.toNat < q then some (x.toNat : ZMod q) else none
    | _ => none
  encode x := [BitVec.ofNat w x.val]
  length_encode _ := rfl
  decode_encode x := by
    have hx : (BitVec.ofNat w x.val).toNat = x.val := by
      rw [BitVec.toNat_ofNat, Nat.mod_eq_of_lt ((ZMod.val_lt x).trans_le hq)]
    simp only [hx, ZMod.val_lt, if_true, ZMod.natCast_val, ZMod.cast_id', id]

section ZMod

variable {w q : ℕ} [NeZero q] {hq : q ≤ 2 ^ w}

theorem decode_ofZMod {x : BitVec w} {k : ZMod q} :
    (ofZMod w q hq).decode [x] = some k ↔ x.toNat < q ∧ (x.toNat : ZMod q) = k := by
  simp [ofZMod]

theorem canonical_ofZMod : (ofZMod w q hq).Canonical := by
  rintro (_ | ⟨x, _ | ⟨y, ws⟩⟩) k h
  · simp [ofZMod] at h
  · obtain ⟨hx, rfl⟩ := decode_ofZMod.mp h
    simp [ofZMod, ZMod.val_natCast, Nat.mod_eq_of_lt hx]
  · simp [ofZMod] at h

end ZMod

/-- Elements of a quadratic extension, the coefficient of the adjoined root first. -/
def ofQuadratic {K : Type*} (c : Encoding W K n) (a b : K) :
    Encoding W (QuadraticAlgebra K a b) (n + n) where
  decode ws := (c.decode (ws.take n)).bind fun im => (c.decode (ws.drop n)).map fun re => ⟨re, im⟩
  encode z := c.encode z.im ++ c.encode z.re
  length_encode z := by rw [List.length_append, c.length_encode, c.length_encode]
  decode_encode z := by
    simp [List.take_left' (c.length_encode z.im), List.drop_left' (c.length_encode z.im),
      c.decode_encode]

section Quadratic

variable {K : Type*} {c : Encoding W K n} {a b : K}

theorem decode_ofQuadratic {p s : List W} (hp : p.length = n) {z : QuadraticAlgebra K a b} :
    (c.ofQuadratic a b).decode (p ++ s) = some z ↔
      c.decode p = some z.im ∧ c.decode s = some z.re := by
  simp only [ofQuadratic, List.take_left' hp, List.drop_left' hp, Option.bind_eq_some_iff,
    Option.map_eq_some_iff]
  constructor
  · rintro ⟨im, him, re, hre, rfl⟩
    exact ⟨him, hre⟩
  · rintro ⟨him, hre⟩
    exact ⟨z.im, him, z.re, hre, rfl⟩

end Quadratic

end PairingGroups.Encoding

open PairingGroups

/-- A curve `y² = x³ + b` without singular points. -/
structure ShortCurve (K : Type*) [Field K] where
  b : K
  two_ne_zero : (2 : K) ≠ 0
  three_ne_zero : (3 : K) ≠ 0
  b_ne_zero : b ≠ 0

namespace ShortCurve

variable {K : Type*} [Field K] (E : ShortCurve K)

/-- The curve in Weierstrass form. -/
def toAffine : WeierstrassCurve.Affine K := ⟨0, 0, 0, 0, E.b⟩

/-- The points of the curve, with the identity. -/
abbrev Point := E.toAffine.Point

theorem nonsingular_iff {x y : K} : E.toAffine.Nonsingular x y ↔ y ^ 2 = x ^ 3 + E.b := by
  have hΔ : E.toAffine.Δ ≠ 0 := by
    have h : E.toAffine.Δ = -(2 ^ 4 * 3 ^ 3 * E.b ^ 2) := by
      simp only [WeierstrassCurve.Δ, WeierstrassCurve.b₂, WeierstrassCurve.b₄,
        WeierstrassCurve.b₆, WeierstrassCurve.b₈, toAffine]
      ring
    rw [h]
    exact neg_ne_zero.mpr (mul_ne_zero (mul_ne_zero (pow_ne_zero 4 E.two_ne_zero)
      (pow_ne_zero 3 E.three_ne_zero)) (pow_ne_zero 2 E.b_ne_zero))
  rw [← E.toAffine.equation_iff_nonsingular_of_Δ_ne_zero hΔ, WeierstrassCurve.Affine.equation_iff]
  simp [toAffine]

/-- The point with the given coordinates. -/
def point (x y : K) (h : y ^ 2 = x ^ 3 + E.b) : E.Point := .some x y (E.nonsingular_iff.mpr h)

theorem neg_point {x y : K} (h : y ^ 2 = x ^ 3 + E.b) :
    -E.point x y h = E.point x (-y) ((neg_sq y).trans h) := by
  have hy : E.toAffine.negY x y = -y := by simp [WeierstrassCurve.Affine.negY, toAffine]
  simp only [point, WeierstrassCurve.Affine.Point.neg_some, hy]

/-- The coordinates of a point other than the identity. -/
def coordinates : E.Point → Option (K × K)
  | .zero => none
  | .some x y _ => some (x, y)

/-- The identity is written `(0, 0)`, which is not on the curve. -/
theorem not_origin {x y : K} (h : y ^ 2 = x ^ 3 + E.b) : ¬ (x = 0 ∧ y = 0) := by
  rintro ⟨rfl, rfl⟩
  exact E.b_ne_zero (by simpa using h.symm)

variable [DecidableEq K] {W : Type*} {n : ℕ} (c : Encoding W K n)

/-- Points by the words of their coordinates. -/
def encoding : Encoding W E.Point (n + n) where
  decode ws := (c.decode (ws.take n)).bind fun x => (c.decode (ws.drop n)).bind fun y =>
    if x = 0 ∧ y = 0 then some 0
    else if h : y ^ 2 = x ^ 3 + E.b then some (E.point x y h) else none
  encode
    | .zero => c.encode 0 ++ c.encode 0
    | .some x y _ => c.encode x ++ c.encode y
  length_encode P := by
    rcases P with _ | ⟨x, y, h⟩ <;> simp only [List.length_append, c.length_encode]
  decode_encode P := by
    rcases P with _ | ⟨x, y, h⟩
    · simp [List.take_left' (c.length_encode 0), List.drop_left' (c.length_encode 0),
        c.decode_encode, WeierstrassCurve.Affine.Point.zero_def]
    · have hxy := E.nonsingular_iff.mp h
      simp [List.take_left' (c.length_encode x), List.drop_left' (c.length_encode x),
        c.decode_encode, E.not_origin hxy, hxy, point]

variable {E c}

/-- The words of two coordinates encode the identity if both are zero, and otherwise the point with
these coordinates if it is on the curve. -/
theorem decode_eq_some_iff {p s : List W} (hp : p.length = n) {P : E.Point} :
    (E.encoding c).decode (p ++ s) = some P ↔
      ∃ x y, c.decode p = some x ∧ c.decode s = some y ∧
        ((x = 0 ∧ y = 0 ∧ P = 0) ∨ ∃ h : y ^ 2 = x ^ 3 + E.b, P = E.point x y h) := by
  simp only [encoding, List.take_left' hp, List.drop_left' hp, Option.bind_eq_some_iff]
  constructor
  · rintro ⟨x, hx, y, hy, h⟩
    refine ⟨x, y, hx, hy, ?_⟩
    split_ifs at h with horigin hcurve
    · exact .inl ⟨horigin.1, horigin.2, (Option.some.inj h).symm⟩
    · exact .inr ⟨hcurve, (Option.some.inj h).symm⟩
  · rintro ⟨x, y, hx, hy, ⟨rfl, rfl, rfl⟩ | ⟨h, rfl⟩⟩
    · exact ⟨0, hx, 0, hy, if_pos ⟨rfl, rfl⟩⟩
    · exact ⟨x, hx, y, hy, by rw [if_neg (E.not_origin h), dif_pos h]⟩

theorem canonical_encoding (hc : c.Canonical) : (E.encoding c).Canonical := by
  intro ws P h
  have hlen : (ws.take n).length = n := by
    simp only [encoding, Option.bind_eq_some_iff] at h
    obtain ⟨x, hx, -⟩ := h
    exact hc.length_of_decode hx
  rw [← ws.take_append_drop n, decode_eq_some_iff hlen] at h
  obtain ⟨x, y, hx, hy, ⟨rfl, rfl, rfl⟩ | ⟨h, rfl⟩⟩ := h
  · exact (congrArg₂ (· ++ ·) (hc _ _ hx) (hc _ _ hy)).trans (ws.take_append_drop n)
  · exact (congrArg₂ (· ++ ·) (hc _ _ hx) (hc _ _ hy)).trans (ws.take_append_drop n)

/-- The negated point has the same words for the first coordinate. -/
theorem decode_neg {p s s' : List W} (hp : p.length = n) {y : K} {P : E.Point}
    (h : (E.encoding c).decode (p ++ s) = some P) (hs : c.decode s = some y)
    (hs' : c.decode s' = some (-y)) : (E.encoding c).decode (p ++ s') = some (-P) := by
  obtain ⟨x, y', hx, hy, hP⟩ := (decode_eq_some_iff hp).mp h
  obtain rfl := Option.some.inj (hs.symm.trans hy)
  rw [decode_eq_some_iff hp]
  refine ⟨x, -y, hx, hs', ?_⟩
  rcases hP with ⟨rfl, rfl, rfl⟩ | ⟨hcurve, rfl⟩
  · exact .inl ⟨rfl, neg_zero, neg_zero⟩
  · exact .inr ⟨(neg_sq y).trans hcurve, E.neg_point hcurve⟩

end ShortCurve
