import Mathlib.Algebra.Field.ZMod
import Mathlib.GroupTheory.Perm.Cycle.Type
import Mathlib.Tactic.FieldSimp
import Mathlib.Tactic.LinearCombination
import Zeth.Foundation.CurvePoints

/-!
# The number of points of a curve

Multiples of a point of `y² = x³ + b` are computed by doubling and adding in Jacobian coordinates,
where `(X, Y, Z)` stands for the point `(X / Z², Y / Z³)`, so that no inverse is computed. A curve over
`K` has at most `2 |K| + 1` points. A prime `r` is their number if it is the order of a point, there is
no point of order two, and three times `r` is more than this bound.

## Main definitions

* `ShortCurve.Represents`, `ShortCurve.double`, `ShortCurve.addPoint`: Jacobian coordinates.
* `ShortCurve.multipleMod`: a multiple of a point over `ZMod q`, on numbers.

## Main results

* `ShortCurve.represents_multipleMod`: the multiple is that of the group.
* `ShortCurve.card_point_eq`: the number of points.
-/

namespace ShortCurve

variable {K : Type*} [Field K] {E : ShortCurve K}

/-! ### Sums of points -/

theorem negY_toAffine (x y : K) : E.toAffine.negY x y = -y := by
  simp [WeierstrassCurve.Affine.negY, toAffine]

theorem addX_toAffine (x₁ x₂ l : K) : E.toAffine.addX x₁ x₂ l = l ^ 2 - x₁ - x₂ := by
  simp [WeierstrassCurve.Affine.addX, toAffine]

theorem addY_toAffine (x₁ x₂ y₁ l : K) :
    E.toAffine.addY x₁ x₂ y₁ l = l * (x₁ - (l ^ 2 - x₁ - x₂)) - y₁ := by
  rw [WeierstrassCurve.Affine.addY, negY_toAffine, WeierstrassCurve.Affine.negAddY, addX_toAffine]
  ring

theorem exists_eq_point {P : E.Point} {x y : K} {h : E.toAffine.Nonsingular x y}
    (hP : P = .some x y h) : ∃ h', P = E.point x y h' :=
  ⟨E.nonsingular_iff.mp h, hP⟩

section Affine

variable [DecidableEq K]

/-- The tangent, by its slope. -/
theorem point_add_self {x y l : K} (h : y ^ 2 = x ^ 3 + E.b) (hy : y ≠ 0)
    (hl : l * (2 * y) = 3 * x ^ 2) :
    ∃ h', E.point x y h + E.point x y h =
      E.point (l ^ 2 - x - x) (l * (x - (l ^ 2 - x - x)) - y) h' := by
  have h2y : 2 * y ≠ 0 := mul_ne_zero E.two_ne_zero hy
  have hne : y ≠ E.toAffine.negY x y := by
    rw [negY_toAffine]
    intro hneg
    exact h2y (by linear_combination hneg)
  have hslope : E.toAffine.slope x x y y = l := by
    rw [WeierstrassCurve.Affine.slope_of_Y_ne rfl hne, negY_toAffine]
    simp only [toAffine]
    rw [div_eq_iff (by rw [sub_neg_eq_add, ← two_mul]; exact h2y)]
    linear_combination -hl
  have hadd : E.point x y h + E.point x y h = .some _ _ _ :=
    WeierstrassCurve.Affine.Point.add_self_of_Y_ne hne
  simp only [hslope, addX_toAffine, addY_toAffine] at hadd
  exact exists_eq_point hadd

/-- The chord, by its slope. -/
theorem point_add {x₁ y₁ x₂ y₂ l : K} (h₁ : y₁ ^ 2 = x₁ ^ 3 + E.b) (h₂ : y₂ ^ 2 = x₂ ^ 3 + E.b)
    (hx : x₁ ≠ x₂) (hl : l * (x₁ - x₂) = y₁ - y₂) :
    ∃ h', E.point x₁ y₁ h₁ + E.point x₂ y₂ h₂ =
      E.point (l ^ 2 - x₁ - x₂) (l * (x₁ - (l ^ 2 - x₁ - x₂)) - y₁) h' := by
  have hslope : E.toAffine.slope x₁ x₂ y₁ y₂ = l := by
    rw [WeierstrassCurve.Affine.slope_of_X_ne hx, div_eq_iff (sub_ne_zero.mpr hx), hl]
  have hadd : E.point x₁ y₁ h₁ + E.point x₂ y₂ h₂ = .some _ _ _ :=
    WeierstrassCurve.Affine.Point.add_of_X_ne hx
  simp only [hslope, addX_toAffine, addY_toAffine] at hadd
  exact exists_eq_point hadd

end Affine

/-! ### Jacobian coordinates -/

/-- `(X, Y, Z)` stands for the point `(X / Z², Y / Z³)`. -/
def Represents (E : ShortCurve K) (t : K × K × K) (P : E.Point) : Prop :=
  t.2.2 ≠ 0 ∧ ∃ x y h, P = E.point x y h ∧ t.1 = x * t.2.2 ^ 2 ∧ t.2.1 = y * t.2.2 ^ 3

def double (t : K × K × K) : K × K × K :=
  let s := 4 * t.1 * t.2.1 ^ 2
  let m := 3 * t.1 ^ 2
  let x := m ^ 2 - 2 * s
  (x, m * (s - x) - 8 * t.2.1 ^ 4, 2 * t.2.1 * t.2.2)

def addPoint (t : K × K × K) (x₂ y₂ : K) : K × K × K :=
  let h := t.1 - x₂ * t.2.2 ^ 2
  let r := t.2.1 - y₂ * t.2.2 ^ 3
  let x := r ^ 2 + h ^ 3 - 2 * t.1 * h ^ 2
  (x, r * (t.1 * h ^ 2 - x) - t.2.1 * h ^ 3, h * t.2.2)

section Jacobian

variable [DecidableEq K] {t : K × K × K} {P : E.Point}

omit [DecidableEq K] in
theorem represents_point {x y : K} (h : y ^ 2 = x ^ 3 + E.b) :
    E.Represents (x, y, 1) (E.point x y h) :=
  ⟨one_ne_zero, x, y, h, rfl, by ring, by ring⟩

omit [DecidableEq K] in
theorem Represents.eq_point (ht : E.Represents t P) {x y : K} (h : y ^ 2 = x ^ 3 + E.b)
    (hx : t.1 = x * t.2.2 ^ 2) (hy : t.2.1 = y * t.2.2 ^ 3) : P = E.point x y h := by
  obtain ⟨hZ, x', y', h', rfl, hX, hY⟩ := ht
  obtain rfl : x' = x := mul_right_cancel₀ (pow_ne_zero 2 hZ) (hX.symm.trans hx)
  obtain rfl : y' = y := mul_right_cancel₀ (pow_ne_zero 3 hZ) (hY.symm.trans hy)
  rfl

theorem Represents.double (ht : E.Represents t P) (hy : t.2.1 ≠ 0) :
    E.Represents (ShortCurve.double t) (P + P) := by
  obtain ⟨X, Y, Z⟩ := t
  obtain ⟨hZ, x, y, h, rfl, hX, hY⟩ := ht
  simp only at hZ hX hY hy
  have hy0 : y ≠ 0 := by
    rintro rfl
    exact hy (by rw [hY, zero_mul])
  have htwo : (2 : K) ≠ 0 := E.two_ne_zero
  have h2y : 2 * y ≠ 0 := mul_ne_zero htwo hy0
  obtain ⟨h', hadd⟩ := point_add_self h hy0 (div_mul_cancel₀ (3 * x ^ 2) h2y)
  refine ⟨mul_ne_zero (mul_ne_zero htwo hy) hZ, _, _, h', hadd, ?_, ?_⟩
  · simp only [ShortCurve.double]
    rw [hX, hY]
    field_simp
    ring
  · simp only [ShortCurve.double]
    rw [hX, hY]
    field_simp
    ring

theorem Represents.addPoint (ht : E.Represents t P) {x₂ y₂ : K} (h₂ : y₂ ^ 2 = x₂ ^ 3 + E.b)
    (hx : t.1 - x₂ * t.2.2 ^ 2 ≠ 0) :
    E.Represents (ShortCurve.addPoint t x₂ y₂) (P + E.point x₂ y₂ h₂) := by
  obtain ⟨X, Y, Z⟩ := t
  obtain ⟨hZ, x, y, h, rfl, hX, hY⟩ := ht
  simp only at hZ hX hY hx
  have hsub : x - x₂ ≠ 0 := by
    intro hzero
    exact hx (by rw [hX, ← sub_mul, hzero, zero_mul])
  obtain ⟨h', hadd⟩ := point_add h h₂ (sub_ne_zero.mp hsub) (div_mul_cancel₀ (y - y₂) hsub)
  refine ⟨mul_ne_zero hx hZ, _, _, h', hadd, ?_, ?_⟩
  · simp only [ShortCurve.addPoint]
    rw [hX, hY]
    field_simp
    ring
  · simp only [ShortCurve.addPoint]
    rw [hX, hY]
    field_simp
    ring

end Jacobian

/-! ### Multiples, on numbers -/

/-- The difference modulo `q`. -/
def subMod (q a b : ℕ) : ℕ := (a + (q - b % q)) % q

def doubleMod (q : ℕ) (t : ℕ × ℕ × ℕ) : ℕ × ℕ × ℕ :=
  let y2 := t.2.1 * t.2.1 % q
  let s := 4 * t.1 * y2 % q
  let m := 3 * t.1 * t.1 % q
  let x := subMod q (m * m) (2 * s)
  (x, subMod q (m * subMod q s x) (8 * y2 * y2), 2 * t.2.1 * t.2.2 % q)

/-- The first coordinate of the sum vanishes for a point that must not be added. -/
def addPointMod (q : ℕ) (t : ℕ × ℕ × ℕ) (x₂ y₂ : ℕ) : Option (ℕ × ℕ × ℕ) :=
  let z2 := t.2.2 * t.2.2 % q
  let h := subMod q t.1 (x₂ * z2)
  let r := subMod q t.2.1 (y₂ * z2 * t.2.2)
  let h2 := h * h % q
  let x := subMod q (r * r + h2 * h) (2 * t.1 * h2)
  if h = 0 then none
  else some (x, subMod q (r * subMod q (t.1 * h2) x) (t.2.1 * h * h2), h * t.2.2 % q)

/-- From the multiple by `k / 2` to that by `k`. -/
def stepMod (q x y k : ℕ) (t : ℕ × ℕ × ℕ) : Option (ℕ × ℕ × ℕ) :=
  if t.2.1 % q = 0 then none
  else if k % 2 = 0 then some (doubleMod q t) else addPointMod q (doubleMod q t) x y

/-- The multiple of the point `(x, y)` by `k`, which has at most the given number of bits. -/
def multipleMod (q x y : ℕ) : ℕ → ℕ → Option (ℕ × ℕ × ℕ)
  | 0, _ => none
  | bits + 1, k =>
    if k = 1 then some (x, y, 1) else (multipleMod q x y bits (k / 2)).bind (stepMod q x y k)

/-- The residues of coordinates. -/
def castMod (q : ℕ) (t : ℕ × ℕ × ℕ) : ZMod q × ZMod q × ZMod q := (t.1, t.2.1, t.2.2)

section Multiples

variable {q : ℕ} [Fact q.Prime] {E : ShortCurve (ZMod q)}

theorem cast_subMod (a b : ℕ) : (subMod q a b : ZMod q) = a - b := by
  rw [subMod, ZMod.natCast_mod, Nat.cast_add, Nat.cast_sub (Nat.mod_lt b (NeZero.pos q)).le,
    ZMod.natCast_self, ZMod.natCast_mod]
  ring

theorem castMod_doubleMod (t : ℕ × ℕ × ℕ) : castMod q (doubleMod q t) = double (castMod q t) := by
  simp only [castMod, doubleMod, double, cast_subMod, ZMod.natCast_mod, Nat.cast_mul,
    Nat.cast_ofNat, Prod.mk.injEq]
  refine ⟨by ring, by ring, trivial⟩

theorem castMod_addPointMod {t t' : ℕ × ℕ × ℕ} {x y : ℕ} (h : addPointMod q t x y = some t') :
    castMod q t' = addPoint (castMod q t) x y ∧
      (t.1 : ZMod q) - x * (t.2.2 : ZMod q) ^ 2 ≠ 0 := by
  simp only [addPointMod] at h
  split_ifs at h with hzero
  obtain rfl := Option.some.inj h
  constructor
  · simp only [castMod, addPoint, cast_subMod, ZMod.natCast_mod, Nat.cast_mul, Nat.cast_add,
      Nat.cast_ofNat, Prod.mk.injEq]
    exact ⟨by ring, by ring, by ring⟩
  · intro hsub
    refine hzero (Nat.eq_zero_of_dvd_of_lt ((ZMod.natCast_eq_zero_iff _ q).mp ?_)
      (Nat.mod_lt _ (NeZero.pos q)))
    rw [cast_subMod, Nat.cast_mul, ZMod.natCast_mod, Nat.cast_mul, ← hsub]
    ring

theorem represents_stepMod {x y : ℕ} (h : (y : ZMod q) ^ 2 = (x : ZMod q) ^ 3 + E.b) {k : ℕ}
    {t t' : ℕ × ℕ × ℕ} (ht : E.Represents (castMod q t) ((k / 2) • E.point x y h))
    (hstep : stepMod q x y k t = some t') : E.Represents (castMod q t') (k • E.point x y h) := by
  rw [stepMod] at hstep
  split_ifs at hstep with hy hparity
  · obtain rfl := Option.some.inj hstep
    have hdouble := ht.double (show (t.2.1 : ZMod q) ≠ 0 by
      rwa [Ne, ZMod.natCast_eq_zero_iff, Nat.dvd_iff_mod_eq_zero])
    rwa [castMod_doubleMod, show k = k / 2 + k / 2 by omega, add_nsmul]
  · have hdouble := ht.double (show (t.2.1 : ZMod q) ≠ 0 by
      rwa [Ne, ZMod.natCast_eq_zero_iff, Nat.dvd_iff_mod_eq_zero])
    rw [← castMod_doubleMod] at hdouble
    obtain ⟨hcast, hne⟩ := castMod_addPointMod hstep
    have hadd := hdouble.addPoint h hne
    rwa [hcast, show k = k / 2 + k / 2 + 1 by omega, add_nsmul, one_nsmul, add_nsmul]

/-- What is computed on numbers represents the multiple of the point. -/
theorem represents_multipleMod {x y : ℕ} (h : (y : ZMod q) ^ 2 = (x : ZMod q) ^ 3 + E.b)
    {bits k : ℕ} {t : ℕ × ℕ × ℕ} (ht : multipleMod q x y bits k = some t) :
    E.Represents (castMod q t) (k • E.point x y h) := by
  induction bits generalizing k t with
  | zero => cases ht
  | succ bits ih =>
    rw [multipleMod] at ht
    split_ifs at ht with hone
    · obtain rfl := Option.some.inj ht
      rw [hone, one_nsmul, castMod, Nat.cast_one]
      exact represents_point h
    · obtain ⟨half, hhalf, hstep⟩ := Option.bind_eq_some_iff.mp ht
      exact represents_stepMod h (ih hhalf) hstep

end Multiples

/-! ### The number of points -/

section Card

variable [Finite K]

open Classical in
/-- The first coordinate of a point and which of the two roots the second one is. -/
noncomputable def code (E : ShortCurve K) : E.Point → Option (K × Bool)
  | .zero => none
  | .some x y _ => some (x, decide (y = Classical.epsilon fun z => z ^ 2 = x ^ 3 + E.b))

omit [Finite K] in
theorem code_injective (E : ShortCurve K) : Function.Injective E.code := by
  rintro (_ | ⟨x, y, h⟩) (_ | ⟨x', y', h'⟩) hcode
  · rfl
  · cases hcode
  · cases hcode
  · obtain ⟨rfl, hsign⟩ := Prod.mk.inj (Option.some.inj hcode)
    have hy := E.nonsingular_iff.mp h
    have hy' := E.nonsingular_iff.mp h'
    have hroot : (Classical.epsilon fun z => z ^ 2 = x ^ 3 + E.b) ^ 2 = x ^ 3 + E.b :=
      Classical.epsilon_spec (p := fun z => z ^ 2 = x ^ 3 + E.b) ⟨y, hy⟩
    generalize (Classical.epsilon fun z => z ^ 2 = x ^ 3 + E.b) = z at hsign hroot
    have hiff : y = z ↔ y' = z := decide_eq_decide.mp hsign
    -- both are roots, so each of them is `z` or `-z`
    have hz := sq_eq_sq_iff_eq_or_eq_neg.mp (hy.trans hroot.symm)
    have hz' := sq_eq_sq_iff_eq_or_eq_neg.mp (hy'.trans hroot.symm)
    obtain rfl : y = y' := by
      by_cases heq : y = z
      · exact heq.trans (hiff.mp heq).symm
      · exact (hz.resolve_left heq).trans (hz'.resolve_left fun h => heq (hiff.mpr h)).symm
    rfl

instance finite_point (E : ShortCurve K) : Finite E.Point := Finite.of_injective _ E.code_injective

/-- Two points for each first coordinate at most, and the identity. -/
theorem card_point_le (E : ShortCurve K) : Nat.card E.Point ≤ 2 * Nat.card K + 1 := by
  have hle := Nat.card_le_card_of_injective _ E.code_injective
  rwa [Finite.card_option, Nat.card_prod, Nat.card_eq_fintype_card (α := Bool), Fintype.card_bool,
    Nat.mul_comm] at hle

variable [DecidableEq K] {r : ℕ} {P : E.Point}

/-- The number of points, from the order of one of them. -/
theorem card_point_eq (hr : r.Prime) (hP : P ≠ 0) (hrP : r • P = 0)
    (hbound : 2 * Nat.card K + 1 < 3 * r) (hy : ∀ {x y : K}, y ^ 2 = x ^ 3 + E.b → y ≠ 0) :
    Nat.card E.Point = r := by
  have : Fact r.Prime := ⟨hr⟩
  have horder : addOrderOf P = r := addOrderOf_eq_prime hrP hP
  obtain ⟨c, hc⟩ : r ∣ Nat.card E.Point := horder ▸ addOrderOf_dvd_natCard P
  have hle := E.card_point_le
  have hpos : 0 < Nat.card E.Point := Nat.card_pos
  have hc3 : c < 3 := by
    by_contra hge
    have hmul : r * 3 ≤ r * c := Nat.mul_le_mul_left r (by omega)
    omega
  interval_cases c
  · omega
  · rw [hc, mul_one]
  · -- an even number of points would give one of order two
    have heven : 2 ∣ Nat.card E.Point := hc ▸ dvd_mul_left 2 r
    obtain ⟨Q, hQ⟩ := exists_prime_addOrderOf_dvd_card' 2 heven
    have hQ2 : Q + Q = 0 := by rw [← two_nsmul, ← hQ, addOrderOf_nsmul_eq_zero]
    have hQneg : Q = -Q := eq_neg_of_add_eq_zero_left hQ2
    rcases Q with _ | ⟨x, y, h⟩
    · have hzero : addOrderOf (0 : E.Point) = 2 := hQ
      rw [addOrderOf_zero] at hzero
      exact absurd hzero (by decide)
    · have hcurve := E.nonsingular_iff.mp h
      have hpoint : E.point x y hcurve = E.point x (-y) ((neg_sq y).trans hcurve) :=
        hQneg.trans (E.neg_point hcurve)
      have hyneg : y = -y := by
        simp only [point, WeierstrassCurve.Affine.Point.some.injEq] at hpoint
        exact hpoint.2
      have h2y : 2 * y = 0 := by linear_combination hyneg
      exact absurd ((mul_eq_zero.mp h2y).resolve_left E.two_ne_zero) (hy hcurve)

omit [Finite K] in
theorem nsmul_eq_zero_of_card (hcard : Nat.card E.Point = r) (Q : E.Point) : r • Q = 0 := by
  rw [← hcard]
  exact card_nsmul_eq_zero'

end Card

end ShortCurve
