import Mathlib.LinearAlgebra.Lagrange
import Mathlib.RingTheory.RootsOfUnity.PrimitiveRoots
import Zeth.Foundation.Numerals

/-!
# The Lagrange basis at roots of unity

The powers of a primitive root of unity are the points of an evaluation domain. The coefficients of
the Lagrange basis at these points are themselves powers of the root, so that the values of the
basis at a point are the discrete Fourier transform, with the inverse root, of the powers of the
point. The transform is stated for lists of elements of a module.

## Main definitions

* `RootsOfUnity.basis`: the Lagrange basis.
* `RootsOfUnity.dft`, `RootsOfUnity.idft`: the discrete Fourier transform of a list, its inverse.

## Main results

* `RootsOfUnity.eval_basis`: the values of the basis.
* `RootsOfUnity.dft_powers`: the transform of the powers of a point.
* `RootsOfUnity.sum_idft_smul`: the inverse transform gives coefficients from values.
-/

namespace RootsOfUnity

open Polynomial Finset

variable {F G : Type*} [Field F] [AddCommGroup G] [Module F G] {ω : F} {n : ℕ}

/-! ### The basis -/

/-- The polynomial of degree below `n` that is one at the `i`-th power of `ω` and zero at the
others. -/
noncomputable def basis (ω : F) (n i : ℕ) : F[X] := Lagrange.basis (range n) (ω ^ ·) i

theorem injOn_pow (hω : IsPrimitiveRoot ω n) : Set.InjOn (ω ^ ·) (range n : Set ℕ) := by
  intro i hi j hj h
  exact hω.pow_inj (mem_range.mp hi) (mem_range.mp hj) h

/-- The powers of a root of unity other than one add up to zero. -/
theorem sum_pow_eq_zero {z : F} (hz : z ^ n = 1) (hne : z ≠ 1) : ∑ k ∈ range n, z ^ k = 0 := by
  have h : (∑ k ∈ range n, z ^ k) * (z - 1) = 0 := by rw [geom_sum_mul, hz, sub_self]
  exact (mul_eq_zero.mp h).resolve_right (sub_ne_zero.mpr hne)

/-- Characters are orthogonal. -/
theorem sum_inv_pow_mul_pow (hω : IsPrimitiveRoot ω n) {i j : ℕ} (hi : i < n) (hj : j < n) :
    ∑ k ∈ range n, ω⁻¹ ^ (i * k) * (ω ^ j) ^ k = if i = j then (n : F) else 0 := by
  have hω0 : ω ≠ 0 := hω.ne_zero (Nat.ne_zero_of_lt hi)
  have hterm (k : ℕ) : ω⁻¹ ^ (i * k) * (ω ^ j) ^ k = ((ω ^ i)⁻¹ * ω ^ j) ^ k := by
    rw [pow_mul, ← mul_pow, inv_pow]
  rw [sum_congr rfl fun k _ => hterm k]
  split_ifs with hij
  · subst hij
    rw [inv_mul_cancel₀ (pow_ne_zero i hω0)]
    simp
  · refine sum_pow_eq_zero ?_ fun h => hij ?_
    · rw [mul_pow, inv_pow, ← pow_mul, ← pow_mul, mul_comm i, mul_comm j, pow_mul, pow_mul,
        hω.pow_eq_one, one_pow, one_pow, inv_one, mul_one]
    · have hpow := (inv_mul_eq_one₀ (pow_ne_zero i hω0)).mp h
      exact hω.pow_inj hi hj hpow

/-- The coefficients of the basis. -/
theorem basis_eq (hω : IsPrimitiveRoot ω n) {i : ℕ} (hi : i < n) :
    basis ω n i = C (n : F)⁻¹ * ∑ k ∈ range n, C (ω⁻¹ ^ (i * k)) * X ^ k := by
  have : NeZero n := ⟨Nat.ne_zero_of_lt hi⟩
  have hn : (n : F) ≠ 0 := hω.neZero'.out
  have hinj := injOn_pow hω
  refine eq_of_degrees_lt_of_eval_index_eq (range n) hinj ?_ ?_ fun j hj => ?_
  · rw [basis, Lagrange.degree_basis hinj (mem_range.mpr hi), card_range]
    exact_mod_cast Nat.sub_lt (NeZero.pos n) one_pos
  · rw [card_range, degree_C_mul (inv_ne_zero hn),
      ← Fin.sum_univ_eq_sum_range fun k => C (ω⁻¹ ^ (i * k)) * X ^ k]
    exact degree_sum_fin_lt fun k : Fin n => ω⁻¹ ^ (i * k.val)
  · have hsum := sum_inv_pow_mul_pow hω hi (mem_range.mp hj)
    rw [eval_mul, eval_C, eval_finsetSum]
    simp only [eval_mul, eval_C, eval_pow, eval_X]
    rw [hsum, basis]
    split_ifs with hij
    · subst hij
      rw [Lagrange.eval_basis_self hinj hj, inv_mul_cancel₀ hn]
    · rw [Lagrange.eval_basis_of_ne hij hj, mul_zero]

/-- The values of the basis. -/
theorem eval_basis (hω : IsPrimitiveRoot ω n) {i : ℕ} (hi : i < n) (x : F) :
    (basis ω n i).eval x = (n : F)⁻¹ * ∑ k ∈ range n, ω⁻¹ ^ (i * k) * x ^ k := by
  rw [basis_eq hω hi, eval_mul, eval_C, eval_finsetSum]
  simp only [eval_mul, eval_C, eval_pow, eval_X]

/-! ### The transform -/

/-- The discrete Fourier transform of a list. -/
def dft (ω : F) (as : List G) : List G :=
  (List.range as.length).map fun i => ∑ k ∈ range as.length, ω ^ (i * k) • as.getD k 0

@[simp] theorem length_dft (ω : F) (as : List G) : (dft ω as).length = as.length := by
  rw [dft, List.length_map, List.length_range]

/-- The transform of the powers of a point with the inverse root gives the values of the basis,
multiplied by the number of points. -/
theorem dft_powers (hω : IsPrimitiveRoot ω n) (x : F) (g : G) :
    (dft ω⁻¹ ((List.range n).map fun k => x ^ k • g)).map ((n : F)⁻¹ • ·) =
      (List.range n).map fun i => (basis ω n i).eval x • g := by
  rw [dft, List.length_map, List.length_range, List.map_map]
  refine List.map_congr_left fun i hi => ?_
  have hterm : ∀ k ∈ range n,
      ω⁻¹ ^ (i * k) • ((List.range n).map fun k => x ^ k • g).getD k 0 =
        (ω⁻¹ ^ (i * k) * x ^ k) • g := by
    intro k hk
    rw [List.getD_eq_getElem?_getD, List.getElem?_map, List.getElem?_range (mem_range.mp hk),
      Option.map_some, Option.getD_some, smul_smul]
  rw [Function.comp_apply, sum_congr rfl hterm, ← sum_smul, smul_smul,
    eval_basis hω (List.mem_range.mp hi)]

/-- The inverse transform of a list of coefficients. -/
def idft (ω : F) (as : List F) : List F := (dft ω⁻¹ as).map ((as.length : F)⁻¹ * ·)

@[simp] theorem length_idft (ω : F) (as : List F) : (idft ω as).length = as.length := by
  rw [idft, List.length_map, length_dft]

/-- The sum of a list given by its indices. -/
theorem sum_map_range (f : ℕ → G) (n : ℕ) : ((List.range n).map f).sum = ∑ k ∈ range n, f k :=
  rfl

/-- The polynomial with given values at the powers of the root: the inverse transform of the values
has its coefficients, so that its value at any point is a combination of the values of the basis. -/
theorem sum_idft_smul (hω : IsPrimitiveRoot ω n) {as : List F} (hlen : as.length = n) (x : F)
    (g : G) :
    (List.zipWith (· • ·) (idft ω as) ((List.range n).map fun k => x ^ k • g)).sum =
      ∑ j ∈ range n, as.getD j 0 • (basis ω n j).eval x • g := by
  have hcoefficient (k : ℕ) : (n : F)⁻¹ * ∑ j ∈ range n, ω⁻¹ ^ (k * j) • as.getD j 0 =
      ∑ j ∈ range n, as.getD j 0 * ((n : F)⁻¹ * ω⁻¹ ^ (j * k)) := by
    rw [mul_sum]
    refine sum_congr rfl fun j _ => ?_
    rw [smul_eq_mul, mul_comm k j]
    ring
  have hvalue : ∀ j ∈ range n, as.getD j 0 • (basis ω n j).eval x • g =
      ∑ k ∈ range n, (as.getD j 0 * ((n : F)⁻¹ * ω⁻¹ ^ (j * k))) • x ^ k • g := by
    intro j hj
    rw [eval_basis hω (mem_range.mp hj), smul_smul, mul_sum, mul_sum, sum_smul]
    refine sum_congr rfl fun k _ => ?_
    rw [smul_smul]
    congr 1
    ring
  rw [idft, dft, hlen, List.map_map, List.zipWith_map, List.zipWith_self, sum_map_range,
    sum_congr rfl hvalue, sum_comm]
  refine sum_congr rfl fun k _ => ?_
  rw [Function.comp_apply, hcoefficient, sum_smul]

end RootsOfUnity
