import Mathlib.LinearAlgebra.FiniteDimensional.Basic
import Mathlib.LinearAlgebra.SesquilinearForm.Basic
import Zeth.Foundation.Numerals

/-!
# Ratios compared by a pairing

A pairing is a bilinear map between modules over a field. Two pairs of elements, one of each module,
have the same ratio when the pairing of the first with the last equals the pairing of the two in the
middle. When the second module is a line and the pairing separates the elements of the first, the
pairs then are multiples by one scalar. A list of pairs is checked at once by a linear combination,
and what holds for all combinations holds for each pair.

## Main definitions

* `SameRatio.combination`: a linear combination of the entries of a list.

## Main results

* `SameRatio.eq_iff_exists_smul`: pairs of the same ratio.
* `SameRatio.eq_map_smul_iff`: lists of pairs of the same ratio.
* `SameRatio.forall_consecutive_iff`: lists whose consecutive entries have the same ratio.
-/

namespace SameRatio

open List

variable {F G₁ G₂ GT : Type*} [Field F] [AddCommGroup G₁] [Module F G₁] [AddCommGroup G₂]
  [Module F G₂] [AddCommGroup GT] [Module F GT]

/-! ### Pairs -/

section Pairs

variable {e : G₁ →ₗ[F] G₂ →ₗ[F] GT}

/-- Multiples by one scalar have the same ratio. -/
theorem eq_of_smul (k : F) (a₁ : G₁) (a₂ : G₂) : e a₁ (k • a₂) = e (k • a₁) a₂ := by
  rw [map_smul, map_smul, LinearMap.smul_apply]

variable (hline : Module.finrank F G₂ = 1) (hsep : e.SeparatingLeft)

include hline in
/-- Every element of a line is a multiple of one that is not zero. -/
theorem exists_eq_smul {a₂ : G₂} (ha₂ : a₂ ≠ 0) (b₂ : G₂) : ∃ k : F, b₂ = k • a₂ := by
  obtain ⟨k, hk⟩ := (finrank_eq_one_iff_of_nonzero' a₂ ha₂).mp hline b₂
  exact ⟨k, hk.symm⟩

include hline hsep

/-- An element that pairs to zero with one element of a line is zero. -/
theorem eq_zero_of_apply_eq_zero {a₁ : G₁} {a₂ : G₂} (ha₂ : a₂ ≠ 0) (h : e a₁ a₂ = 0) :
    a₁ = 0 := by
  refine hsep a₁ fun y => ?_
  obtain ⟨k, rfl⟩ := exists_eq_smul hline ha₂ y
  rw [map_smul, h, smul_zero]

/-- Two pairs have the same ratio exactly when one scalar takes the first entries to the second. -/
theorem eq_iff_exists_smul {a₁ b₁ : G₁} {a₂ b₂ : G₂} (ha₂ : a₂ ≠ 0) :
    e a₁ b₂ = e b₁ a₂ ↔ ∃ k : F, b₁ = k • a₁ ∧ b₂ = k • a₂ := by
  constructor
  · intro h
    obtain ⟨k, rfl⟩ := exists_eq_smul hline ha₂ b₂
    refine ⟨k, (sub_eq_zero.mp (eq_zero_of_apply_eq_zero hline hsep ha₂ ?_)), rfl⟩
    rw [map_sub, LinearMap.sub_apply, ← h, eq_of_smul, sub_self]
  · rintro ⟨k, rfl, rfl⟩
    exact eq_of_smul k a₁ a₂

/-- With the scalar of the second pair known. -/
theorem eq_smul_iff {a₁ b₁ : G₁} {a₂ : G₂} {k : F} (ha₂ : a₂ ≠ 0) :
    e a₁ (k • a₂) = e b₁ a₂ ↔ b₁ = k • a₁ := by
  rw [eq_iff_exists_smul hline hsep ha₂]
  constructor
  · rintro ⟨k', rfl, hk⟩
    rw [smul_left_injective F ha₂ hk]
  · exact fun h => ⟨k, h, rfl⟩

/-- The pairing then separates the elements of the line as well. -/
theorem separatingLeft_flip {a₁ : G₁} (ha₁ : a₁ ≠ 0) : e.flip.SeparatingLeft := by
  intro b₂ hb₂
  by_contra hne
  exact ha₁ (eq_zero_of_apply_eq_zero hline hsep hne (hb₂ a₁))

end Pairs

/-! ### Lists of pairs -/

/-- The linear combination of the entries of a list with the given coefficients. -/
def combination (r : ℕ → F) (as : List G₁) : G₁ := (as.mapIdx fun i a => r i • a).sum

@[simp] theorem combination_nil (r : ℕ → F) : combination r ([] : List G₁) = 0 := rfl

theorem combination_cons (r : ℕ → F) (a : G₁) (as : List G₁) :
    combination r (a :: as) = r 0 • a + combination (fun i => r (i + 1)) as := by
  rw [combination, mapIdx_cons, sum_cons]
  rfl

/-- A multiple of all entries is a multiple of the combination. -/
theorem combination_map_smul (r : ℕ → F) (k : F) (as : List G₁) :
    combination r (as.map (k • ·)) = k • combination r as := by
  induction as generalizing r with
  | nil => rw [map_nil, combination_nil, smul_zero]
  | cons a as ih => rw [map_cons, combination_cons, combination_cons, ih, smul_add, smul_comm]

/-- The combination that picks one entry. -/
theorem combination_single {as : List G₁} {i : ℕ} {a : G₁} (h : as[i]? = some a) :
    combination (Pi.single i (1 : F)) as = a := by
  induction as generalizing i with
  | nil => cases h
  | cons b as ih =>
    rw [combination_cons]
    obtain _ | i := i
    · have hrest : combination (fun j => (Pi.single 0 (1 : F) : ℕ → F) (j + 1)) as = 0 := by
        rw [combination, sum_eq_zero]
        intro x hx
        obtain ⟨j, hj, rfl⟩ := mem_mapIdx.mp hx
        rw [Pi.single_eq_of_ne (Nat.succ_ne_zero j), zero_smul]
      rw [hrest, Pi.single_eq_same, one_smul, add_zero]
      exact Option.some.inj h
    · have hrest : (fun j => (Pi.single (i + 1) (1 : F) : ℕ → F) (j + 1)) = Pi.single i 1 := by
        funext j
        by_cases hj : j = i
        · rw [hj, Pi.single_eq_same, Pi.single_eq_same]
        · rw [Pi.single_eq_of_ne hj, Pi.single_eq_of_ne (by omega)]
      rw [hrest, ih h, Pi.single_eq_of_ne (Nat.succ_ne_zero i).symm, zero_smul, zero_add]

/-- Combinations of two lists that agree for all coefficients come from equal lists. -/
theorem eq_map_smul_iff {as bs : List G₁} {k : F} (hlen : as.length = bs.length) :
    (∀ r : ℕ → F, combination r bs = k • combination r as) ↔ bs = as.map (k • ·) := by
  constructor
  · intro h
    refine ext_getElem (by rw [length_map, hlen]) fun i hi hi' => ?_
    rw [length_map] at hi'
    have hpick := h (Pi.single i 1)
    rwa [combination_single (List.getElem?_eq_getElem hi),
      combination_single (List.getElem?_eq_getElem hi'), ← getElem_map (k • ·)] at hpick
  · rintro rfl r
    exact combination_map_smul r k as

theorem powers_succ (k : F) (a : G₁) (n : ℕ) :
    ((List.range (n + 1)).map fun i => k ^ i • a) =
      a :: (List.range n).map fun i => k ^ i • k • a := by
  rw [range_succ_eq_map, map_cons, map_map, pow_zero, one_smul]
  simp only [Function.comp_def, Nat.succ_eq_add_one, pow_succ, mul_smul]

/-- Lists of which each entry is the given multiple of the one before are lists of powers. -/
theorem consecutive_iff {a : G₁} {as : List G₁} {k : F} :
    as = (a :: as).dropLast.map (k • ·) ↔
      a :: as = (List.range (as.length + 1)).map fun i => k ^ i • a := by
  induction as generalizing a with
  | nil => simp
  | cons b bs ih =>
    rw [dropLast_cons_cons, map_cons, length_cons, powers_succ, cons_inj_right,
      cons_eq_cons]
    constructor
    · rintro ⟨rfl, h⟩
      exact ih.mp h
    · intro h
      have hb : b = k • a := by
        rw [powers_succ] at h
        exact (cons_eq_cons.mp h).1
      subst hb
      exact ⟨rfl, ih.mpr h⟩

/-- The combinations of consecutive entries have the given ratio for all coefficients exactly when
the entries are powers of the ratio. -/
theorem forall_consecutive_iff {e : G₁ →ₗ[F] G₂ →ₗ[F] GT} (hline : Module.finrank F G₂ = 1)
    (hsep : e.SeparatingLeft) {a : G₁} {as : List G₁} {a₂ : G₂} {k : F} (ha₂ : a₂ ≠ 0) :
    (∀ r : ℕ → F, e (combination r (a :: as).dropLast) (k • a₂) = e (combination r as) a₂) ↔
      a :: as = (List.range (as.length + 1)).map fun i => k ^ i • a := by
  have hlen : (a :: as).dropLast.length = as.length := by
    rw [length_dropLast, length_cons, Nat.add_sub_cancel]
  rw [← consecutive_iff, ← eq_map_smul_iff hlen]
  exact forall_congr' fun r => eq_smul_iff hline hsep ha₂

/-- The scalar of a list of multiples that are not all zero. -/
theorem ne_zero_of_eq_map_smul {as bs : List G₁} {k : F} (h : bs = as.map (k • ·))
    (hentry : ∃ b ∈ bs, b ≠ 0) : k ≠ 0 := by
  obtain ⟨b, hb, hb0⟩ := hentry
  rw [h] at hb
  obtain ⟨a, -, rfl⟩ := mem_map.mp hb
  exact left_ne_zero_of_smul hb0

/-- A list of multiples divided by the scalar. -/
theorem eq_map_inv_smul {as bs : List G₁} {k : F} (hk : k ≠ 0) (h : bs = as.map (k • ·)) :
    as = bs.map (k⁻¹ • ·) := by
  rw [h, map_map]
  exact ((map_congr_left fun a _ => inv_smul_smul₀ hk a).trans (map_id' as)).symm

end SameRatio
