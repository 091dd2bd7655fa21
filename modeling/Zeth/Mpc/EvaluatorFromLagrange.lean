import Mathlib.Data.List.GetD
import Zeth.Foundation.OrderedMap
import Zeth.Mpc.PowersOfTau

/-!
# Combinations of Lagrange polynomials

Two ways to the value of a combination of Lagrange polynomials at a point of which only the powers,
in a group, are known. `compute_lagrange_from_powers` makes the values of all polynomials by a
transform in the group (`libzeth/mpc/groth16/powersoftau_utils.tcc`). `evaluator_from_lagrange`
turns the factors of the combination into coefficients by an inverse transform in the field, and
combines the powers with these (`libzeth/core/evaluator_from_lagrange.tcc`).

The evaluation domain and the multi-exponentiation are those of other libraries and are parameters.
An assertion of the source is an error here.

## Main definitions

* `Mpc.EvaluationDomain`, `Mpc.EvaluationDomain.ComputesInverse`: the domain and what it computes.
* `Mpc.multiExp`, `Mpc.EvaluatorFromLagrange.evaluateFromLagrangeFactors`.

## Main results

* `Mpc.evaluateFromLagrangeFactors_eq`: the value of a combination.
* `Mpc.lagrange_combinations_agree`.
-/

namespace Zeth.Mpc

open List

variable {F G : Type} [Field F] [DecidableEq F] [AddCommGroup G] [Module F G]

/-! ### The evaluator -/

/-- What is used of a `libfqfft::evaluation_domain`. -/
structure EvaluationDomain (F : Type) where
  m : ℕ
  /-- `get_domain_element(1)`. -/
  omega : F
  iFFT : List F → List F

/-- The domain consists of the powers of a primitive root of unity, and `iFFT` is the inverse
transform. -/
structure EvaluationDomain.ComputesInverse (D : EvaluationDomain F) : Prop where
  isPrimitiveRoot : IsPrimitiveRoot D.omega D.m
  iFFT_eq : ∀ {as : List F}, as.length = D.m → D.iFFT as = RootsOfUnity.idft D.omega as

/-- What `libff::multi_exp_filter_one_zero` computes. -/
def IsMultiExp (multiExpFilterOneZero : List G → List F → G) : Prop :=
  ∀ {gs : List G} {fs : List F}, gs.length = fs.length →
    multiExpFilterOneZero gs fs = (List.zipWith (· • ·) fs gs).sum

/-- `multi_exp`. -/
def multiExp (multiExpFilterOneZero : List G → List F → G) (gs : List G) (fs : List F) :
    Except String G := do
  if gs.length < fs.length then throw "assert"
  if gs.length = 0 then throw "assert"
  return multiExpFilterOneZero (gs.take fs.length) fs

/-- `evaluator_from_lagrange`, with the assertion of its constructor. -/
structure EvaluatorFromLagrange (F G : Type) where
  powers : List G
  domain : EvaluationDomain F
  le_length : domain.m ≤ powers.length

/-- The loop of `evaluate_from_lagrange_factors` over the factors. -/
def writeFactors (m : ℕ) (coefficients : List F) (factors : List (ℕ × F)) :
    Except String (List F) :=
  factors.foldlM (fun coefficients factor =>
    if factor.1 < m then
      .ok (if factor.2 ≠ 0 then coefficients.set factor.1 factor.2 else coefficients)
    else .error "assert") coefficients

/-- `evaluate_from_lagrange_factors`. -/
def EvaluatorFromLagrange.evaluateFromLagrangeFactors (E : EvaluatorFromLagrange F G)
    (multiExpFilterOneZero : List G → List F → G) (lagrangeFactors : OrderedMap ℕ F) :
    Except String G := do
  let coefficients ← writeFactors E.domain.m (List.replicate E.domain.m 0) lagrangeFactors.entries
  multiExp multiExpFilterOneZero E.powers (E.domain.iFFT coefficients)

/-! ### The vector of factors -/

/-- The combination of some elements with the entries of a vector. -/
def combination (coefficients : List F) (values : ℕ → G) (m : ℕ) : G :=
  ∑ j ∈ Finset.range m, coefficients.getD j 0 • values j

omit [DecidableEq F] in
/-- An entry that was zero. -/
theorem combination_set {m i : ℕ} {coefficients : List F} (hlen : coefficients.length = m)
    (hi : i < m) (hzero : coefficients.getD i 0 = 0) (x : F) (values : ℕ → G) :
    combination (coefficients.set i x) values m =
      combination coefficients values m + x • values i := by
  have hentry : ∀ j ∈ Finset.range m, (coefficients.set i x).getD j 0 • values j =
      coefficients.getD j 0 • values j + if j = i then x • values i else 0 := by
    intro j hj
    rw [getD_eq_getElem?_getD, List.getElem?_set]
    by_cases hji : j = i
    · rw [if_pos hji.symm, if_pos (hlen.symm ▸ hi), if_pos hji, hji, hzero, zero_smul, zero_add]
      rfl
    · rw [if_neg (Ne.symm hji), if_neg hji, add_zero, ← getD_eq_getElem?_getD]
  rw [combination, Finset.sum_congr rfl hentry, Finset.sum_add_distrib,
    Finset.sum_ite_eq' (Finset.range m) i, if_pos (Finset.mem_range.mpr hi), combination]

/-- Factors of distinct places that were zero. -/
theorem exists_writeFactors {m : ℕ} {factors : List (ℕ × F)} {coefficients : List F}
    (hlen : coefficients.length = m) (hsorted : factors.Pairwise fun p q => p.1 < q.1)
    (hlt : ∀ factor ∈ factors, factor.1 < m)
    (hzero : ∀ factor ∈ factors, coefficients.getD factor.1 0 = 0) (values : ℕ → G) :
    ∃ written, writeFactors m coefficients factors = .ok written ∧ written.length = m ∧
      combination written values m = combination coefficients values m +
        (factors.map fun factor => factor.2 • values factor.1).sum := by
  induction factors generalizing coefficients with
  | nil =>
    refine ⟨coefficients, rfl, hlen, ?_⟩
    rw [map_nil, sum_nil, add_zero]
  | cons factor factors ih =>
    obtain ⟨hfirst, hsorted⟩ := pairwise_cons.mp hsorted
    obtain ⟨hlt, hlts⟩ := forall_mem_cons.mp hlt
    obtain ⟨hzero, hzeros⟩ := forall_mem_cons.mp hzero
    rw [writeFactors, foldlM_cons, if_pos hlt, Except.ok_bind, map_cons, sum_cons,
      ← add_assoc]
    by_cases hne : factor.2 ≠ 0
    · rw [if_pos hne, ← combination_set hlen hlt hzero]
      refine ih (length_set.trans hlen) hsorted hlts fun p hp => ?_
      rw [getD_eq_getElem?_getD, List.getElem?_set_ne (hfirst p hp).ne,
        ← getD_eq_getElem?_getD]
      exact hzeros p hp
    · rw [if_neg hne, not_not.mp hne, zero_smul, add_zero]
      exact ih hlen hsorted hlts hzeros

omit [DecidableEq F] in
theorem combination_replicate_zero (m : ℕ) (values : ℕ → G) :
    combination (List.replicate m (0 : F)) values m = 0 := by
  refine Finset.sum_eq_zero fun j hj => ?_
  rw [getD_replicate 0 (Finset.mem_range.mp hj), zero_smul]

/-! ### The value of a combination -/

/-- The value of a combination of Lagrange polynomials, from at least as many powers as the domain
has points. -/
theorem evaluateFromLagrangeFactors_eq {multiExpFilterOneZero : List G → List F → G}
    (hmulti : IsMultiExp multiExpFilterOneZero) {D : EvaluationDomain F} (hD : D.ComputesInverse)
    (hpos : 0 < D.m) {N : ℕ} (hN : D.m ≤ N) (tau : F) (g : G) {lagrangeFactors : OrderedMap ℕ F}
    (hlt : ∀ factor ∈ lagrangeFactors.entries, factor.1 < D.m) :
    let powers := (List.range N).map fun i => tau ^ i • g
    ∀ h : D.m ≤ powers.length,
      (EvaluatorFromLagrange.mk powers D h).evaluateFromLagrangeFactors multiExpFilterOneZero
          lagrangeFactors =
        .ok (lagrangeFactors.entries.map fun factor =>
          factor.2 • (RootsOfUnity.basis D.omega D.m factor.1).eval tau • g).sum := by
  intro powers h
  obtain ⟨coefficients, hwrite, hlen, hcombination⟩ := exists_writeFactors
    (length_replicate (a := (0 : F))) lagrangeFactors.sorted hlt
    (fun factor hfactor => getD_replicate 0 (hlt factor hfactor))
    fun j => (RootsOfUnity.basis D.omega D.m j).eval tau • g
  rw [combination_replicate_zero, zero_add] at hcombination
  have hfft : D.iFFT coefficients = RootsOfUnity.idft D.omega coefficients := hD.iFFT_eq hlen
  have hlength : (D.iFFT coefficients).length = D.m := by
    rw [hfft, RootsOfUnity.length_idft, hlen]
  have htake : powers.take D.m = (List.range D.m).map fun i => tau ^ i • g :=
    Setting.take_map_range _ hN
  have hzip : (powers.take D.m).length = (D.iFFT coefficients).length := by
    rw [htake, length_map, length_range, hlength]
  rw [EvaluatorFromLagrange.evaluateFromLagrangeFactors, hwrite, Except.ok_bind]
  simp only [multiExp, hlength, Nat.not_lt.mpr h, (hpos.trans_le h).ne', if_false]
  change Except.ok _ = _
  rw [hmulti hzip, htake, hfft, RootsOfUnity.sum_idft_smul hD.isPrimitiveRoot hlen,
    ← hcombination]
  rfl

/-- The transform in the group makes the values of the Lagrange polynomials at `tau`, in the order
of the domain, and the combination of these with any factors is the value that the evaluator makes
from at least as many powers. -/
theorem lagrange_combinations_agree {k : ℕ} {fft : List G → F → List G}
    (hfft : ∀ {omega : F} {as : List G}, as.length = 2 ^ k → IsPrimitiveRoot omega (2 ^ k) →
      fft as omega = RootsOfUnity.dft omega as)
    {multiExpFilterOneZero : List G → List F → G} (hmulti : IsMultiExp multiExpFilterOneZero)
    {D : EvaluationDomain F} (hm : D.m = 2 ^ k) (hD : D.ComputesInverse) (tau : F) (g : G) :
    let lagrange := Setting.computeLagrangeFromPowers fft
      ((List.range (2 ^ k)).map fun i => tau ^ i • g) D.omega⁻¹
    (lagrange = (List.range (2 ^ k)).map fun j =>
      (Lagrange.basis (Finset.range (2 ^ k)) (D.omega ^ ·) j).eval tau • g) ∧
    ∀ (lagrangeFactors : OrderedMap ℕ F) (N : ℕ),
      (∀ factor ∈ lagrangeFactors.entries, factor.1 < 2 ^ k) →
      ∀ h : D.m ≤ ((List.range N).map fun i => tau ^ i • g).length,
        (EvaluatorFromLagrange.mk _ D h).evaluateFromLagrangeFactors multiExpFilterOneZero
            lagrangeFactors =
          .ok (lagrangeFactors.entries.map fun factor =>
            factor.2 • lagrange.getD factor.1 0).sum := by
  intro lagrange
  have hroot : IsPrimitiveRoot D.omega (2 ^ k) := hm ▸ hD.isPrimitiveRoot
  have hlagrange : lagrange = (List.range (2 ^ k)).map fun j =>
      (RootsOfUnity.basis D.omega (2 ^ k) j).eval tau • g :=
    Setting.computeLagrangeFromPowers_eq hroot hfft tau g
  refine ⟨hlagrange, fun lagrangeFactors N hlt h => ?_⟩
  have hN : D.m ≤ N := by rwa [length_map, length_range] at h
  have hpos : 0 < D.m := hm ▸ Nat.two_pow_pos k
  rw [evaluateFromLagrangeFactors_eq hmulti hD hpos hN tau g (hm ▸ hlt) h]
  refine congrArg Except.ok (congrArg List.sum (map_congr_left fun factor hfactor => ?_))
  rw [hlagrange, getD_eq_getElem?_getD, List.getElem?_map,
    List.getElem?_range (hlt factor hfactor), Option.map_some, Option.getD_some, hm]

/-- The two square roots of one in the field with three elements. -/
def lineDomain : EvaluationDomain (ZMod 3) where
  m := 2
  omega := -1
  iFFT := RootsOfUnity.idft (-1)

theorem computesInverse_lineDomain : lineDomain.ComputesInverse where
  isPrimitiveRoot := IsPrimitiveRoot.neg_one 3 (by decide)
  iFFT_eq _ := rfl

theorem pairwise_lineFactors :
    ([(0, 1), (1, 2)] : List (ℕ × ZMod 3)).Pairwise fun p q => p.1 < q.1 := by
  decide

/-- The values one and two at these roots. -/
def lineFactors : OrderedMap ℕ (ZMod 3) := ⟨[(0, 1), (1, 2)], pairwise_lineFactors⟩

theorem le_length_linePowers :
    lineDomain.m ≤ ((List.range 3).map fun i => (2 : ZMod 3) ^ i • (1 : ZMod 3)).length := by
  decide

/-- The combination is the identity, with the value two at the point two, from three powers. -/
theorem lagrange_combinations_agree_line :
    (EvaluatorFromLagrange.mk _ lineDomain le_length_linePowers).evaluateFromLagrangeFactors
      (fun gs fs => (List.zipWith (· • ·) fs gs).sum) lineFactors = .ok (2 : ZMod 3) := by
  have hvalue := (@lagrange_combinations_agree (ZMod 3) (ZMod 3) _ _ _ _ 1
    (fun as omega => RootsOfUnity.dft omega as) (fun _ _ => rfl) _ (fun _ => rfl) lineDomain rfl
    computesInverse_lineDomain 2 1).2 lineFactors 3 (by decide) le_length_linePowers
  exact hvalue.trans (congrArg _ (by decide +kernel))

end Zeth.Mpc
