import Mathlib.NumberTheory.LegendreSymbol.ZModChar
import Mathlib.NumberTheory.LegendreSymbol.QuadraticReciprocity
import Mathlib.Tactic.NormNum.Prime
import Zeth.Contract.ScalarField
import Zeth.Foundation.CurveOrder

/-!
# The groups of ALT-BN128 and its precompiled contracts

The precompiled contracts 6, 7 and 8 compute in the groups of the pairing ALT-BN128. `G1` is the
group of points of `y² = x³ + 3` over the field of `q` elements, with generator `(1, 2)`. `G2` is
generated by the point `_genG2` of the twist `y² = x³ + 3 / (9 + i)` over the extension by a square
root `i` of `-1`. A coordinate is a word below `q`, a coordinate in the extension is the word of the
coefficient of `i` followed by that of `1`, and the identity is written with zeros. The contracts
fail on words that do not encode points.

The pairing is a parameter, of which bilinearity is used only.

## Main definitions

* `AltBN128.G1`, `AltBN128.G2`, `AltBN128.g1`, `AltBN128.g2`.
* `AltBN128.bn256Add`, `AltBN128.bn256ScalarMul`, `AltBN128.bn256Pairing`.

## Main results

* `AltBN128.prime_q`, `AltBN128.y_ne_zero`.
* `AltBN128.card_G1`: the first group has as many elements as the scalar field.
* `AltBN128.decode_genG1`, `AltBN128.decode_g2`.
-/

namespace Zeth

namespace AltBN128

open PairingGroups

/-! ### Fields -/

/-- The number of elements of the base field. -/
def q : ℕ := 21888242871839275222246405745257275088696311157297823662689037894645226208583

private def smallPrimes : List ℕ :=
  [2, 3, 5, 7, 11, 13, 17, 19, 29, 31, 37, 41, 67, 73, 89, 109, 127, 229, 233, 271, 311, 491, 911,
  983]

private def certificate : List LucasCertificate.Entry :=
  [⟨1231, 3, [(2, 1), (3, 1), (5, 1), (41, 1)]⟩,
   ⟨2221, 2, [(2, 2), (3, 1), (5, 1), (37, 1)]⟩,
   ⟨3557, 2, [(2, 2), (7, 1), (127, 1)]⟩,
   ⟨3691, 2, [(2, 1), (3, 2), (5, 1), (41, 1)]⟩,
   ⟨4999, 3, [(2, 1), (3, 1), (7, 2), (17, 1)]⟩,
   ⟨5501, 2, [(2, 2), (5, 3), (11, 1)]⟩,
   ⟨11003, 2, [(2, 1), (5501, 1)]⟩,
   ⟨13327, 3, [(2, 1), (3, 1), (2221, 1)]⟩,
   ⟨327599, 19, [(2, 1), (19, 1), (37, 1), (233, 1)]⟩,
   ⟨1853641, 17, [(2, 3), (3, 2), (5, 1), (19, 1), (271, 1)]⟩,
   ⟨4562087, 5, [(2, 1), (17, 1), (109, 1), (1231, 1)]⟩,
   ⟨173171039, 13, [(2, 1), (73, 1), (89, 1), (13327, 1)]⟩,
   ⟨405928799, 22, [(2, 1), (11, 1), (3691, 1), (4999, 1)]⟩,
   ⟨1263766531, 10, [(2, 1), (3, 1), (5, 1), (13, 1), (911, 1), (3557, 1)]⟩,
   ⟨11465965001, 3, [(2, 3), (5, 4), (7, 1), (327599, 1)]⟩,
   ⟨35385462869, 2, [(2, 2), (7, 1), (1263766531, 1)]⟩,
   ⟨2480874801745591, 6, [(2, 1), (3, 2), (5, 1), (19, 1), (41, 1), (35385462869, 1)]⟩,
   ⟨13427688667394608761327070753331941386769, 17, [(2, 4), (3, 1), (7, 1), (11, 1), (1853641,
     1), (4562087, 1), (173171039, 1), (2480874801745591, 1)]⟩,
   ⟨21888242871839275222246405745257275088696311157297823662689037894645226208583, 3, [(2, 1),
     (3, 2), (13, 1), (29, 1), (67, 1), (229, 1), (311, 1), (983, 1), (11003, 1), (405928799, 1),
     (11465965001, 1), (13427688667394608761327070753331941386769, 1)]⟩]

theorem prime_q : q.Prime := by
  have hsmall : ∀ p ∈ smallPrimes, p.Prime := by
    simp only [smallPrimes, List.forall_mem_cons]
    norm_num
  have hcheck : LucasCertificate.check 254 smallPrimes certificate = true := by decide +kernel
  have hmem : ∃ t ∈ certificate, t.p = q := ⟨_, List.getLast_mem (List.cons_ne_nil _ _), rfl⟩
  obtain ⟨t, ht, hq⟩ := hmem
  exact hq ▸ LucasCertificate.prime_of_check hsmall hcheck t ht

instance fact_prime_q : Fact q.Prime := ⟨prime_q⟩

theorem q_le : q ≤ 2 ^ 256 := by decide

/-- The base field. -/
abbrev Fq := ZMod q

/-- The extension of the base field by a square root of `-1`. -/
abbrev Fq2 := QuadraticAlgebra Fq (-1) 0

instance fact_neg_one_not_square : Fact (∀ x : Fq, x ^ 2 ≠ -1 + 0 * x) := by
  refine ⟨fun x hx => ?_⟩
  have hsq : IsSquare (-1 : Fq) := ⟨x, by rw [← sq, hx]; ring⟩
  exact ZMod.exists_sq_eq_neg_one_iff.mp hsq (by decide)

/-! ### The curve and the first group -/

/-- The curve `y² = x³ + 3`. -/
def curve : ShortCurve Fq where
  b := 3
  two_ne_zero := by decide +kernel
  three_ne_zero := by decide +kernel
  b_ne_zero := by decide +kernel

/-- The first group. -/
abbrev G1 := curve.Point

/-- The words of the base field. -/
abbrev fq : Encoding Word Fq 1 := Encoding.ofZMod 256 q q_le

/-- The words of the first group. -/
abbrev g1 : Encoding Word G1 2 := curve.encoding fq

theorem canonical_g1 : g1.Canonical := ShortCurve.canonical_encoding Encoding.canonical_ofZMod

/-- The generator of `_genG1`. -/
def genG1 : G1 := curve.point 1 2 (by decide +kernel)

theorem decode_genG1 : g1.decode [1, 2] = some genG1 := by
  refine (ShortCurve.decode_eq_some_iff (p := [(1 : Word)]) rfl).mpr ⟨1, 2, ?_, ?_, .inr ⟨_, rfl⟩⟩
  · exact Encoding.decode_ofZMod.mpr (by decide +kernel)
  · exact Encoding.decode_ofZMod.mpr (by decide +kernel)

theorem decode_neg_genG1 : g1.decode [1, BitVec.ofNat 256 (q - 2)] = some (-genG1) := by
  rw [genG1, ShortCurve.neg_point]
  refine (ShortCurve.decode_eq_some_iff (p := [(1 : Word)]) rfl).mpr ⟨1, -2, ?_, ?_, .inr ⟨_, rfl⟩⟩
  · exact Encoding.decode_ofZMod.mpr (by decide +kernel)
  · exact Encoding.decode_ofZMod.mpr (by decide +kernel)

/-- No point has order two: `-3` is not a cube. -/
theorem y_ne_zero {x y : Fq} (h : y ^ 2 = x ^ 3 + 3) : y ≠ 0 := by
  rintro rfl
  have hx : x ^ 3 = -3 := by linear_combination -h
  have hx0 : x ≠ 0 := by
    rintro rfl
    revert hx
    decide +kernel
  have hone : x ^ (q - 1) = 1 := ZMod.pow_card_sub_one_eq_one hx0
  have hcube : ((q - 3 : ℕ) : Fq) ^ ((q - 1) / 3) = 1 := by
    have hcast : ((q - 3 : ℕ) : Fq) = x ^ 3 := by
      rw [hx]
      decide +kernel
    rw [hcast, ← pow_mul, ← hone]
    rfl
  rw [← LucasCertificate.cast_powMod q (show (q - 1) / 3 < 2 ^ 254 by decide +kernel)] at hcube
  revert hcube
  decide +kernel

/-! ### The order of the first group -/

/-- The number of elements of the scalar field. -/
abbrev r : ℕ := Curve.altBN128.r.toNat

/-- The multiple of the generator by `r - 1` has the coordinates of its negative. -/
private theorem multipleMod_genG1 :
    (ShortCurve.multipleMod q 1 2 254 (r - 1)).any (fun t =>
      t.1 % q = t.2.2 ^ 2 % q ∧ t.2.1 % q = (q - 2) * t.2.2 ^ 3 % q) = true := by
  decide +kernel

theorem genG1_ne_zero : genG1 ≠ 0 := nofun

theorem r_nsmul_genG1 : r • genG1 = 0 := by
  obtain ⟨t, ht, hcheck⟩ := (Option.any_eq_true _ _).mp multipleMod_genG1
  obtain ⟨hX, hY⟩ := of_decide_eq_true hcheck
  have hgen : curve.point ((1 : ℕ) : Fq) ((2 : ℕ) : Fq) (by decide +kernel) = genG1 := by
    simp [genG1]
  have hrep := ShortCurve.represents_multipleMod (E := curve) (by decide +kernel) ht
  rw [hgen] at hrep
  have hneg : (r - 1) • genG1 = -genG1 := by
    rw [genG1, ShortCurve.neg_point]
    refine hrep.eq_point _ ?_ ?_
    · have hcast := (ZMod.natCast_eq_natCast_iff _ _ q).mpr hX
      rw [ShortCurve.castMod, hcast, Nat.cast_pow, one_mul]
    · have hcast := (ZMod.natCast_eq_natCast_iff _ _ q).mpr hY
      rw [ShortCurve.castMod, hcast, Nat.cast_mul, Nat.cast_pow,
        show ((q - 2 : ℕ) : Fq) = -2 by decide +kernel]
  rw [show r = r - 1 + 1 by decide +kernel, succ_nsmul, hneg, neg_add_cancel]

theorem card_G1 : Nat.card G1 = r := by
  refine ShortCurve.card_point_eq (P := genG1) (Curve.prime_r _) genG1_ne_zero r_nsmul_genG1 ?_ y_ne_zero
  rw [Nat.card_zmod]
  decide +kernel

theorem r_nsmul (P : G1) : r • P = 0 := ShortCurve.nsmul_eq_zero_of_card card_G1 P

theorem nsmul_mod (k : ℕ) (P : G1) : (k % r) • P = k • P := by
  conv_rhs => rw [← Nat.mod_add_div k r, add_nsmul, mul_nsmul, r_nsmul, nsmul_zero, add_zero]

/-- Every point but the identity generates the group. -/
theorem nsmul_eq_nsmul_iff {P : G1} (hP : P ≠ 0) {j k : ℕ} : j • P = k • P ↔ j ≡ k [MOD r] := by
  have hprime : Fact r.Prime := ⟨Curve.prime_r _⟩
  rw [nsmul_eq_nsmul_iff_modEq, addOrderOf_eq_prime (r_nsmul P) hP]

/-! ### The twist and the second group -/

private theorem xi_ne_zero : (⟨9, 1⟩ : Fq2) ≠ 0 := by decide +kernel

/-- The twist `y² = x³ + 3 / (9 + i)`. -/
def twist : ShortCurve Fq2 where
  b := 3 / ⟨9, 1⟩
  two_ne_zero := by decide +kernel
  three_ne_zero := by decide +kernel
  b_ne_zero := div_ne_zero (by decide +kernel) xi_ne_zero

/-- The equation of the twist without the division. -/
theorem twist_equation_iff {x y : Fq2} :
    y ^ 2 = x ^ 3 + twist.b ↔ ⟨9, 1⟩ * y ^ 2 = ⟨9, 1⟩ * x ^ 3 + 3 := by
  have hb : (⟨9, 1⟩ : Fq2) * twist.b = 3 := mul_div_cancel₀ 3 xi_ne_zero
  constructor
  · intro h
    rw [h, mul_add, hb]
  · intro h
    rw [← hb, ← mul_add] at h
    exact mul_left_cancel₀ xi_ne_zero h

/-- The coordinates of `_genG2`. -/
def genG2X : Fq2 where
  im := 11559732032986387107991004021392285783925812861821192530917403151452391805634
  re := 10857046999023057135944570762232829481370756359578518086990519993285655852781

@[inherit_doc genG2X]
def genG2Y : Fq2 where
  im := 4082367875863433681332203403145435568316851327593401208105741076214120093531
  re := 8495653923123431417604973247489272438418190587263600148770280649306958101930

theorem genG2_on_twist : genG2Y ^ 2 = genG2X ^ 3 + twist.b :=
  twist_equation_iff.mpr (by decide +kernel)

/-- The second group. -/
abbrev G2 := AddSubgroup.zmultiples (twist.point genG2X genG2Y genG2_on_twist)

/-- The generator of the second group. -/
def genG2 : G2 := ⟨_, AddSubgroup.mem_zmultiples _⟩

/-- The words of the extension field. -/
abbrev fq2 : Encoding Word Fq2 2 := fq.ofQuadratic (-1) 0

/-- The words of the second group. -/
noncomputable abbrev g2 : Encoding Word G2 4 := (twist.encoding fq2).restrict G2

/-- The words of a point of the second group, coefficients of `i` first. -/
theorem decode_g2 {x₁ x₀ y₁ y₀ : Word} {x y : Fq2} (h : y ^ 2 = x ^ 3 + twist.b)
    (hmem : twist.point x y h ∈ G2)
    (hx₁ : fq.decode [x₁] = some x.im) (hx₀ : fq.decode [x₀] = some x.re)
    (hy₁ : fq.decode [y₁] = some y.im) (hy₀ : fq.decode [y₀] = some y.re) :
    g2.decode [x₁, x₀, y₁, y₀] = some ⟨twist.point x y h, hmem⟩ := by
  have hx : fq2.decode [x₁, x₀] = some x :=
    (Encoding.decode_ofQuadratic (p := [x₁]) rfl).mpr ⟨hx₁, hx₀⟩
  have hy : fq2.decode [y₁, y₀] = some y :=
    (Encoding.decode_ofQuadratic (p := [y₁]) rfl).mpr ⟨hy₁, hy₀⟩
  refine Encoding.decode_restrict.mpr ?_
  exact (ShortCurve.decode_eq_some_iff (p := [x₁, x₀]) rfl).mpr ⟨x, y, hx, hy, .inr ⟨h, rfl⟩⟩

/-! ### The precompiled contracts -/

/-- The contract at address 6. -/
def bn256Add : Evm.Precompile Word := g1.ecAdd

/-- The contract at address 7. -/
def bn256ScalarMul : Evm.Precompile Word := g1.ecMul fun s => some s.toNat

/-- The contract at address 8. -/
noncomputable def bn256Pairing {GT : Type*} [CommGroup GT] [DecidableEq GT]
    (e : Pairing G1 G2 GT) : Evm.Precompile Word :=
  e.check g1 g2 fun b => if b then 1 else 0

end AltBN128

end Zeth
