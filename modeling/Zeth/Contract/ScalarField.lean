import Mathlib.Tactic.NormNum.Prime
import Zeth.Contract.Curve
import Zeth.Foundation.LucasCertificate

/-!
# The scalar fields of the two curves

The order `r` of the scalar field is a prime for both curves, by a certificate, and every number of
`_FIELD_CAPACITY` bits is below it.

## Main definitions

* `Curve.Fr`.

## Main results

* `Curve.prime_r`, `Curve.two_pow_fieldCapacity_lt`.
-/

namespace Zeth

namespace Curve

private def scalarPrimes : List ℕ :=
  [2, 3, 5, 7, 11, 13, 17, 19, 29, 31, 41, 47, 83, 107, 167, 223, 229, 379, 409, 449, 499, 661, 823,
  853, 983]

private def scalarCertificate : List LucasCertificate.Entry :=
  [⟨1637, 2, [(2, 2), (409, 1)]⟩,
   ⟨3511, 7, [(2, 1), (3, 3), (5, 1), (13, 1)]⟩,
   ⟨3691, 2, [(2, 1), (3, 2), (5, 1), (41, 1)]⟩,
   ⟨4999, 3, [(2, 1), (3, 1), (7, 2), (17, 1)]⟩,
   ⟨5501, 2, [(2, 2), (5, 3), (11, 1)]⟩,
   ⟨11003, 2, [(2, 1), (5501, 1)]⟩,
   ⟨20963, 2, [(2, 1), (47, 1), (223, 1)]⟩,
   ⟨41927, 5, [(2, 1), (20963, 1)]⟩,
   ⟨93001, 14, [(2, 3), (3, 1), (5, 3), (31, 1)]⟩,
   ⟨126397, 5, [(2, 2), (3, 2), (3511, 1)]⟩,
   ⟨237073, 15, [(2, 4), (3, 1), (11, 1), (449, 1)]⟩,
   ⟨1593227, 2, [(2, 1), (19, 1), (41927, 1)]⟩,
   ⟨405928799, 22, [(2, 1), (11, 1), (3691, 1), (4999, 1)]⟩,
   ⟨639533339, 2, [(2, 1), (229, 1), (853, 1), (1637, 1)]⟩,
   ⟨1832756501, 2, [(2, 2), (5, 3), (29, 1), (126397, 1)]⟩,
   ⟨12048837557, 2, [(2, 2), (7, 2), (661, 1), (93001, 1)]⟩,
   ⟨5156902474397, 2, [(2, 2), (107, 1), (12048837557, 1)]⟩,
   ⟨49484425527001, 14, [(2, 3), (3, 3), (5, 3), (1832756501, 1)]⟩,
   ⟨1670836401704629, 2, [(2, 2), (3, 4), (5156902474397, 1)]⟩,
   ⟨65865678001877903, 5, [(2, 1), (83, 1), (379, 1), (1637, 1), (639533339, 1)]⟩,
   ⟨958612291309063373, 2, [(2, 2), (29, 1), (167, 1), (49484425527001, 1)]⟩,
   ⟨9586122913090633729, 11, [(2, 46), (3, 1), (7, 1), (13, 1), (499, 1)]⟩,
   ⟨13818364434197438864469338081, 3, [(2, 5), (5, 1), (823, 1), (1593227, 1),
     (65865678001877903, 1)]⟩,
   ⟨8444461749428370424248824938781546531375899335154063827935233455917409239041, 22, [(2, 47),
     (3, 1), (5, 1), (7, 1), (13, 1), (499, 1), (958612291309063373, 1), (9586122913090633729, 2)]⟩,
   ⟨21888242871839275222246405745257275088548364400416034343698204186575808495617, 5, [(2, 28),
     (3, 2), (13, 1), (29, 1), (983, 1), (11003, 1), (237073, 1), (405928799, 1),
     (1670836401704629, 1), (13818364434197438864469338081, 1)]⟩]

theorem prime_r (curve : Curve) : curve.r.toNat.Prime := by
  have hsmall : ∀ p ∈ scalarPrimes, p.Prime := by
    simp only [scalarPrimes, List.forall_mem_cons]
    norm_num
  have hcheck : LucasCertificate.check 254 scalarPrimes scalarCertificate = true := by
    decide +kernel
  have hmem : ∃ t ∈ scalarCertificate, t.p = curve.r.toNat := by
    cases curve <;> decide +kernel
  obtain ⟨t, ht, hp⟩ := hmem
  exact hp ▸ LucasCertificate.prime_of_check hsmall hcheck t ht

instance fact_prime_r (curve : Curve) : Fact curve.r.toNat.Prime := ⟨curve.prime_r⟩

/-- The scalar field. -/
abbrev Fr (curve : Curve) := ZMod curve.r.toNat

theorem two_pow_fieldCapacity_lt (curve : Curve) : 2 ^ curve.fieldCapacity < curve.r.toNat := by
  cases curve <;> decide +kernel

end Curve

end Zeth
