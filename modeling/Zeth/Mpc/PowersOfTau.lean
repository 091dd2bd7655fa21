import Mathlib.Data.Nat.Log
import Zeth.Foundation.RootsOfUnity
import Zeth.Mpc.Phase2

/-!
# The first phase of the MPC

The output of the first phase of the MPC holds the powers of a secret `tau` in both groups, and these
powers multiplied by two further secrets (`libzeth/mpc/groth16/powersoftau_utils.tcc`). The values
of the Lagrange polynomials at `tau` are computed from the powers without knowledge of `tau`, by a
Fourier transform in the groups.

The evaluation domain and the transform are those of another library and are parameters. Where the
source reads entries past the end of a vector, which has no defined outcome, the vectors here are
shorter or the entry is zero.

## Main definitions

* `Mpc.PowersOfTau`, `Mpc.LagrangeEvaluations`.
* `Mpc.Libfqfft`: the domain and the transform, `Mpc.Libfqfft.ComputesDft`: what they compute.
* `Mpc.Setting.dummyPowersoftauFromSecrets`, `Mpc.Setting.computeLagrangeEvaluations`.

## Main results

* `Mpc.Setting.computeLagrangeEvaluations_eq_ok`: the values that are computed.
-/

namespace Zeth.Mpc

/-- `srs_powersoftau`. -/
structure PowersOfTau (G₁ G₂ : Type) where
  tauPowersG1 : List G₁
  tauPowersG2 : List G₂
  alphaTauPowersG1 : List G₁
  betaTauPowersG1 : List G₁
  betaG2 : G₂
  deriving DecidableEq

/-- `srs_lagrange_evaluations`. -/
structure LagrangeEvaluations (G₁ G₂ : Type) where
  degree : ℕ
  lagrangeG1 : List G₁
  lagrangeG2 : List G₂
  alphaLagrangeG1 : List G₁
  betaLagrangeG1 : List G₁
  deriving DecidableEq

/-- What is used of the library of Fourier transforms. -/
structure Libfqfft (F G₁ G₂ : Type) where
  /-- `get_domain_element(1)` of the `basic_radix2_domain` of the given size. -/
  domainElement : ℕ → F
  /-- `_basic_radix2_FFT`. -/
  fftG1 : List G₁ → F → List G₁
  fftG2 : List G₂ → F → List G₂

section

variable {F G₁ G₂ GT : Type} [Field F] [AddCommGroup G₁] [Module F G₁] [AddCommGroup G₂]
  [Module F G₂] [AddCommGroup GT] [Module F GT]

/-- The domain of `n` points consists of the powers of a primitive root of unity, and the transform of
`n` elements is the discrete Fourier transform. -/
structure Libfqfft.ComputesDft (fqfft : Libfqfft F G₁ G₂) (n : ℕ) : Prop where
  isPrimitiveRoot : IsPrimitiveRoot (fqfft.domainElement n) n
  fftG1_eq : ∀ {omega : F} {as : List G₁}, as.length = n → IsPrimitiveRoot omega n →
    fqfft.fftG1 as omega = RootsOfUnity.dft omega as
  fftG2_eq : ∀ {omega : F} {as : List G₂}, as.length = n → IsPrimitiveRoot omega n →
    fqfft.fftG2 as omega = RootsOfUnity.dft omega as

namespace Setting

variable (S : Setting F G₁ G₂ GT)

/-- `dummy_powersoftau_from_secrets`. -/
def dummyPowersoftauFromSecrets (tau alpha beta : F) (n : ℕ) : PowersOfTau G₁ G₂ where
  tauPowersG1 := (List.range (2 * n - 1)).map fun i => tau ^ i • S.oneG1
  tauPowersG2 := (List.range n).map fun i => tau ^ i • S.oneG2
  alphaTauPowersG1 := (List.range n).map fun i => tau ^ i • alpha • S.oneG1
  betaTauPowersG1 := (List.range n).map fun i => tau ^ i • beta • S.oneG1
  betaG2 := beta • S.oneG2

/-- `compute_lagrange_from_powers`, with the transform for the group. -/
def computeLagrangeFromPowers {G : Type} [AddCommGroup G] [Module F G] (fft : List G → F → List G)
    (powers : List G) (omegaInv : F) : List G :=
  let powers := fft powers omegaInv
  powers.map ((powers.length : F)⁻¹ • ·)

variable [DecidableEq G₁] [DecidableEq G₂] (fqfft : Libfqfft F G₁ G₂)

/-- `powersoftau_compute_lagrange_evaluations`. -/
def computeLagrangeEvaluations (pot : PowersOfTau G₁ G₂) (n : ℕ) :
    Except String (LagrangeEvaluations G₁ G₂) := do
  if n ≠ 2 ^ Nat.clog 2 n then throw "non-pow-2 domain"
  if pot.tauPowersG1.length < n then throw "insufficient powers of tau"
  let omegaInv := (fqfft.domainElement n)⁻¹
  let lagrangeG1 := pot.tauPowersG1.take n
  if lagrangeG1[0]? ≠ some S.oneG1 ∨ lagrangeG1.length ≠ n then
    throw "unexpected powersoftau data (g1). Invalid file or degree mismatch"
  let lagrangeG2 := pot.tauPowersG2.take n
  if lagrangeG2[0]? ≠ some S.oneG2 ∨ lagrangeG2.length ≠ n then
    throw "unexpected powersoftau data (g2). invalid file or degree mismatch"
  let alphaLagrangeG1 := pot.alphaTauPowersG1.take n
  if alphaLagrangeG1.length ≠ n then
    throw "unexpected powersoftau data (alpha). invalid file or degree mismatch"
  let betaLagrangeG1 := pot.betaTauPowersG1.take n
  if betaLagrangeG1.length ≠ n then
    throw "unexpected powersoftau data (alpha). invalid file or degree mismatch"
  return {
    degree := n
    lagrangeG1 := computeLagrangeFromPowers fqfft.fftG1 lagrangeG1 omegaInv
    lagrangeG2 := computeLagrangeFromPowers fqfft.fftG2 lagrangeG2 omegaInv
    alphaLagrangeG1 := computeLagrangeFromPowers fqfft.fftG1 alphaLagrangeG1 omegaInv
    betaLagrangeG1 := computeLagrangeFromPowers fqfft.fftG1 betaLagrangeG1 omegaInv }

/-! ### The values that are computed -/

/-- The powers of `tau` times an element give the values of the Lagrange polynomials at `tau` times
that element. -/
theorem computeLagrangeFromPowers_eq {G : Type} [AddCommGroup G] [Module F G]
    {fft : List G → F → List G} {omega : F} {n : ℕ} (homega : IsPrimitiveRoot omega n)
    (hfft : ∀ {omega : F} {as : List G}, as.length = n → IsPrimitiveRoot omega n →
      fft as omega = RootsOfUnity.dft omega as) (tau : F) (g : G) :
    computeLagrangeFromPowers fft ((List.range n).map fun i => tau ^ i • g) omega⁻¹ =
      (List.range n).map fun i => (RootsOfUnity.basis omega n i).eval tau • g := by
  have hlen : ((List.range n).map fun i => tau ^ i • g).length = n := by
    rw [List.length_map, List.length_range]
  rw [computeLagrangeFromPowers, hfft hlen homega.inv, RootsOfUnity.length_dft, hlen,
    RootsOfUnity.dft_powers homega]

theorem take_map_range {α : Type} (f : ℕ → α) {n m : ℕ} (h : n ≤ m) :
    ((List.range m).map f).take n = (List.range n).map f := by
  rw [← List.map_take, List.take_range, Nat.min_eq_left h]

/-- The values at `tau` of the Lagrange polynomials of the powers of `omega`. -/
noncomputable def lagrangeEvaluationsAt (omega : F) (n : ℕ) (tau alpha beta : F) :
    LagrangeEvaluations G₁ G₂ where
  degree := n
  lagrangeG1 := (List.range n).map fun i => (RootsOfUnity.basis omega n i).eval tau • S.oneG1
  lagrangeG2 := (List.range n).map fun i => (RootsOfUnity.basis omega n i).eval tau • S.oneG2
  alphaLagrangeG1 := (List.range n).map fun i =>
    (RootsOfUnity.basis omega n i).eval tau • alpha • S.oneG1
  betaLagrangeG1 := (List.range n).map fun i =>
    (RootsOfUnity.basis omega n i).eval tau • beta • S.oneG1

/-- The evaluations that are computed from powers of `tau` of a degree that is large enough. -/
theorem computeLagrangeEvaluations_eq_ok {k N : ℕ} (hN : 2 ^ k ≤ N)
    (hfqfft : fqfft.ComputesDft (2 ^ k)) (tau alpha beta : F) :
    S.computeLagrangeEvaluations fqfft (S.dummyPowersoftauFromSecrets tau alpha beta N) (2 ^ k) =
      .ok (S.lagrangeEvaluationsAt (fqfft.domainElement (2 ^ k)) (2 ^ k) tau alpha beta) := by
  have hpow : 2 ^ Nat.clog 2 (2 ^ k) = 2 ^ k := by rw [Nat.clog_pow 2 k one_lt_two]
  have hpos : 0 < 2 ^ k := Nat.two_pow_pos k
  have hN' : 2 ^ k ≤ 2 * N - 1 := by omega
  have hhead {G : Type} [AddCommGroup G] [Module F G] (g : G) :
      ((List.range (2 ^ k)).map fun i => tau ^ i • g)[0]? = some g := by
    rw [List.getElem?_map, List.getElem?_range hpos, Option.map_some, pow_zero, one_smul]
  have hlen {G : Type} (f : ℕ → G) : ((List.range (2 ^ k)).map f).length = 2 ^ k := by
    rw [List.length_map, List.length_range]
  rw [computeLagrangeEvaluations]
  simp only [dummyPowersoftauFromSecrets, take_map_range _ hN, take_map_range _ hN', hhead, hlen,
    hpow, List.length_map, List.length_range, ne_eq, not_true_eq_false, or_self, if_false,
    Nat.not_lt.mpr hN']
  rw [computeLagrangeFromPowers_eq hfqfft.isPrimitiveRoot hfqfft.fftG1_eq,
    computeLagrangeFromPowers_eq hfqfft.isPrimitiveRoot hfqfft.fftG2_eq,
    computeLagrangeFromPowers_eq hfqfft.isPrimitiveRoot hfqfft.fftG1_eq,
    computeLagrangeFromPowers_eq hfqfft.isPrimitiveRoot hfqfft.fftG1_eq]
  rfl

end Setting

end

end Zeth.Mpc
