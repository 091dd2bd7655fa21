import Zeth.Mpc.PowersOfTau

/-!
# The key pair made by the MPC

Between the two phases of the MPC the values of the polynomials of a QAP at `tau` are computed as
linear combinations of the Lagrange evaluations (`libzeth/mpc/groth16/mpc_utils.tcc`). The second
phase starts from these with `delta` one, and the key pair is put together from the outputs of all
phases (`libzeth/mpc/groth16/phase2.tcc`). The result is the key pair that a trusted party with the
secrets `tau`, `alpha`, `beta` and the product of the contributions would have made.

## Main definitions

* `Mpc.QapInstance`, `Mpc.LayerL1`, `Mpc.KeyPair`.
* `Mpc.Setting.computeLinearcombination`, `Mpc.Setting.phase2Begin`, `Mpc.Setting.createKeyPair`.
* `Mpc.Setting.runMpc`: the steps of the MPC one after the other.
* `Mpc.Setting.groth16Key`: the key pair of given secrets.

## Main results

* `Mpc.Setting.runMpc_eq_groth16Key`.
-/

namespace Zeth.Mpc

open List

/-! ### Data -/

/-- What is used of a `libsnark::qap_instance`. A polynomial is given by its entries in the Lagrange
basis, in the order of a `std::map`. -/
structure QapInstance (F : Type) where
  numVariables : ℕ
  degree : ℕ
  numInputs : ℕ
  AInLagrangeBasis : List (List (ℕ × F))
  BInLagrangeBasis : List (List (ℕ × F))
  CInLagrangeBasis : List (List (ℕ × F))
  numInputs_le : numInputs ≤ numVariables
  lt_degree : ∀ entries ∈ AInLagrangeBasis ++ BInLagrangeBasis ++ CInLagrangeBasis,
    ∀ entry ∈ entries, entry.1 < degree

/-- `srs_mpc_layer_L1`. -/
structure LayerL1 (G₁ G₂ : Type) where
  TTauPowersG1 : List G₁
  AG1 : List G₁
  BG1 : List G₁
  BG2 : List G₂
  ABCG1 : List G₁
  deriving DecidableEq

/-- `libsnark::r1cs_gg_ppzksnark_proving_key`, with a constraint system of type `CS`. -/
@[ext] structure ProvingKey (G₁ G₂ CS : Type) where
  alphaG1 : G₁
  betaG1 : G₁
  betaG2 : G₂
  deltaG1 : G₁
  deltaG2 : G₂
  AQuery : List G₁
  BQuery : List (G₂ × G₁)
  HQuery : List G₁
  LQuery : List G₁
  constraintSystem : CS

/-- `libsnark::r1cs_gg_ppzksnark_verification_key`, with the first entry of `ABC_g1` and the
others. -/
@[ext] structure VerificationKey (G₁ G₂ : Type) where
  alphaG1 : G₁
  betaG2 : G₂
  deltaG2 : G₂
  ABCG1First : G₁
  ABCG1Rest : List G₁

/-- `libsnark::r1cs_gg_ppzksnark_keypair`. -/
@[ext] structure KeyPair (G₁ G₂ CS : Type) where
  pk : ProvingKey G₁ G₂ CS
  vk : VerificationKey G₁ G₂

namespace Setting

variable {F G₁ G₂ GT CS : Type} [Field F] [AddCommGroup G₁] [Module F G₁] [AddCommGroup G₂]
  [Module F G₂] [AddCommGroup GT] [Module F GT] (S : Setting F G₁ G₂ GT)

/-! ### The steps -/

/-- The loop of `mpc_compute_linearcombination` over the entries of one polynomial. -/
def sumEntries {G : Type} [AddCommGroup G] [Module F G] (lagrange : List G) (start : G)
    (entries : List (ℕ × F)) : G :=
  entries.foldl (fun acc entry => acc + entry.2 • lagrange.getD entry.1 0) start

/-- `mpc_compute_linearcombination`. -/
def computeLinearcombination (pot : PowersOfTau G₁ G₂) (lagrange : LagrangeEvaluations G₁ G₂)
    (qap : QapInstance F) : Except String (LayerL1 G₁ G₂) := do
  let n := qap.degree
  if n ≠ 2 ^ Nat.clog 2 n then throw "non-pow-2 domain"
  if n ≠ lagrange.degree then throw "domain size differs from Lagrange evaluation"
  if pot.tauPowersG1.length < 2 * n - 1 then throw "assert"
  let indices := List.range (qap.numVariables + 1)
  let A j := qap.AInLagrangeBasis.getD j []
  let B j := qap.BInLagrangeBasis.getD j []
  let C j := qap.CInLagrangeBasis.getD j []
  return {
    TTauPowersG1 := (List.range (n - 1)).map fun i =>
      pot.tauPowersG1.getD (n + i) 0 - pot.tauPowersG1.getD i 0
    AG1 := indices.map fun j => sumEntries lagrange.lagrangeG1 0 (A j)
    BG1 := indices.map fun j => sumEntries lagrange.lagrangeG1 0 (B j)
    BG2 := indices.map fun j => sumEntries lagrange.lagrangeG2 0 (B j)
    ABCG1 := indices.map fun j =>
      sumEntries lagrange.alphaLagrangeG1 (sumEntries lagrange.betaLagrangeG1 0 (A j)) (B j) +
        sumEntries lagrange.lagrangeG1 0 (C j) }

/-- `srs_mpc_phase2_begin`. -/
def phase2Begin (csHash : Digest) (layerL1 : LayerL1 G₁ G₂) (numInputs : ℕ) :
    Accumulator G₁ G₂ where
  csHash := csHash
  deltaG1 := S.oneG1
  deltaG2 := S.oneG2
  HG1 := layerL1.TTauPowersG1
  LG1 := layerL1.ABCG1.drop (numInputs + 1)

/-- The message of `mpc_create_key_pair` for a vector of an unexpected size. -/
def unexpectedSize (expected : ℕ) (entries : String) (saw : ℕ) : String :=
  "expected " ++ toString expected ++ " " ++ entries ++ " entries, but saw " ++ toString saw

/-- `mpc_create_key_pair`, up to the form in which the points of the proving key are stored. -/
def createKeyPair (pot : PowersOfTau G₁ G₂) (layer1 : LayerL1 G₁ G₂) (layer2 : Accumulator G₁ G₂)
    (cs : CS) (qap : QapInstance F) : Except String (KeyPair G₁ G₂ CS) := do
  let n := qap.degree
  let numVariables := qap.numVariables
  let numInputs := qap.numInputs
  if numVariables + 1 ≠ layer1.AG1.length then
    throw (unexpectedSize (numVariables + 1) "A" layer1.AG1.length)
  if numVariables + 1 ≠ layer1.BG1.length then
    throw (unexpectedSize (numVariables + 1) "B_g1" layer1.BG1.length)
  if numVariables + 1 ≠ layer1.BG2.length then
    throw (unexpectedSize (numVariables + 1) "B_g2" layer1.BG2.length)
  if numVariables + 1 ≠ layer1.ABCG1.length then
    throw (unexpectedSize (numVariables + 1) "ABC" layer1.ABCG1.length)
  -- the source compares the size with `n - 1`, which wraps around for `n` zero
  if n ≠ layer2.HG1.length + 1 then throw "mismatch in degrees of layers"
  if numVariables - numInputs ≠ layer2.LG1.length then
    throw (unexpectedSize (numVariables - numInputs) "L" layer2.LG1.length)
  if pot.tauPowersG2.length < n then throw "insufficient POT entries"
  return {
    pk := {
      alphaG1 := pot.alphaTauPowersG1.getD 0 0
      betaG1 := pot.betaTauPowersG1.getD 0 0
      betaG2 := pot.betaG2
      deltaG1 := layer2.deltaG1
      deltaG2 := layer2.deltaG2
      AQuery := layer1.AG1
      BQuery := (List.range (numVariables + 1)).map fun i =>
        (layer1.BG2.getD i 0, layer1.BG1.getD i 0)
      HQuery := layer2.HG1
      LQuery := layer2.LG1
      constraintSystem := cs }
    vk := {
      alphaG1 := pot.alphaTauPowersG1.getD 0 0
      betaG2 := pot.betaG2
      deltaG2 := layer2.deltaG2
      ABCG1First := layer1.ABCG1.getD 0 0
      ABCG1Rest := (List.range numInputs).map fun i => layer1.ABCG1.getD (i + 1) 0 } }

/-- The steps of the MPC from the powers of `tau` to the key pair, with a list of contributions to the
second phase. -/
def runMpc [DecidableEq G₁] [DecidableEq G₂] (fqfft : Libfqfft F G₁ G₂) (pot : PowersOfTau G₁ G₂)
    (csHash : Digest) (cs : CS) (qap : QapInstance F) (contributions : List (F × G₁)) :
    Except String (KeyPair G₁ G₂ CS) := do
  let lagrange ← S.computeLagrangeEvaluations fqfft pot qap.degree
  let layer1 ← computeLinearcombination pot lagrange qap
  let challenge := S.initialChallenge (S.phase2Begin csHash layer1 qap.numInputs)
  let finalChallenge := S.lastChallenge challenge contributions
  createKeyPair pot layer1 finalChallenge.accumulator cs qap

end Setting

/-! ### The key pair of given secrets -/

noncomputable section

open Polynomial

variable {F G₁ G₂ GT CS : Type} [Field F] [AddCommGroup G₁] [Module F G₁] [AddCommGroup G₂]
  [Module F G₂] [AddCommGroup GT] [Module F GT]

/-- The polynomial with the given entries in the Lagrange basis. -/
def ofEntries (omega : F) (n : ℕ) (entries : List (ℕ × F)) : F[X] :=
  (entries.map fun entry => entry.2 • RootsOfUnity.basis omega n entry.1).sum

namespace QapInstance

variable (qap : QapInstance F) (omega : F)

/-- The polynomials of a QAP on the domain of the powers of `omega`. -/
def A (j : ℕ) : F[X] := ofEntries omega qap.degree (qap.AInLagrangeBasis.getD j [])

@[inherit_doc A] def B (j : ℕ) : F[X] := ofEntries omega qap.degree (qap.BInLagrangeBasis.getD j [])

@[inherit_doc A] def C (j : ℕ) : F[X] := ofEntries omega qap.degree (qap.CInLagrangeBasis.getD j [])

/-- The value at `tau` of the combination of the polynomials that is used in the keys. -/
def ABC (tau alpha beta : F) (j : ℕ) : F :=
  beta * (qap.A omega j).eval tau + alpha * (qap.B omega j).eval tau + (qap.C omega j).eval tau

end QapInstance

/-- The values at `tau` of the polynomials of a QAP. -/
def Setting.layerAt (S : Setting F G₁ G₂ GT) (omega : F) (qap : QapInstance F)
    (tau alpha beta : F) : LayerL1 G₁ G₂ where
  TTauPowersG1 := (List.range (qap.degree - 1)).map fun i =>
    (tau ^ i * (tau ^ qap.degree - 1)) • S.oneG1
  AG1 := (List.range (qap.numVariables + 1)).map fun j => (qap.A omega j).eval tau • S.oneG1
  BG1 := (List.range (qap.numVariables + 1)).map fun j => (qap.B omega j).eval tau • S.oneG1
  BG2 := (List.range (qap.numVariables + 1)).map fun j => (qap.B omega j).eval tau • S.oneG2
  ABCG1 := (List.range (qap.numVariables + 1)).map fun j =>
    qap.ABC omega tau alpha beta j • S.oneG1

/-- The key pair of Groth16 for the secrets `tau`, `alpha`, `beta`, `delta`. -/
def Setting.groth16Key (S : Setting F G₁ G₂ GT) (omega : F) (qap : QapInstance F) (cs : CS)
    (tau alpha beta delta : F) : KeyPair G₁ G₂ CS where
  pk := {
    alphaG1 := alpha • S.oneG1
    betaG1 := beta • S.oneG1
    betaG2 := beta • S.oneG2
    deltaG1 := delta • S.oneG1
    deltaG2 := delta • S.oneG2
    AQuery := (List.range (qap.numVariables + 1)).map fun j => (qap.A omega j).eval tau • S.oneG1
    BQuery := (List.range (qap.numVariables + 1)).map fun j =>
      ((qap.B omega j).eval tau • S.oneG2, (qap.B omega j).eval tau • S.oneG1)
    HQuery := (List.range (qap.degree - 1)).map fun i =>
      (tau ^ i * (tau ^ qap.degree - 1) / delta) • S.oneG1
    LQuery := (List.range (qap.numVariables - qap.numInputs)).map fun j =>
      (qap.ABC omega tau alpha beta (qap.numInputs + 1 + j) / delta) • S.oneG1
    constraintSystem := cs }
  vk := {
    alphaG1 := alpha • S.oneG1
    betaG2 := beta • S.oneG2
    deltaG2 := delta • S.oneG2
    ABCG1First := qap.ABC omega tau alpha beta 0 • S.oneG1
    ABCG1Rest := (List.range qap.numInputs).map fun j =>
      qap.ABC omega tau alpha beta (j + 1) • S.oneG1 }

/-! ### The MPC makes this key pair -/

namespace Setting

variable {S : Setting F G₁ G₂ GT} {omega tau : F} {n : ℕ}

/-- The loop over the entries of a polynomial adds its value at `tau`. -/
theorem sumEntries_basis {G : Type} [AddCommGroup G] [Module F G] (g start : G)
    {entries : List (ℕ × F)} (hentries : ∀ entry ∈ entries, entry.1 < n) :
    sumEntries ((List.range n).map fun i => (RootsOfUnity.basis omega n i).eval tau • g) start
      entries = start + (ofEntries omega n entries).eval tau • g := by
  induction entries generalizing start with
  | nil => simp [sumEntries, ofEntries]
  | cons entry entries ih =>
    obtain ⟨hentry, hrest⟩ := forall_mem_cons.mp hentries
    have hget : ((List.range n).map fun i =>
        (RootsOfUnity.basis omega n i).eval tau • g).getD entry.1 0 =
          (RootsOfUnity.basis omega n entry.1).eval tau • g := by
      rw [getD_eq_getElem?_getD, List.getElem?_map, List.getElem?_range hentry]
      rfl
    have heval : (ofEntries omega n (entry :: entries)).eval tau =
        entry.2 * (RootsOfUnity.basis omega n entry.1).eval tau +
          (ofEntries omega n entries).eval tau := by
      rw [ofEntries, map_cons, sum_cons, eval_add, eval_smul, smul_eq_mul]
      rfl
    rw [heval, add_smul, ← smul_smul, ← add_assoc, ← hget]
    exact ih _ hrest

theorem getD_map_range {α : Type} (f : ℕ → α) {m i : ℕ} (hi : i < m) (d : α) :
    ((List.range m).map f).getD i d = f i := by
  rw [getD_eq_getElem?_getD, List.getElem?_map, List.getElem?_range hi]
  rfl

theorem drop_map_range {α : Type} (f : ℕ → α) (m l : ℕ) :
    ((List.range m).map f).drop l = (List.range (m - l)).map fun j => f (l + j) := by
  rw [← map_drop, range_eq_range', drop_range', zero_add, mul_one,
    List.range'_eq_map_range, map_map]
  rfl

section Layers

variable (qap : QapInstance F) (k N : ℕ) (alpha beta : F)

omit [Field F] in
/-- The entries of the polynomials of a QAP are below its degree. -/
theorem lt_degree_getD {entries : List (List (ℕ × F))}
    (hentries : ∀ es ∈ entries,
      es ∈ qap.AInLagrangeBasis ++ qap.BInLagrangeBasis ++ qap.CInLagrangeBasis) (j : ℕ) :
    ∀ entry ∈ entries.getD j [], entry.1 < qap.degree := by
  intro entry hentry
  rw [getD_eq_getElem?_getD] at hentry
  cases hget : entries[j]? with
  | none => simp [hget] at hentry
  | some es =>
    rw [hget, Option.getD_some] at hentry
    exact qap.lt_degree es (hentries es (mem_of_getElem? hget)) entry hentry

/-- The linear combinations are the values of the polynomials of the QAP at `tau`. -/
theorem computeLinearcombination_eq_ok (hk : qap.degree = 2 ^ k) (hN : qap.degree ≤ N) :
    computeLinearcombination (S.dummyPowersoftauFromSecrets tau alpha beta N)
        (S.lagrangeEvaluationsAt omega qap.degree tau alpha beta) qap =
      .ok (S.layerAt omega qap tau alpha beta) := by
  have hpow : qap.degree = 2 ^ Nat.clog 2 qap.degree := by rw [hk, Nat.clog_pow 2 k one_lt_two]
  have hA := lt_degree_getD qap fun es hes =>
    mem_append_left _ (mem_append_left _ hes)
  have hB := lt_degree_getD qap fun es hes =>
    mem_append_left _ (mem_append_right _ hes)
  have hC := lt_degree_getD qap fun es hes => mem_append_right _ hes
  have hlen : ¬ (S.dummyPowersoftauFromSecrets tau alpha beta N).tauPowersG1.length <
      2 * qap.degree - 1 := by
    rw [dummyPowersoftauFromSecrets, length_map, length_range]
    omega
  have hdegree : qap.degree = (S.lagrangeEvaluationsAt omega qap.degree tau alpha beta).degree := rfl
  rw [computeLinearcombination, if_neg (not_not.mpr hpow), if_neg (not_not.mpr hdegree), if_neg hlen]
  refine congrArg Except.ok ?_
  rw [layerAt, lagrangeEvaluationsAt, LayerL1.mk.injEq]
  refine ⟨?_, ?_, ?_, ?_, ?_⟩
  · refine map_congr_left fun i hi => ?_
    have hi := mem_range.mp hi
    rw [dummyPowersoftauFromSecrets, getD_map_range _ (by omega), getD_map_range _ (by omega),
      ← sub_smul]
    ring_nf
  · exact map_congr_left fun j _ => by rw [sumEntries_basis _ _ (hA j), zero_add]; rfl
  · exact map_congr_left fun j _ => by rw [sumEntries_basis _ _ (hB j), zero_add]; rfl
  · exact map_congr_left fun j _ => by rw [sumEntries_basis _ _ (hB j), zero_add]; rfl
  · refine map_congr_left fun j _ => ?_
    rw [sumEntries_basis _ _ (hA j), sumEntries_basis _ _ (hB j), sumEntries_basis _ _ (hC j),
      zero_add, zero_add, smul_smul, smul_smul, ← add_smul, ← add_smul, mul_comm _ beta,
      mul_comm _ alpha]
    rfl

/-- The key pair is put together from the values at `tau` and an accumulator updated by `delta`. -/
theorem createKeyPair_eq_ok (hpos : 0 < qap.degree) (hN : qap.degree ≤ N) (csHash : Digest) (cs : CS)
    (delta : F) :
    createKeyPair (S.dummyPowersoftauFromSecrets tau alpha beta N) (S.layerAt omega qap tau alpha beta)
        (updateAccumulator
          (S.phase2Begin csHash (S.layerAt omega qap tau alpha beta) qap.numInputs) delta) cs qap =
      .ok (S.groth16Key omega qap cs tau alpha beta delta) := by
  have hinputs := qap.numInputs_le
  have hhead {G : Type} [AddCommGroup G] [Module F G] (g : G) :
      ((List.range N).map fun i => tau ^ i • g).getD 0 0 = g := by
    rw [getD_map_range _ (hpos.trans_le hN), pow_zero, one_smul]
  have hL : qap.numVariables + 1 - (qap.numInputs + 1) = qap.numVariables - qap.numInputs := by omega
  rw [createKeyPair]
  simp only [layerAt, dummyPowersoftauFromSecrets, updateAccumulator, phase2Begin, length_map,
    length_range, length_drop, hhead, hL, Nat.sub_add_cancel hpos, Nat.not_lt.mpr hN,
    ne_eq, not_true_eq_false, if_false]
  have hdivided (x : F) : delta⁻¹ • x • S.oneG1 = (x / delta) • S.oneG1 := by
    rw [smul_smul, mul_comm, div_eq_mul_inv]
  refine congrArg Except.ok (KeyPair.ext (ProvingKey.ext rfl rfl rfl rfl rfl rfl ?_ ?_ ?_ rfl)
    (VerificationKey.ext rfl rfl rfl ?_ ?_))
  · refine map_congr_left fun j hj => ?_
    rw [getD_map_range _ (mem_range.mp hj), getD_map_range _ (mem_range.mp hj)]
  · exact map_map.trans (map_congr_left fun i _ => hdivided _)
  · have hdrop := drop_map_range (fun j => qap.ABC omega tau alpha beta j • S.oneG1)
      (qap.numVariables + 1) (qap.numInputs + 1)
    rw [hL] at hdrop
    refine (congrArg (List.map (delta⁻¹ • ·)) hdrop).trans (map_map.trans ?_)
    exact map_congr_left fun j _ => hdivided _
  · exact getD_map_range _ (Nat.succ_pos _) _
  · refine map_congr_left fun j hj => getD_map_range _ ?_ _
    have hj := mem_range.mp hj
    omega

end Layers

/-- **The key pair of the combined secrets.** For a QAP of a degree that is a power of two, powers of
`tau` of at least this degree and any contributions, the steps of the MPC return the key pair of
`tau`, `alpha`, `beta` and the product of the scalars of the contributions. -/
theorem runMpc_eq_groth16Key [DecidableEq G₁] [DecidableEq G₂] (fqfft : Libfqfft F G₁ G₂)
    (qap : QapInstance F) {k N : ℕ} (hk : qap.degree = 2 ^ k) (hN : qap.degree ≤ N)
    (hfqfft : fqfft.ComputesDft qap.degree) (tau alpha beta : F) (csHash : Digest) (cs : CS)
    (contributions : List (F × G₁)) :
    S.runMpc fqfft (S.dummyPowersoftauFromSecrets tau alpha beta N) csHash cs qap contributions =
      .ok (S.groth16Key (fqfft.domainElement qap.degree) qap cs tau alpha beta
        (contributions.map Prod.fst).prod) := by
  have hlagrange := S.computeLagrangeEvaluations_eq_ok fqfft (hk ▸ hN) (hk ▸ hfqfft) tau alpha beta
  rw [← hk] at hlagrange
  have hpos : 0 < qap.degree := hk ▸ Nat.two_pow_pos k
  rw [runMpc, hlagrange, Except.ok_bind, computeLinearcombination_eq_ok qap k N alpha beta hk hN,
    Except.ok_bind]
  have hlast := S.lastChallenge_accumulator (S.initialChallenge (S.phase2Begin csHash
    (S.layerAt (fqfft.domainElement qap.degree) qap tau alpha beta) qap.numInputs)) contributions
  exact (congrArg (createKeyPair _ _ · cs qap) hlast).trans
    (createKeyPair_eq_ok qap N alpha beta hpos hN csHash cs _)

/-- The transform on the two square roots of one in the field with three elements. -/
def lineFqfft : Libfqfft (ZMod 3) (ZMod 3) (ZMod 3) where
  domainElement _ := -1
  fftG1 as omega := RootsOfUnity.dft omega as
  fftG2 as omega := RootsOfUnity.dft omega as

theorem computesDft_lineFqfft : lineFqfft.ComputesDft 2 where
  isPrimitiveRoot := IsPrimitiveRoot.neg_one 3 (by decide)
  fftG1_eq _ _ := rfl
  fftG2_eq _ _ := rfl

/-- Two constraints over one input and one further variable. -/
def lineQap : QapInstance (ZMod 3) where
  numVariables := 2
  degree := 2
  numInputs := 1
  AInLagrangeBasis := [[(0, 1)], [(0, 1), (1, 2)], []]
  BInLagrangeBasis := [[(1, 1)], [], [(0, 2)]]
  CInLagrangeBasis := [[], [(1, 1)], [(0, 1)]]
  numInputs_le := by decide
  lt_degree := by decide

theorem runMpc_eq_groth16Key_line :
    ∃ key, lineSetting.runMpc lineFqfft (lineSetting.dummyPowersoftauFromSecrets 2 1 2 4)
      lineAccumulator.csHash () lineQap [(2, 1)] = .ok key ∧ key.pk.deltaG1 = 2 := by
  refine ⟨_, runMpc_eq_groth16Key lineFqfft lineQap (k := 1) rfl (by decide) computesDft_lineFqfft
    2 1 2 lineAccumulator.csHash () [(2, 1)], ?_⟩
  exact mul_one (2 : ZMod 3)

end Setting

end

end Zeth.Mpc
