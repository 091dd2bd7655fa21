import Zeth.Contract.AltBN128
import Zeth.Contract.Groth16

/-!
# The Groth16 verifier for ALT-BN128

`LibGroth16AltBN128.sol`: points of the first group have two words. Inputs have to be below the order
of the scalar field, and a failed call of a precompiled contract reverts. So a proof is accepted if
and only if all words encode points, the inputs are in the field and the equation holds
(`Groth16AltBN128.verify_eq_ok_true_iff_verifies`).

## Main definitions

* `Groth16AltBN128.verify`.

## Main results

* `Groth16AltBN128.verify_eq_ok_true_iff_verifies`.
-/

namespace Zeth

namespace Groth16AltBN128

open AltBN128 Groth16 PairingGroups

/-- `-g2`, as stored at offset `0x40` of the pad. -/
def negG2 : List Word :=
  [0x198e9393920d483a7260bfb731fb5d25f1aa493335a9e71297e485b7aef312c2#256,
    0x1800deef121f1e76426a00665e5c4479674322d4f75edadd46debd5cd992f6ed#256,
    0x275dc4a288d1afb3cbb1ac09187524c7db36395df7be3b99e673b13a075a65ec#256,
    0x1d9befcd05a5323e6da4d435f3b617cdb3af83285c2df711ef39c01571827f9d#256]

theorem decode_negG2 : g2.decode negG2 = some (-genG2) := by
  have hneg : -twist.point genG2X genG2Y genG2_on_twist ∈ G2 := (-genG2).2
  rw [twist.neg_point] at hneg
  refine (decode_g2 ((neg_sq genG2Y).trans genG2_on_twist) hneg
    (Encoding.decode_ofZMod.mpr (by decide +kernel))
    (Encoding.decode_ofZMod.mpr (by decide +kernel))
    (Encoding.decode_ofZMod.mpr (by decide +kernel))
    (Encoding.decode_ofZMod.mpr (by decide +kernel))).trans ?_
  exact congrArg some (Subtype.ext (twist.neg_point genG2_on_twist).symm)

variable {GT : Type*} [CommGroup GT] [DecidableEq GT]

/-- `LibGroth16AltBN128._verify`. -/
noncomputable def verify (e : Pairing G1 G2 GT) (vk proof input : List Word) :
    Except String Bool := do
  require (proof.length == 8) "Proof size invalid (ALT-BN128)"
  -- The subtractions are checked.
  require (decide (0x0a + 2 ≤ vk.length)) "Panic(0x11)"
  let numInputs := (vk.length - 0x0a) / 2 - 1
  require (input.length == numInputs) "Input length differs from expected"
  require (input.all fun x => decide (x < Curve.altBN128.r)) "Input is not in scalar field"
  let s := linearCombination 2 bn256Add bn256ScalarMul (slots vk) (slots input) numInputs
  require s.2 "Call to the bn256Add or bn256ScalarMul precompiled failed"
  let t := pairingCheck 2 (bn256Pairing e) negG2 (slots vk) (slots proof) s.1
  require t.2 "Call to bn256Add, bn256ScalarMul or bn256Pairing failed"
  return t.1 0 == 1

/-- Acceptance, in terms of the encoded key, proof and scalars. -/
theorem verify_eq_ok_true_iff_encodes (e : Pairing G1 G2 GT) {l : ℕ} {vk proof input : List Word}
    (hvk : vk.length = 0x0a + 2 * (l + 1)) (hproof : proof.length = 8) (hinput : input.length = l) :
    verify e vk proof input = .ok true ↔
      (∀ x ∈ input, x < Curve.altBN128.r) ∧
        ∃ (key : VerificationKey G1 G2 l) (pf : Proof G1 G2) (x : Fin l → ℕ),
          Encodes g1 g2 (fun s => some s.toNat) (slots vk) (slots proof) (slots input) key pf x ∧
            Verifies e genG2 key x pf := by
  have hmin : 0x0a + 2 ≤ vk.length := by omega
  have hnum : (vk.length - 0x0a) / 2 - 1 = l := by omega
  have hverify : verify e vk proof input = .ok true ↔
      (∀ x ∈ input, x < Curve.altBN128.r) ∧
        (linearCombination 2 g1.ecAdd (g1.ecMul fun s => some s.toNat) (slots vk) (slots input)
          l).2 = true ∧
        e.check g1 g2 (fun b => if b then 1 else 0)
          ((pairWords 2 (accumulated g1 (fun s => some s.toNat) (slots vk) (slots input) l) negG2
            (slots vk) (slots proof)).flatMap fun w => w.1 ++ w.2) = some [1] := by
    rw [← read_linearCombination,
      ← pairingCheck_success_iff two_pos e.check_returns (by rfl) (slots vk) (slots proof)]
    simp [verify, Except.bind_eq_ok, hmin, hnum, hproof, hinput, bn256Add, bn256ScalarMul,
      bn256Pairing, pure, Except.pure]
  rw [hverify]
  refine and_congr_right fun _ => ?_
  exact check_eq_some_true_iff e two_pos decode_negG2 rfl (by decide)

/-- A proof is accepted exactly if the inputs are in the scalar field, all words encode points, and
the verification equation holds. -/
theorem verify_eq_ok_true_iff_verifies (e : Pairing G1 G2 GT) {l : ℕ} {vk proof input : List Word}
    (hvk : vk.length = 0x0a + 2 * (l + 1)) (hproof : proof.length = 8) (hinput : input.length = l) :
    verify e vk proof input = .ok true ↔
      (∀ x ∈ input, x < Curve.altBN128.r) ∧
        ∃ (key : VerificationKey G1 G2 l) (pf : Proof G1 G2),
          EncodesKey g1 g2 (slots vk) key ∧ EncodesProof g1 g2 (slots proof) pf ∧
            Verifies e genG2 key (fun i => (slots input i).toNat) pf := by
  rw [verify_eq_ok_true_iff_encodes e hvk hproof hinput]
  refine and_congr_right fun _ => exists_congr fun key => exists_congr fun pf => ⟨?_, ?_⟩
  · rintro ⟨x, ⟨hkey, hpf, hx⟩, hver⟩
    have hx : x = fun i : Fin l => (slots input i).toNat := by
      funext i
      exact (Option.some.inj (hx i)).symm
    subst hx
    exact ⟨hkey, hpf, hver⟩
  · rintro ⟨hkey, hpf, hver⟩
    exact ⟨fun i => (slots input i).toNat, ⟨hkey, hpf, fun _ => rfl⟩, hver⟩

/-- A key for one input, with `ABC` such that the points cancel for the input `1`. -/
def cancellingKey : VerificationKey G1 G2 1 where
  alpha := genG1
  beta := genG2
  delta := genG2
  abc i := if i = 0 then genG1 else -genG1

omit [DecidableEq GT] in
/-- For the input `2` the combination of the points `ABC` is cancelled by the last point of the
proof, under every pairing. -/
theorem verifies_cancellingKey_two (e : Pairing G1 G2 GT) :
    Verifies e genG2 cancellingKey (fun _ => 2) ⟨genG1, genG2, genG1⟩ := by
  have hcombine : cancellingKey.combine (fun _ => 2) = -genG1 := by
    simp [cancellingKey, VerificationKey.combine, two_nsmul]
  rw [Verifies, hcombine, e.neg_left]
  exact (inv_mul_cancel_right _ _).symm

/-- The key of the generators and a proof of the input `2` that is valid under every pairing. -/
theorem verify_generators :
    verify (Pairing.one : Pairing G1 G2 (Multiplicative ℤ))
      ([1, 2] ++ negG2 ++ negG2 ++ [1, 2, 1, BitVec.ofNat 256 (q - 2)])
      ([1, BitVec.ofNat 256 (q - 2)] ++ negG2 ++ [1, 2]) [2] = .ok true := by
  have hinput : ∀ x ∈ [(2 : Word)], x < Curve.altBN128.r :=
    List.forall_mem_singleton.mpr (by decide)
  refine (verify_eq_ok_true_iff_verifies (l := 1) Pairing.one rfl rfl rfl).mpr ⟨hinput, ?_⟩
  refine ⟨cancellingKey, ⟨-genG1, -genG2, genG1⟩, ?_, ?_, ?_⟩
  · refine ⟨decode_genG1, decode_negG2, decode_negG2, fun i => ?_⟩
    fin_cases i
    · exact decode_genG1
    · exact decode_neg_genG1
  · exact ⟨decode_neg_genG1, decode_negG2, decode_genG1⟩
  · rw [Verifies, Pairing.neg_left, Pairing.neg_right, inv_inv]
    exact verifies_cancellingKey_two Pairing.one

end Groth16AltBN128

end Zeth
