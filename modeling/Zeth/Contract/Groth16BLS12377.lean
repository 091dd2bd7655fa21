import Mathlib.Algebra.Field.ZMod
import Mathlib.Tactic.FinCases
import Zeth.Contract.Groth16

/-!
# The Groth16 verifier for BLS12-377

`LibGroth16BLS12_377.sol`: points of the first group have four words. The precompiled contracts
`0xc4`, `0xc5` and `0xc6` are given by the encodings of the groups and a pairing; multiplication
accepts scalars below the order of the scalar field only. The outcomes of the calls are assigned to
`result`, which is never read: the verifier returns whether the first word of the pad is `1`.

A failed call therefore goes unnoticed. An input that is not below the order counts as `1`, a point
of the key that is not valid is left out, and if an argument of the pairings is not valid then the
first word of the accumulated point is taken for the result.

## Main definitions

* `Groth16BLS12377.verify`, `Groth16BLS12377.Valid`, `Groth16BLS12377.asScalar`.

## Main results

* `Groth16BLS12377.groth16_exact_of_valid`: the verifier is exact on valid words, and reads an input
  that is not below the order as `1`.
-/

namespace Zeth

namespace Groth16BLS12377

open Groth16 PairingGroups

/-- `-g2`, as stored at offset `0x080` of the pad. -/
def negG2 : List Word :=
  [0x0000000000000000000000000000000000d6ac33b84947d9845f81a57a136bfa#256,
    0x326e915fabc8cd6a57ff133b42d00f62e4e1af460228cd5184deae976fa62596#256,
    0x0000000000000000000000000000000000b997fef930828fe1b9e6a1707b8aa5#256,
    0x08a3dbfd7fe2246499c709226a0a6fef49f85b3a375363f4f8f6ea3fbd159f8a#256,
    0x00000000000000000000000000000000002933c9ab1da3519734bb7d40c74f7c#256,
    0x96f7cd46d372c68a05fbe4f5d29d09ebac0fdae50f6dde73818058280cc85ff1#256,
    0x0000000000000000000000000000000000955cf57c9676d751f0b5431b46efdd#256,
    0x5ea49e8f219e8b28d7bbd2176e29c49caa767e18b569d34dd5c5880f834819df#256]

/-- The scalars that the contract `0xc5` accepts. -/
def scalar (s : Word) : Option ℕ := if s < Curve.bls12_377.r then some s.toNat else none

variable {G₁ G₂ GT : Type*} [AddCommGroup G₁] [AddCommGroup G₂] [CommGroup GT] [DecidableEq GT]
  (c₁ : Encoding Word G₁ 4) (c₂ : Encoding Word G₂ 8) (e : Pairing G₁ G₂ GT)

/-- The contract `0xc6`. -/
def ecPairing : Evm.Precompile Word := e.check c₁ c₂ fun b => if b then 1 else 0

/-- `LibGroth16BLS12_377._verify`. The pad is declared shorter than what is written to it; the
memory behind it is not in use. -/
def verify (vk proof inputs : List Word) : Except String Bool := do
  require (proof.length == 0x10) "Proof size invalid (BLS12-377)"
  -- The subtractions are checked.
  require (decide (0x14 + 4 ≤ vk.length)) "Panic(0x11)"
  let numInputs := (vk.length - 0x14) / 4 - 1
  require (inputs.length == numInputs) "Input length differs from expected"
  let s := linearCombination 4 c₁.ecAdd (c₁.ecMul scalar) (slots vk) (slots inputs) numInputs
  let t := pairingCheck 4 (ecPairing c₁ c₂ e) negG2 (slots vk) (slots proof) s.1
  return t.1 0 == 1

/-- What an input counts as: itself if it is below the order, and `1` otherwise. -/
def asScalar (s : Word) : Word := if s < Curve.bls12_377.r then s else 1

/-- All words are valid: those of the key and the proof encode points and the inputs are below the
order of the scalar field. -/
def Valid (l : ℕ) (vk proof inputs : List Word) : Prop :=
  ∃ (key : VerificationKey G₁ G₂ l) (pf : Proof G₁ G₂) (x : Fin l → ℕ),
    Encodes c₁ c₂ scalar (slots vk) (slots proof) (slots inputs) key pf x

variable {c₁ c₂ e} {g : G₂} {l : ℕ} {vk proof inputs : List Word}

/-- A multiplication that fails leaves the point as it was, which is its multiple by `1`. -/
theorem term_asScalar (abc : List Word) (input : Word) :
    term c₁ scalar abc (asScalar input) = term c₁ scalar abc input := by
  have hone : scalar 1 = some 1 := by decide
  by_cases h : input < Curve.bls12_377.r
  · rw [asScalar, if_pos h]
  · have hnone : scalar input = none := if_neg h
    rw [asScalar, if_neg h, term, term, hone, hnone]
    simp only [Option.elim_some, one_smul, Option.elim_none]

theorem accumulated_asScalar (key : Evm.Memory Word) (inputs : List Word) (i : ℕ) :
    accumulated c₁ scalar key (slots (inputs.map asScalar)) i =
      accumulated c₁ scalar key (slots inputs) i := by
  induction i with
  | zero => rfl
  | succ i ih =>
    have hinput : slots (inputs.map asScalar) i = asScalar (slots inputs i) :=
      List.getD_map inputs 0 asScalar
    rw [accumulated, accumulated, ih, hinput, addTerm, addTerm, term_asScalar]

section

variable (hg : c₂.decode negG2 = some (-g)) (hvk : vk.length = 0x14 + 4 * (l + 1))
  (hproof : proof.length = 0x10) (hinputs : inputs.length = l)

include hvk hproof hinputs

/-- The word that is compared with `1`. -/
theorem verify_eq_ok_true_iff_words :
    verify c₁ c₂ e vk proof inputs = .ok true ↔
      (ecPairing c₁ c₂ e ((pairWords 4 (accumulated c₁ scalar (slots vk) (slots inputs) l) negG2
        (slots vk) (slots proof)).flatMap fun w => w.1 ++ w.2)).getD
        ((accumulated c₁ scalar (slots vk) (slots inputs) l).take 1) = [1] := by
  have hmin : 0x14 + 4 ≤ vk.length := by omega
  have hnum : (vk.length - 0x14) / 4 - 1 = l := by omega
  have hpos : 0 < 4 := by omega
  set pad := (linearCombination 4 c₁.ecAdd (c₁.ecMul scalar) (slots vk) (slots inputs) l).1
    with hpad
  have hacc : pad.read 0 4 = accumulated c₁ scalar (slots vk) (slots inputs) l :=
    read_linearCombination _ _ l
  have hreturns : (ecPairing c₁ c₂ e).Returns 1 := e.check_returns
  have hfirst := (pairingCheck_eq hpos hreturns (show negG2.length = 2 * 4 from rfl) (slots vk)
    (slots proof) pad).2
  rw [← hacc, show (pad.read 0 4).take 1 = [pad 0] from rfl, ← hfirst, List.singleton_inj]
  simp [verify, hmin, hnum, hproof, hinputs, pure, Except.pure, hpad]

/-- The outcome depends on the inputs by what they count as. -/
theorem verify_asScalar :
    verify c₁ c₂ e vk proof (inputs.map asScalar) = .ok true ↔
      verify c₁ c₂ e vk proof inputs = .ok true := by
  have hlen : (inputs.map asScalar).length = l := by rw [List.length_map, hinputs]
  rw [verify_eq_ok_true_iff_words hvk hproof hlen, verify_eq_ok_true_iff_words hvk hproof hinputs,
    accumulated_asScalar]

include hg

theorem verify_of_encodes {key : VerificationKey G₁ G₂ l} {pf : Proof G₁ G₂} {x : Fin l → ℕ}
    (henc : Encodes c₁ c₂ scalar (slots vk) (slots proof) (slots inputs) key pf x) :
    verify c₁ c₂ e vk proof inputs = .ok true ↔ Verifies e g key x pf := by
  have hpos : 0 < 4 := by omega
  rw [verify_eq_ok_true_iff_words hvk hproof hinputs, ecPairing,
    (check_of_encodes e hpos hg rfl henc).2, Option.getD_some]
  by_cases h : Verifies e g key x pf <;> simp [h]

/-- The verifier accepts exactly the valid proofs among valid words. An input that is not below the
order passes for `1`. -/
theorem groth16_exact_of_valid :
    (Valid c₁ c₂ l vk proof inputs →
      (verify c₁ c₂ e vk proof inputs = .ok true ↔
        ∃ (key : VerificationKey G₁ G₂ l) (pf : Proof G₁ G₂) (x : Fin l → ℕ),
          Encodes c₁ c₂ scalar (slots vk) (slots proof) (slots inputs) key pf x ∧
            Verifies e g key x pf)) ∧
      (verify c₁ c₂ e vk proof (inputs.map asScalar) = .ok true ↔
        verify c₁ c₂ e vk proof inputs = .ok true) := by
  refine ⟨?_, verify_asScalar hvk hproof hinputs⟩
  rintro ⟨key, pf, x, henc⟩
  constructor
  · intro h
    exact ⟨key, pf, x, henc, (verify_of_encodes hg hvk hproof hinputs henc).mp h⟩
  · rintro ⟨key', pf', x', henc', hver⟩
    exact (verify_of_encodes hg hvk hproof hinputs henc').mpr hver

end

/-! ### A point, its negative and zero -/

/-- Zero, a point and its negative, by the words of the two. -/
def threeEncoding {n : ℕ} (one negOne : List Word) (hone : one.length = n)
    (hneg : negOne.length = n) (hnodup : [List.replicate n 0, one, negOne].Nodup) :
    Encoding Word (ZMod 3) n where
  decode ws := if ws = List.replicate n 0 then some 0 else if ws = one then some 1
    else if ws = negOne then some (-1) else none
  encode k := if k = 0 then List.replicate n 0 else if k = 1 then one else negOne
  length_encode k := by
    split_ifs
    · exact List.length_replicate
    · exact hone
    · exact hneg
  decode_encode k := by
    have hk : k = 0 ∨ k = 1 ∨ k = -1 := by
      revert k
      decide
    simp only [List.nodup_cons, List.mem_cons, List.not_mem_nil, or_false, not_or] at hnodup
    obtain ⟨⟨hzero, hzero'⟩, hne, -⟩ := hnodup
    rcases hk with rfl | rfl | rfl
    · rw [if_pos rfl, if_pos rfl]
    · have hone : (1 : ZMod 3) ≠ 0 := by decide
      rw [if_neg hone, if_pos rfl, if_neg (Ne.symm hzero), if_pos rfl]
    · have hnegone : (-1 : ZMod 3) ≠ 0 ∧ (-1 : ZMod 3) ≠ 1 := by decide
      rw [if_neg hnegone.1, if_neg hnegone.2, if_neg (Ne.symm hzero'), if_neg (Ne.symm hne),
        if_pos rfl]

/-- A point of the first group, twice the generator. -/
def pointG1 : List Word :=
  [0x0000000000000000000000000000000000ed453141939e91056edb5a4b5452ed#256,
    0x7e61f7f3dd2a4b7ee90e97c9a2301955880661656781dc90857aed6d6a416390#256,
    0x0000000000000000000000000000000000cfb0b9717bc8e5ae04601813171337#256,
    0xad99cdae42c561cae80b12f135c64479d6a23f5675ed5ca7e2dd5e8727d7c7ed#256]

def negPointG1 : List Word :=
  pointG1.take 2 ++ [0x0000000000000000000000000000000000de898ca64948051836a5a8598a3603#256,
    0x6c890c44be2fb1c436e84f3e8443038640691dedba12a358a22b6178d8283814#256]

/-- The generator of the second group. -/
def genG2 : List Word :=
  negG2.take 4 ++ [0x000000000000000000000000000000000185067c6ca76d992f064a432bd9f9be#256,
    0x832b0cac2d824d0518f77d39e76c3e146afb825f2092218d038867d7f337a010#256,
    0x000000000000000000000000000000000118dd509b2e9a13744a507d515a595d#256,
    0xbb7e3b63df568866473790184bdf83636c94df2b7a962cb2af4337f07cb7e622#256]

def threeG1 : Encoding Word (ZMod 3) 4 := threeEncoding pointG1 negPointG1 rfl rfl (by decide)

def threeG2 : Encoding Word (ZMod 3) 8 := threeEncoding genG2 negG2 rfl rfl (by decide)

/-- The pairing of the multiples of two points, by the product of the numbers. -/
def threePairing : Pairing (ZMod 3) (ZMod 3) (Multiplicative (ZMod 3)) where
  e x y := Multiplicative.ofAdd (x * y)
  add_left x x' y := congrArg Multiplicative.ofAdd (add_mul x x' y)
  add_right x y y' := congrArg Multiplicative.ofAdd (mul_add x y y')

/-- The key with a point as `alpha`, the generator as `beta` and `delta`, and as points `ABC` the
point and its negative. -/
def cancellingWords : List Word := pointG1 ++ negG2 ++ negG2 ++ pointG1 ++ negPointG1

/-- A proof of the input `1`, valid for every pairing. -/
def proofWords : List Word := pointG1 ++ genG2 ++ [0, 0, 0, 0]

private theorem encodes_cancellingWords :
    Encodes threeG1 threeG2 scalar (slots cancellingWords) (slots proofWords) (slots [1])
      ⟨1, 1, 1, ![1, -1]⟩ ⟨1, 1, 0⟩ (fun _ : Fin 1 => 1) := by
  refine ⟨⟨rfl, rfl, rfl, fun i => ?_⟩, ⟨rfl, rfl, rfl⟩, fun i => ?_⟩
  · fin_cases i <;> rfl
  · fin_cases i
    rfl

theorem groth16_exact_of_valid_one :
    verify threeG1 threeG2 threePairing cancellingWords proofWords [1] = .ok true := by
  refine ((groth16_exact_of_valid (g := 1) (by decide) rfl rfl rfl).1
    ⟨_, _, _, encodes_cancellingWords⟩).mpr ⟨_, _, _, encodes_cancellingWords, ?_⟩
  decide

/-- The proof of the input `1` is accepted for the order of the scalar field as well. -/
theorem groth16_not_exact :
    verify threeG1 threeG2 threePairing cancellingWords proofWords [Curve.bls12_377.r] =
        .ok true ∧
      ¬ Valid threeG1 threeG2 1 cancellingWords proofWords [Curve.bls12_377.r] := by
  constructor
  · refine (verify_asScalar rfl rfl rfl).mp ?_
    refine (verify_of_encodes (g := 1) (by decide) rfl rfl rfl encodes_cancellingWords).mpr ?_
    decide
  · rintro ⟨key, pf, x, -, -, hx⟩
    have hnone : scalar (slots [Curve.bls12_377.r] 0) = none := by decide
    exact absurd (hnone.symm.trans (hx 0)) nofun

end Groth16BLS12377

end Zeth
