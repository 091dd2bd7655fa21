import Zeth.Client.Pairing
import Zeth.Contract.Groth16AltBN128

/-!
# From the prover server to the verifier contract

The class `Groth16` of `client/zeth/core/zksnark.py` turns verification keys and proofs, as received
from the prover server, into the words that the verifier contract takes. The server writes the
affine coordinates of points in hexadecimal (`libzeth/core/group_element_utils.tcc`), and those of
the identity as `(0, 1)`.

The contract takes `(0, 0)` for the identity, and `(0, 1)` is on neither curve. It also takes
coordinates below the order of the base field only, while the client negates a zero coefficient to
that order. So a valid proof is accepted exactly if no point of the key and of the proof is the
identity, and no coefficient of the second coordinates of `beta` and `delta` is zero
(`Groth16.accepts_valid_iff`).

## Main definitions

* `Groth16.verificationKeyToContractParameters`, `Groth16.proofToContractParameters`.
* `Groth16.Accepts`: the contract accepts the words of a key and of a proof.
* `Groth16.HasContractForm`: the points that survive the two conversions.

## Main results

* `Groth16.accepts_valid_iff`.
-/

namespace Zeth.Client

open ByteString Python AltBN128 PairingGroups List

/-! ### The client -/

/-- `Groth16.VerificationKey`. -/
structure Groth16.VerificationKey where
  alpha : G1Point
  beta : G2Point
  delta : G2Point
  abc : List G1Point

/-- `Groth16.Proof`. -/
structure Groth16.Proof where
  a : G1Point
  b : G2Point
  c : G1Point

namespace Groth16

/-- `Groth16.verification_key_to_contract_parameters`. -/
def verificationKeyToContractParameters (vk : VerificationKey) (ppQ : String) :
    Except Exc (List ℕ) := do
  let minusBeta ← g2PointNegate vk.beta ppQ
  let minusDelta ← g2PointNegate vk.delta ppQ
  let alpha ← g1PointToContractParameters vk.alpha
  let minusBeta ← g2PointToContractParameters minusBeta
  let minusDelta ← g2PointToContractParameters minusDelta
  let abc ← vk.abc.mapM g1PointToContractParameters
  return alpha ++ minusBeta ++ minusDelta ++ abc.flatten

/-- `Groth16.proof_to_contract_parameters`. -/
def proofToContractParameters (proof : Proof) : Except Exc (List ℕ) := do
  let a ← g1PointToContractParameters proof.a
  let b ← g2PointToContractParameters proof.b
  let c ← g1PointToContractParameters proof.c
  return a ++ b ++ c

/-- The words of integers. -/
def toWords (params : List ℕ) : List Word := params.map (BitVec.ofNat 256)

/-- The contract accepts the words that the client makes of a key and of a proof. -/
def Accepts {GT : Type*} [CommGroup GT] [DecidableEq GT] (e : Pairing G1 G2 GT)
    (vk : VerificationKey) (ppQ : String) (proof : Proof) (inputs : List Word) : Prop :=
  ∃ vkParams proofParams,
    verificationKeyToContractParameters vk ppQ = .ok vkParams ∧
      proofToContractParameters proof = .ok proofParams ∧
        Groth16AltBN128.verify e (toWords vkParams) (toWords proofParams) inputs = .ok true

/-! ### The prover server -/

/-- `to_affine_coordinates`: those of the identity are `(0, 1)`. -/
def toAffineCoordinates {K : Type*} [Field K] (E : ShortCurve K) (P : E.Point) : K × K :=
  (E.coordinates P).getD (0, 1)

/-- An element of the base field. -/
def fqToJson (x : Fq) : String := "0x" ++ hex (toBig 32 x.val)

/-- An element of the extension field, the coefficient of `i` first. -/
def fq2ToJson (z : Fq2) : Coordinate := .list [fqToJson z.im, fqToJson z.re]

/-- `group_element_write_json`, for the first group. -/
def g1ToJson (P : G1) : G1Point where
  xCoord := fqToJson (toAffineCoordinates curve P).1
  yCoord := fqToJson (toAffineCoordinates curve P).2

/-- `group_element_write_json`, for the second group. -/
def g2ToJson (Q : G2) : G2Point where
  xCoord := fq2ToJson (toAffineCoordinates twist Q).1
  yCoord := fq2ToJson (toAffineCoordinates twist Q).2

/-- The order of the base field in the pairing parameters, without `0x`. -/
def altBN128Q : String := hex (toBig 32 q)

/-- A verification key as the server writes it. -/
def keyToJson {l : ℕ} (key : Zeth.Groth16.VerificationKey G1 G2 l) : VerificationKey where
  alpha := g1ToJson key.alpha
  beta := g2ToJson key.beta
  delta := g2ToJson key.delta
  abc := List.ofFn fun i => g1ToJson (key.abc i)

/-- A proof as the server writes it. -/
def proofToJson (pf : Zeth.Groth16.Proof G1 G2) : Proof where
  a := g1ToJson pf.a
  b := g2ToJson pf.b
  c := g1ToJson pf.c

/-! ### The integers of points -/

/-- The integers of a point of the first group. -/
def g1Params (P : G1) : List ℕ :=
  [(toAffineCoordinates curve P).1.val, (toAffineCoordinates curve P).2.val]

/-- The integers of an element of the extension field. -/
def fq2Params (z : Fq2) : List ℕ := [z.im.val, z.re.val]

/-- The integers of an element of the extension field as the client negates it. -/
def negFq2Params (z : Fq2) : List ℕ := [q - z.im.val % q, q - z.re.val % q]

/-- The integers of a point of the second group. -/
def g2Params (Q : G2) : List ℕ :=
  fq2Params (toAffineCoordinates twist Q).1 ++ fq2Params (toAffineCoordinates twist Q).2

/-- The integers of a point of the second group as the client negates it. -/
def negG2Params (Q : G2) : List ℕ :=
  fq2Params (toAffineCoordinates twist Q).1 ++ negFq2Params (toAffineCoordinates twist Q).2

theorem q_lt : q < 256 ^ 32 := by decide

theorem val_lt (x : Fq) : x.val < 256 ^ 32 := (ZMod.val_lt x).trans q_lt

theorem hexToUint256List_toBig {n : ℕ} (hn : n < 256 ^ 32) :
    hexToUint256List ("0x" ++ hex (toBig 32 n)) = .ok [n] := by
  rw [hexToUint256List_hex (length_toBig 32 n), fromBig_toBig, Nat.mod_eq_of_lt hn]

theorem hexToUint256List_fqToJson (x : Fq) : hexToUint256List (fqToJson x) = .ok [x.val] :=
  hexToUint256List_toBig (val_lt x)

theorem g1PointToContractParameters_g1ToJson (P : G1) :
    g1PointToContractParameters (g1ToJson P) = .ok (g1Params P) := by
  simp only [g1PointToContractParameters, g1ToJson, hexToUint256List_fqToJson, Except.ok_bind]
  rfl

theorem g2PointToContractParameters_g2ToJson (Q : G2) :
    g2PointToContractParameters (g2ToJson Q) = .ok (g2Params Q) := by
  simp only [g2PointToContractParameters, g2ToJson, fq2ToJson, hexListToUint256List,
    Coordinate.elements, mapM_cons, mapM_nil, hexToUint256List_fqToJson, Except.ok_bind]
  rfl

/-- The point that the client makes of a negated one. -/
def negG2ToJson (Q : G2) : G2Point where
  xCoord := fq2ToJson (toAffineCoordinates twist Q).1
  yCoord := .list ((negFq2Params (toAffineCoordinates twist Q).2).map
    fun n => "0x" ++ hex (toBig 32 n))

theorem g2PointNegate_g2ToJson (Q : G2) :
    g2PointNegate (g2ToJson Q) altBN128Q = .ok (negG2ToJson Q) := by
  have hneg (x : Fq) : fieldElementNegate (fqToJson x) altBN128Q =
      .ok ("0x" ++ hex (toBig 32 (q - x.val % q))) :=
    fieldElementNegate_hex q_lt prime_q.pos (val_lt x) (by decide)
  simp only [g2PointNegate, g2ToJson, fq2ToJson, mapM_cons, mapM_nil, hneg,
    Except.ok_bind]
  rfl

theorem g2PointToContractParameters_negG2ToJson (Q : G2) :
    g2PointToContractParameters (negG2ToJson Q) = .ok (negG2Params Q) := by
  have hneg (x : Fq) : hexToUint256List ("0x" ++ hex (toBig 32 (q - x.val % q))) =
      .ok [q - x.val % q] := hexToUint256List_toBig ((Nat.sub_le _ _).trans_lt q_lt)
  simp only [g2PointToContractParameters, negG2ToJson, fq2ToJson, hexListToUint256List,
    Coordinate.elements, negFq2Params, map_cons, map_nil, mapM_cons, mapM_nil,
    hexToUint256List_fqToJson, hneg, Except.ok_bind]
  rfl

/-- The integers of a key. -/
def keyParams {l : ℕ} (key : Zeth.Groth16.VerificationKey G1 G2 l) : List ℕ :=
  g1Params key.alpha ++ negG2Params key.beta ++ negG2Params key.delta ++
    (List.ofFn fun i => g1Params (key.abc i)).flatten

/-- The integers of a proof. -/
def proofParams (pf : Zeth.Groth16.Proof G1 G2) : List ℕ :=
  g1Params pf.a ++ g2Params pf.b ++ g1Params pf.c

theorem verificationKeyToContractParameters_keyToJson {l : ℕ}
    (key : Zeth.Groth16.VerificationKey G1 G2 l) :
    verificationKeyToContractParameters (keyToJson key) altBN128Q = .ok (keyParams key) := by
  have habc := Except.mapM_map_eq_ok g1PointToContractParameters_g1ToJson (List.ofFn key.abc)
  rw [map_ofFn, map_ofFn] at habc
  simp only [verificationKeyToContractParameters, keyToJson, g2PointNegate_g2ToJson,
    g1PointToContractParameters_g1ToJson, g2PointToContractParameters_negG2ToJson, Except.ok_bind]
  rw [show (fun i => g1ToJson (key.abc i)) = g1ToJson ∘ key.abc from rfl, habc]
  rfl

theorem proofToContractParameters_proofToJson (pf : Zeth.Groth16.Proof G1 G2) :
    proofToContractParameters (proofToJson pf) = .ok (proofParams pf) := by
  simp only [proofToContractParameters, proofToJson, g1PointToContractParameters_g1ToJson,
    g2PointToContractParameters_g2ToJson, Except.ok_bind]
  rfl

/-! ### The points that the contract reads -/

/-- The words of affine coordinates encode the point, unless it is the identity. -/
theorem decode_toAffineCoordinates {K : Type*} [Field K] [DecidableEq K] {E : ShortCurve K} {n : ℕ}
    {c : Encoding Word K n} (hone : (1 : K) ^ 2 ≠ 0 ^ 3 + E.b) {P P' : E.Point} :
    (E.encoding c).decode
        (c.encode (toAffineCoordinates E P).1 ++ c.encode (toAffineCoordinates E P).2) = some P' ↔
      P ≠ 0 ∧ P' = P := by
  rcases P with _ | ⟨x, y, h⟩
  · have hzero : (E.encoding c).decode (c.encode 0 ++ c.encode 1) ≠ some P' := by
      intro h
      obtain ⟨x, y, hx, hy, ⟨-, rfl, -⟩ | ⟨hcurve, -⟩⟩ :=
        (ShortCurve.decode_eq_some_iff (c.length_encode 0)).mp h
      · rw [c.decode_encode] at hy
        exact one_ne_zero (Option.some.inj hy)
      · rw [c.decode_encode] at hx hy
        rw [← Option.some.inj hx, ← Option.some.inj hy] at hcurve
        exact hone hcurve
    exact ⟨fun h => absurd h hzero, fun h => absurd rfl h.1⟩
  · have hdecode := (E.encoding c).decode_encode (.some x y h)
    rw [show c.encode (toAffineCoordinates E (.some x y h)).1 ++
      c.encode (toAffineCoordinates E (.some x y h)).2 = (E.encoding c).encode (.some x y h) from rfl,
      hdecode, Option.some_inj]
    exact ⟨fun h => ⟨nofun, h.symm⟩, fun h => h.2.symm⟩

theorem decode_g1Params {P P' : G1} :
    g1.decode (toWords (g1Params P)) = some P' ↔ P ≠ 0 ∧ P' = P :=
  decode_toAffineCoordinates (c := fq) (by decide +kernel)

theorem decode_g2Params {Q Q' : G2} :
    g2.decode (toWords (g2Params Q)) = some Q' ↔ Q ≠ 0 ∧ Q' = Q := by
  have hone : (1 : Fq2) ^ 2 ≠ 0 ^ 3 + twist.b := by
    rw [ne_eq, twist_equation_iff]
    decide +kernel
  rw [Encoding.decode_restrict, ne_eq, ← ZeroMemClass.coe_eq_zero, ← Subtype.coe_inj]
  exact decode_toAffineCoordinates (c := fq2) hone

/-- The word of a negated element: that of zero is not in the field. -/
theorem decode_negated {y k : Fq} :
    fq.decode [BitVec.ofNat 256 (q - y.val % q)] = some k ↔ y ≠ 0 ∧ k = -y := by
  have hle : y.val ≤ q := (ZMod.val_lt y).le
  have htoNat : (BitVec.ofNat 256 (q - y.val % q)).toNat = q - y.val := by
    rw [Nat.mod_eq_of_lt (ZMod.val_lt y), BitVec.toNat_ofNat, Nat.mod_eq_of_lt]
    exact (Nat.sub_le _ _).trans_lt q_lt
  have hlt : q - y.val < q ↔ y ≠ 0 := by
    rw [ne_eq, ← ZMod.val_eq_zero]
    have := prime_q.pos
    omega
  have hcast : ((q - y.val : ℕ) : Fq) = -y := by
    rw [Nat.cast_sub hle, ZMod.natCast_self, ZMod.natCast_zmod_val, zero_sub]
  rw [Encoding.decode_ofZMod, htoNat, hlt, hcast, eq_comm]

theorem decode_negFq2Params {y k : Fq2} :
    fq2.decode (toWords (negFq2Params y)) = some k ↔ (y.im ≠ 0 ∧ y.re ≠ 0) ∧ k = -y := by
  have hlen : [BitVec.ofNat 256 (q - y.im.val % q)].length = 1 := rfl
  have hwords : toWords (negFq2Params y) = [BitVec.ofNat 256 (q - y.im.val % q)] ++
      [BitVec.ofNat 256 (q - y.re.val % q)] := rfl
  rw [hwords, Encoding.decode_ofQuadratic hlen, decode_negated, decode_negated, QuadraticAlgebra.ext_iff, QuadraticAlgebra.re_neg,
    QuadraticAlgebra.im_neg]
  tauto

/-- No coefficient of the second coordinate is zero. In particular the point is not the identity. -/
def YCoefficientsNeZero (Q : G2) : Prop :=
  (toAffineCoordinates twist Q).2.im ≠ 0 ∧ (toAffineCoordinates twist Q).2.re ≠ 0

/-- The words of the negated point encode it, unless a coefficient of the second coordinate is
zero. -/
theorem decode_negG2Params {Q Q' : G2} :
    g2.decode (toWords (negG2Params Q)) = some Q' ↔ YCoefficientsNeZero Q ∧ Q' = -Q := by
  have hlen (z : Fq2) : (toWords (fq2Params z)).length = 2 := rfl
  have hneg (h : YCoefficientsNeZero Q) : g2.decode (toWords (negG2Params Q)) = some (-Q) := by
    have hQ : Q ≠ 0 := by
      rintro rfl
      exact h.1 rfl
    refine Encoding.decode_restrict.mpr ?_
    exact ShortCurve.decode_neg (hlen _) (Encoding.decode_restrict.mp (decode_g2Params.mpr ⟨hQ, rfl⟩))
      (fq2.decode_encode _) (decode_negFq2Params.mpr ⟨h, rfl⟩)
  constructor
  · intro h
    obtain ⟨x, y, -, hy, -⟩ :=
      (ShortCurve.decode_eq_some_iff (hlen _)).mp (Encoding.decode_restrict.mp h)
    have hQ := (decode_negFq2Params.mp hy).1
    exact ⟨hQ, Option.some.inj (h.symm.trans (hneg hQ))⟩
  · rintro ⟨hQ, rfl⟩
    exact hneg hQ

/-- The points of a key and of a proof that survive the two conversions. -/
structure HasContractForm {l : ℕ} (key : Zeth.Groth16.VerificationKey G1 G2 l)
    (pf : Zeth.Groth16.Proof G1 G2) : Prop where
  alpha : key.alpha ≠ 0
  beta : YCoefficientsNeZero key.beta
  delta : YCoefficientsNeZero key.delta
  abc : ∀ i, key.abc i ≠ 0
  a : pf.a ≠ 0
  b : pf.b ≠ 0
  c : pf.c ≠ 0

section Words

open Zeth.Groth16 (slots EncodesKey EncodesProof read_slots_append read_slots_flatten)

variable {l : ℕ} {key key' : Zeth.Groth16.VerificationKey G1 G2 l}
  {pf pf' : Zeth.Groth16.Proof G1 G2}

theorem length_keyParams : (toWords (keyParams key)).length = 0x0a + 2 * (l + 1) := by
  have hsum : ((List.ofFn fun i => g1Params (key.abc i)).map List.length).sum = 2 * (l + 1) := by
    rw [map_ofFn, sum_ofFn]
    simp [g1Params, mul_comm]
  rw [toWords, length_map, keyParams, length_append, length_flatten, hsum]
  rfl

/-- The slots of a key. -/
theorem read_keyParams (key : Zeth.Groth16.VerificationKey G1 G2 l) :
    (slots (toWords (keyParams key))).read 0 2 = toWords (g1Params key.alpha) ∧
      (slots (toWords (keyParams key))).read 2 (2 * 2) = toWords (negG2Params key.beta) ∧
        (slots (toWords (keyParams key))).read (3 * 2) (2 * 2) = toWords (negG2Params key.delta) ∧
          ∀ i : Fin (l + 1), (slots (toWords (keyParams key))).read (5 * 2 + 2 * i) 2 =
            toWords (g1Params (key.abc i)) := by
  have halpha : toWords (keyParams key) = toWords (g1Params key.alpha) ++
      (toWords (negG2Params key.beta) ++ (toWords (negG2Params key.delta) ++
        (List.ofFn fun i => toWords (g1Params (key.abc i))).flatten)) := by
    simp [toWords, keyParams, map_flatten, map_ofFn, Function.comp_def]
  have hbeta := halpha
  rw [← append_assoc] at hbeta
  have hdelta := hbeta
  rw [← append_assoc] at hdelta
  have hlen₁ (P : G1) : (toWords (g1Params P)).length = 2 := rfl
  have hlen₂ (Q : G2) : (toWords (negG2Params Q)).length = 2 * 2 := rfl
  refine ⟨?_, ?_, ?_, fun i => ?_⟩
  · rw [halpha]
    exact read_slots_append (p := []) rfl (hlen₁ _)
  · rw [halpha]
    exact read_slots_append (hlen₁ _) (hlen₂ _)
  · rw [hbeta]
    exact read_slots_append (by rw [length_append, hlen₁, hlen₂]) (hlen₂ _)
  · have hlen : ∀ ws ∈ List.ofFn fun i => toWords (g1Params (key.abc i)), ws.length = 2 := by
      intro ws hws
      obtain ⟨j, rfl⟩ := mem_ofFn.mp hws
      exact hlen₁ _
    have hi : (i : ℕ) < (List.ofFn fun i => toWords (g1Params (key.abc i))).length := by
      rw [length_ofFn]
      exact i.2
    rw [hdelta]
    exact (read_slots_flatten hlen hi).trans (List.getElem_ofFn _)

/-- The key that the contract reads. -/
theorem encodesKey_keyParams_iff :
    EncodesKey g1 g2 (slots (toWords (keyParams key))) key' ↔
      (key.alpha ≠ 0 ∧ YCoefficientsNeZero key.beta ∧ YCoefficientsNeZero key.delta ∧
        ∀ i, key.abc i ≠ 0) ∧ key' = key := by
  obtain ⟨halpha, hbeta, hdelta, habc⟩ := read_keyParams key
  constructor
  · rintro ⟨h₁, h₂, h₃, h₄⟩
    rw [halpha, decode_g1Params] at h₁
    rw [hbeta, decode_negG2Params, neg_inj] at h₂
    rw [hdelta, decode_negG2Params, neg_inj] at h₃
    have h₄ (i) : key.abc i ≠ 0 ∧ key'.abc i = key.abc i := decode_g1Params.mp (habc i ▸ h₄ i)
    refine ⟨⟨h₁.1, h₂.1, h₃.1, fun i => (h₄ i).1⟩, ?_⟩
    rcases key' with ⟨alpha, beta, delta, abc⟩
    rcases key with ⟨_, _, _, _⟩
    exact congr (congr (congr (congrArg _ h₁.2) h₂.2) h₃.2) (funext fun i => (h₄ i).2)
  · rintro ⟨⟨h₁, h₂, h₃, h₄⟩, rfl⟩
    refine ⟨?_, ?_, ?_, fun i => ?_⟩
    · rw [halpha, decode_g1Params]
      exact ⟨h₁, rfl⟩
    · rw [hbeta, decode_negG2Params]
      exact ⟨h₂, rfl⟩
    · rw [hdelta, decode_negG2Params]
      exact ⟨h₃, rfl⟩
    · rw [habc, decode_g1Params]
      exact ⟨h₄ i, rfl⟩

theorem read_proofParams (pf : Zeth.Groth16.Proof G1 G2) :
    (slots (toWords (proofParams pf))).read 0 2 = toWords (g1Params pf.a) ∧
      (slots (toWords (proofParams pf))).read 2 (2 * 2) = toWords (g2Params pf.b) ∧
        (slots (toWords (proofParams pf))).read (3 * 2) 2 = toWords (g1Params pf.c) :=
  ⟨rfl, rfl, rfl⟩

/-- The proof that the contract reads. -/
theorem encodesProof_proofParams_iff :
    EncodesProof g1 g2 (slots (toWords (proofParams pf))) pf' ↔
      (pf.a ≠ 0 ∧ pf.b ≠ 0 ∧ pf.c ≠ 0) ∧ pf' = pf := by
  obtain ⟨ha, hb, hc⟩ := read_proofParams pf
  constructor
  · rintro ⟨h₁, h₂, h₃⟩
    rw [ha, decode_g1Params] at h₁
    rw [hb, decode_g2Params] at h₂
    rw [hc, decode_g1Params] at h₃
    refine ⟨⟨h₁.1, h₂.1, h₃.1⟩, ?_⟩
    rcases pf' with ⟨a, b, c⟩
    rcases pf with ⟨_, _, _⟩
    exact congr (congr (congrArg _ h₁.2) h₂.2) h₃.2
  · rintro ⟨⟨h₁, h₂, h₃⟩, rfl⟩
    refine ⟨?_, ?_, ?_⟩
    · rw [ha, decode_g1Params]
      exact ⟨h₁, rfl⟩
    · rw [hb, decode_g2Params]
      exact ⟨h₂, rfl⟩
    · rw [hc, decode_g1Params]
      exact ⟨h₃, rfl⟩

end Words

section Main

open Zeth.Groth16 (Verifies slots)

open Groth16AltBN128 (cancellingKey)

variable {GT : Type*} [CommGroup GT] [DecidableEq GT]

/-- What the contract makes of keys and proofs as the server writes them. -/
theorem accepts_iff (e : Pairing G1 G2 GT) {l : ℕ} (key : Zeth.Groth16.VerificationKey G1 G2 l)
    (pf : Zeth.Groth16.Proof G1 G2) {x : Fin l → Word} (hx : ∀ i, x i < Curve.altBN128.r) :
    Accepts e (keyToJson key) altBN128Q (proofToJson pf) (List.ofFn x) ↔
      HasContractForm key pf ∧ Verifies e genG2 key (fun i => (x i).toNat) pf := by
  have hinputs : ∀ w ∈ List.ofFn x, w < Curve.altBN128.r := by
    intro w hw
    obtain ⟨i, rfl⟩ := mem_ofFn.mp hw
    exact hx i
  have hslots (i : Fin l) : slots (List.ofFn x) i = x i := by simp [slots]
  have haccepts : Accepts e (keyToJson key) altBN128Q (proofToJson pf) (List.ofFn x) ↔
      Groth16AltBN128.verify e (toWords (keyParams key)) (toWords (proofParams pf))
        (List.ofFn x) = .ok true := by
    simp only [Accepts, verificationKeyToContractParameters_keyToJson,
      proofToContractParameters_proofToJson, Except.ok.injEq, exists_and_left, exists_eq_left']
  rw [haccepts, Groth16AltBN128.verify_eq_ok_true_iff_encodes e length_keyParams rfl
    length_ofFn, and_iff_right hinputs]
  constructor
  · rintro ⟨key', pf', x', ⟨hkey, hpf, hx'⟩, hver⟩
    obtain ⟨⟨halpha, hbeta, hdelta, habc⟩, rfl⟩ := encodesKey_keyParams_iff.mp hkey
    obtain ⟨⟨ha, hb, hc⟩, rfl⟩ := encodesProof_proofParams_iff.mp hpf
    obtain rfl : x' = fun i => (x i).toNat := by
      funext i
      rw [← hslots]
      exact (Option.some.inj (hx' i)).symm
    exact ⟨⟨halpha, hbeta, hdelta, habc, ha, hb, hc⟩, hver⟩
  · rintro ⟨⟨halpha, hbeta, hdelta, habc, ha, hb, hc⟩, hver⟩
    refine ⟨key, pf, fun i => (x i).toNat, ⟨?_, ?_, fun i => ?_⟩, hver⟩
    · exact encodesKey_keyParams_iff.mpr ⟨⟨halpha, hbeta, hdelta, habc⟩, rfl⟩
    · exact encodesProof_proofParams_iff.mpr ⟨⟨ha, hb, hc⟩, rfl⟩
    · rw [hslots]

/-- A valid proof is accepted exactly if no point of the key and of the proof is the identity, and
no coefficient of the second coordinates of `beta` and `delta` is zero. -/
theorem accepts_valid_iff (e : Pairing G1 G2 GT) {l : ℕ}
    (key : Zeth.Groth16.VerificationKey G1 G2 l) (pf : Zeth.Groth16.Proof G1 G2) (x : Fin l → Word)
    (hx : ∀ i, x i < Curve.altBN128.r)
    (hver : Verifies e genG2 key (fun i => (x i).toNat) pf) :
    Accepts e (keyToJson key) altBN128Q (proofToJson pf) (List.ofFn x) ↔
      HasContractForm key pf := by
  rw [accepts_iff e key pf hx, and_iff_left hver]

/-- The generators are accepted as a proof of the input `2`, which is valid under every pairing. -/
theorem accepts_generators :
    Accepts (Pairing.one : Pairing G1 G2 (Multiplicative ℤ)) (keyToJson cancellingKey) altBN128Q
      (proofToJson ⟨genG1, genG2, genG1⟩) (List.ofFn fun _ : Fin 1 => 2) := by
  have hG1 : genG1 ≠ 0 := genG1_ne_zero
  have hG2 : YCoefficientsNeZero genG2 := by
    show genG2Y.im ≠ 0 ∧ genG2Y.re ≠ 0
    decide +kernel
  refine (accepts_valid_iff Pairing.one cancellingKey _ (fun _ => 2) (fun _ => by decide)
    (Groth16AltBN128.verifies_cancellingKey_two _)).mpr
    ⟨hG1, hG2, hG2, fun i => ?_, hG1, ?_, hG1⟩
  · simp only [cancellingKey]
    split_ifs
    · exact hG1
    · exact neg_ne_zero.mpr hG1
  · rw [ne_eq, ← ZeroMemClass.coe_eq_zero]
    intro h
    cases h

omit [DecidableEq GT] in
/-- For the input `1` the points `ABC` cancel. So the proof of `alpha`, `beta` and the identity is
valid under every pairing. -/
theorem verifies_cancellingKey (e : Pairing G1 G2 GT) :
    Verifies e genG2 cancellingKey (fun _ => 1) ⟨genG1, genG2, 0⟩ := by
  have hcombine : cancellingKey.combine (fun _ => 1) = 0 := by
    simp [cancellingKey, Zeth.Groth16.VerificationKey.combine]
  rw [Verifies, hcombine, e.zero_left, e.zero_left, mul_one, mul_one]
  rfl

/-- A valid proof that is not accepted: its last point is the identity. -/
theorem valid_not_accepted :
    Verifies (Pairing.one : Pairing G1 G2 (Multiplicative ℤ)) genG2 cancellingKey (fun _ => 1)
        ⟨genG1, genG2, 0⟩ ∧
      ¬ Accepts (Pairing.one : Pairing G1 G2 (Multiplicative ℤ)) (keyToJson cancellingKey) altBN128Q
        (proofToJson ⟨genG1, genG2, 0⟩) (List.ofFn fun _ : Fin 1 => 1) := by
  refine ⟨verifies_cancellingKey Pairing.one, fun h => ?_⟩
  rw [accepts_iff _ _ _ (fun _ => by decide)] at h
  exact h.1.c rfl

end Main

end Groth16

end Zeth.Client
