import Mathlib.Data.Nat.ModEq
import Mathlib.Tactic.Linarith
import Zeth.Foundation.Except

/-!
# Words, the curve-specific parts of the mixer and MiMC

The mixer comes in one version for each pairing (`AbstractMixerAltBN128.sol`,
`AbstractMixerBLS12_377.sol`). They differ in the order `r` of the scalar field, in the number of
rounds of the MiMC hash (`LibMiMC.sol`), and in the number of bits of a 256-bit digest that fit a
field element; the remaining residual bits of all digests travel together in one word.

The hash reads its arguments modulo `r` (`LibMiMC.hashE17_congr`), while `_extractBytes32` reads
words.

## Main definitions

* `Word`, `Address`, `require`, `Curve`.
* `LibMiMC.hashE17`, `Curve.hash`.
* `extractBytes32`, `Curve.extractBytes32`, `Curve.residualBits`.

## Main results

* `LibMiMC.hashE17_congr`, `Curve.extractBytes32_congr`.
-/

namespace Zeth

/-- `uint256` and `bytes32`. -/
abbrev Word := BitVec 256

/-- `address`. -/
abbrev Address := BitVec 160

/-- `require(condition, message)`. -/
def require (condition : Bool) (message : String) : Except String Unit :=
  if condition then .ok () else .error message

@[simp] theorem require_true (message : String) : require true message = .ok () := rfl

@[simp] theorem require_eq_ok {condition : Bool} {message : String} {u : Unit} :
    require condition message = .ok u ↔ condition = true := by
  cases condition <;> simp [require]

/-- The pairings the mixer is implemented for. -/
inductive Curve where
  | altBN128
  | bls12_377
  deriving DecidableEq, Repr

/-! ### MiMC -/

namespace LibMiMC

/-- `addmod`. -/
def addmod (x y r : Word) : Word :=
  if r = 0 then 0 else BitVec.ofNat 256 ((x.toNat + y.toNat) % r.toNat)

/-- `mulmod`. -/
def mulmod (x y r : Word) : Word :=
  if r = 0 then 0 else BitVec.ofNat 256 ((x.toNat * y.toNat) % r.toNat)

/-- The exponentiation of one round. -/
def pow17 (a r : Word) : Word :=
  let a2 := mulmod a a r
  let a4 := mulmod a2 a2 r
  let a8 := mulmod a4 a4 r
  mulmod (mulmod a8 a8 r) a r

/-- The loop of `_hash_e17` over the rounds after the first; `pad` is the memory word that the round
constants are derived from. -/
def hashRounds (keccak256 : Word → Word) (y r : Word) : ℕ → Word → Word → Word
  | 0, _, a => a
  | n + 1, pad, a =>
    let roundConstant := keccak256 pad
    hashRounds keccak256 y r n roundConstant
      (pow17 (addmod (addmod a roundConstant r) y r) r)

/-- The seed of the round constants. -/
def seed : Word := 0xdec937b7fa8db3de380427a8cc947bfab68514522c3439cfa2e9965509836814#256

/-- `_hash_e17`. -/
def hashE17 (keccak256 : Word → Word) (x y r : Word) (rounds : ℕ) : Word :=
  let a := pow17 (addmod x y r) r
  let a := hashRounds keccak256 y r (rounds - 1) seed a
  let a := addmod a y r
  addmod (addmod a x r) y r

variable {x x' y y' r : Word}

theorem addmod_congr (hx : x.toNat ≡ x'.toNat [MOD r.toNat])
    (hy : y.toNat ≡ y'.toNat [MOD r.toNat]) : addmod x y r = addmod x' y' r := by
  rw [addmod, addmod, hx.add hy]

theorem hashRounds_congr (keccak256 : Word → Word) (hy : y.toNat ≡ y'.toNat [MOD r.toNat])
    (n : ℕ) (pad a : Word) :
    hashRounds keccak256 y r n pad a = hashRounds keccak256 y' r n pad a := by
  induction n generalizing pad a with
  | zero => rfl
  | succ n ih =>
    rw [hashRounds, hashRounds, addmod_congr (Nat.ModEq.refl _) hy, ih]

/-- The hash depends on its arguments modulo `r` only. -/
theorem hashE17_congr (keccak256 : Word → Word) (rounds : ℕ)
    (hx : x.toNat ≡ x'.toNat [MOD r.toNat]) (hy : y.toNat ≡ y'.toNat [MOD r.toNat]) :
    hashE17 keccak256 x y r rounds = hashE17 keccak256 x' y' r rounds := by
  simp only [hashE17]
  rw [addmod_congr hx hy, hashRounds_congr keccak256 hy]
  refine addmod_congr ?_ hy
  rw [addmod_congr (Nat.ModEq.refl _) hy, addmod_congr (Nat.ModEq.refl _) hx]

end LibMiMC

namespace Curve

/-- The order of the scalar field. -/
def r : Curve → Word
  | altBN128 => 21888242871839275222246405745257275088548364400416034343698204186575808495617#256
  | bls12_377 => 8444461749428370424248824938781546531375899335154063827935233455917409239041#256

/-- `LibMiMC._hashAltBN128` and `LibMiMC._hashBLS12_377`. -/
def hash (keccak256 : Word → Word) : Curve → Word → Word → Word
  | altBN128, x, y => LibMiMC.hashE17 keccak256 x y altBN128.r 65
  | bls12_377, x, y => LibMiMC.hashE17 keccak256 x y bls12_377.r 62

theorem hash_congr (keccak256 : Word → Word) (curve : Curve) {x x' y y' : Word}
    (hx : x.toNat ≡ x'.toNat [MOD curve.r.toNat]) (hy : y.toNat ≡ y'.toNat [MOD curve.r.toNat]) :
    curve.hash keccak256 x y = curve.hash keccak256 x' y' := by
  cases curve with
  | altBN128 => exact LibMiMC.hashE17_congr keccak256 65 hx hy
  | bls12_377 => exact LibMiMC.hashE17_congr keccak256 62 hx hy

end Curve

/-! ### Residual bits -/

/-- `_extractBytes32`, for the number of bits that fit a field element. -/
def extractBytes32 (fieldCapacity : ℕ) (fieldElement residual : Word) (residualBitsSetIdx : ℕ) :
    Word :=
  let numResidualBits := 256 - fieldCapacity
  let residualBitsShift := 256 - numResidualBits
  let residualBitsMask := ((1#256 <<< numResidualBits) - 1#256) <<< residualBitsShift
  let residualBitsIdx := residualBitsSetIdx * numResidualBits
  let bitsToShift := residualBitsShift - 128 - residualBitsIdx
  let residualBits := (residual <<< bitsToShift) &&& residualBitsMask
  fieldElement ||| residualBits

private theorem toNat_lowMask {n : ℕ} (hn : n < 256) :
    ((1#256 <<< n) - 1#256).toNat = 2 ^ n - 1 := by
  have hlt : 2 ^ n < 2 ^ 256 := Nat.pow_lt_pow_right one_lt_two hn
  have hshift : (1#256 <<< n).toNat = 2 ^ n := by
    rw [BitVec.toNat_shiftLeft, BitVec.toNat_ofNat, Nat.one_mod_two_pow (by omega),
      Nat.one_shiftLeft, Nat.mod_eq_of_lt hlt]
  have hle : 1#256 ≤ 1#256 <<< n := by
    rw [BitVec.le_def, hshift]
    exact Nat.one_le_two_pow
  rw [BitVec.toNat_sub_of_le hle, hshift]
  rfl

private theorem getLsbD_residualBitsMask {n i : ℕ} (hn : n < 256) (hi : i < 256) :
    (((1#256 <<< n) - 1#256) <<< (256 - n)).getLsbD i = decide (256 - n ≤ i) := by
  rw [BitVec.getLsbD_shiftLeft, ← BitVec.testBit_toNat, toNat_lowMask hn,
    Nat.testBit_two_pow_sub_one]
  by_cases h : 256 - n ≤ i
  · simp only [hi, h, decide_true, Bool.true_and, decide_eq_true_eq, not_lt.mpr h, decide_false,
      Bool.not_false]
    omega
  · simp [h]

/-- The bits of an extracted word: those of the field element, and from the capacity on also the
residual bits of the set. -/
theorem getLsbD_extractBytes32 {fieldCapacity k : ℕ} (hcap : fieldCapacity ≤ 256)
    (hk : 128 + k * (256 - fieldCapacity) ≤ fieldCapacity) (fieldElement residual : Word) {i : ℕ}
    (hi : i < 256) :
    (extractBytes32 fieldCapacity fieldElement residual k).getLsbD i =
      (fieldElement.getLsbD i || (decide (fieldCapacity ≤ i) &&
        residual.getLsbD (128 + k * (256 - fieldCapacity) + (i - fieldCapacity)))) := by
  simp only [extractBytes32, BitVec.getLsbD_or, BitVec.getLsbD_and,
    getLsbD_residualBitsMask (show 256 - fieldCapacity < 256 by omega) hi,
    BitVec.getLsbD_shiftLeft]
  by_cases h : fieldCapacity ≤ i
  · have hshift : ¬ i < 256 - (256 - fieldCapacity) - 128 - k * (256 - fieldCapacity) := by omega
    have hidx : i - (256 - (256 - fieldCapacity) - 128 - k * (256 - fieldCapacity)) =
        128 + k * (256 - fieldCapacity) + (i - fieldCapacity) := by omega
    have hmask : 256 - (256 - fieldCapacity) ≤ i := by omega
    simp [h, hshift, hidx, hmask, hi]
  · have hmask : ¬ 256 - (256 - fieldCapacity) ≤ i := by omega
    simp [h, hmask]

namespace Curve

/-- `_FIELD_CAPACITY`. -/
def fieldCapacity : Curve → ℕ
  | altBN128 => 253
  | bls12_377 => 252

/-- `_extractBytes32`. -/
def extractBytes32 (curve : Curve) : Word → Word → ℕ → Word :=
  Zeth.extractBytes32 curve.fieldCapacity

/-- The bits of `residual` in the given set of residual bits. -/
def residualBits (curve : Curve) (residual residualBitsSetIdx : ℕ) : ℕ :=
  let numResidualBits := 256 - curve.fieldCapacity
  residual / 2 ^ (128 + residualBitsSetIdx * numResidualBits) % 2 ^ numResidualBits

/-- The residual bits of the digests fit below the capacity, after the public values. -/
theorem residualBits_fit (curve : Curve) {k : ℕ} (hk : k ≤ 4) :
    128 + k * (256 - curve.fieldCapacity) ≤ curve.fieldCapacity ∧
      curve.fieldCapacity ≤ 256 := by
  cases curve with
  | altBN128 =>
    simp only [fieldCapacity]
    omega
  | bls12_377 =>
    simp only [fieldCapacity]
    omega

/-- An extracted word depends on the residual word through the residual bits of its set only, and
not on the place of the set. -/
theorem extractBytes32_congr (curve : Curve) (fieldElement : Word) {residual residual' : Word}
    {k k' : ℕ} (hk : k ≤ 4) (hk' : k' ≤ 4)
    (h : curve.residualBits residual.toNat k = curve.residualBits residual'.toNat k') :
    curve.extractBytes32 fieldElement residual k =
      curve.extractBytes32 fieldElement residual' k' := by
  obtain ⟨hfit, hcap⟩ := curve.residualBits_fit hk
  obtain ⟨hfit', -⟩ := curve.residualBits_fit hk'
  have hbit (j t : ℕ) (ht : t < 256 - curve.fieldCapacity) (w : Word) :
      w.getLsbD (128 + j * (256 - curve.fieldCapacity) + t) =
        (curve.residualBits w.toNat j).testBit t := by
    rw [residualBits, Nat.testBit_mod_two_pow, Nat.testBit_div_two_pow, ← BitVec.testBit_toNat,
      decide_eq_true ht, Bool.true_and, add_comm]
  refine BitVec.eq_of_getLsbD_eq fun i hi => ?_
  rw [extractBytes32, getLsbD_extractBytes32 hcap hfit _ _ hi,
    getLsbD_extractBytes32 hcap hfit' _ _ hi]
  by_cases hc : curve.fieldCapacity ≤ i
  · rw [hbit k _ (by omega), hbit k' _ (by omega), h]
  · rw [decide_eq_false hc, Bool.false_and, Bool.false_and]

end Curve

end Zeth
