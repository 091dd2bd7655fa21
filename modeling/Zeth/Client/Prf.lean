import Zeth.Client.Note

/-!
# Pseudorandom functions of the client

The owner of a note, its nullifier and the nonces of new notes are BLAKE2s digests of two halves of
32 bytes, of which the first begins with a tag of four bits and continues with the first 252 bits of
a key (`client/zeth/core/ownership.py`, `client/zeth/core/mixer_client.py`). Each function puts the
first half together from a string of binary digits, in its own way. As for nullifiers, binary strings
are lists of bits.

`eth_abi` is a parameter: byte strings of 32 bytes encode as they are.

## Main definitions

* `EthAbi`, `deriveAPkBlock`, `nullifierBlock`, `computeRhoIBlock`: what is hashed.
* `deriveAPk`, `computeRhoI`.

## Main results

* `exists_deriveAPkBlock`, `exists_nullifierBlock`, `exists_computeRhoIBlock`: the bits of the
  blocks.
-/

namespace Zeth.Client

open ByteString Python R1CS

/-- The part of `eth_abi` that is used: `encode_abi` for the type `bytes32`. -/
structure EthAbi where
  encodeBytes32 : List Bytes → Except Exc Bytes
  encodeBytes32_eq : ∀ {l : List Bytes}, (∀ b ∈ l, b.length = 32) → encodeBytes32 l = .ok l.flatten

/-- What `_derive_a_pk` hashes. -/
def deriveAPkBlock (E : EthAbi) (aSk : Bytes) : Except Exc Bytes := do
  let binaryASk := toBits aSk
  let first252BitsAsk := binaryASk.take 252
  let leftLegBin := [true, true, false, false] ++ first252BitsAsk
  let leftLegHex := format04X (natOfBits leftLegBin)
  let zeroes := String.ofList (List.replicate 64 '0')
  E.encodeBytes32 [← fromhex leftLegHex, ← fromhex zeroes]

/-- `_derive_a_pk`. -/
def deriveAPk (E : EthAbi) (aSk : Bytes) : Except Exc Bytes := do
  return Blake2s.hash (← deriveAPkBlock E aSk)

/-- What `compute_nullifier` hashes. -/
def nullifierBlock (note : ZethNote) (spendingAuthorityAsk : Bytes) : Except Exc Bytes := do
  let binaryAsk := toBits spendingAuthorityAsk
  let first252BitsAsk := binaryAsk.take 252
  let leftLegBin := [true, true, true, false] ++ first252BitsAsk
  let leftLeg ← toBytesBig 32 (natOfBits leftLegBin)
  let rho ← fromhex note.rho
  return leftLeg ++ rho

/-- The digits of `f"{i:b}"`. -/
def binaryDigits (i : ℕ) : List Bool := (Nat.toDigits 2 i).map (· == '1')

/-- What `_compute_rho_i` hashes. The logarithm of the number of outputs, a power of two, is exact. -/
def computeRhoIBlock (phi hsig : Bytes) (i : ℕ) : Except Exc Bytes := do
  assert (i < jsOutputs) ""
  let indexBits := Nat.clog 2 jsOutputs
  let indexBin := binaryDigits i
  let indexBin := List.replicate (indexBits - indexBin.length) false ++ indexBin
  assert (indexBin.length == indexBits) ("index_bits: " ++ toString indexBits ++ ", index_bin: " ++
    String.ofList (indexBin.map fun b => if b then '1' else '0') ++ ", i: " ++ toString i)
  let phiTruncatedBits := 256 - 1 - indexBits - 2
  let phiTruncatedBin := (toBits phi).take phiTruncatedBits
  assert (phiTruncatedBin.length == phiTruncatedBits) ""
  let leftLegBin := [false] ++ indexBin ++ [true, false] ++ phiTruncatedBin
  assert (leftLegBin.length == 256) ""
  return (← toBytesBig 32 (natOfBits leftLegBin)) ++ hsig

/-- `_compute_rho_i`. -/
def computeRhoI (phi hsig : Bytes) (i : ℕ) : Except Exc Bytes := do
  return Blake2s.hash (← computeRhoIBlock phi hsig i)

theorem computeNullifier_eq (note : ZethNote) (ask : Bytes) :
    computeNullifier note ask = do return Blake2s.hash (← nullifierBlock note ask) := by
  simp only [computeNullifier, nullifierBlock, bind_assoc, pure_bind]

/-! ### The bits of the blocks -/

/-- The first half of a block: a tag of four bits and 252 bits of a key. -/
theorem length_tagged {tag : List Bool} (htag : tag.length = 4) {key : Bytes}
    (hkey : key.length = 32) : (tag ++ (toBits key).take 252).length = 256 := by
  rw [List.length_append, htag, List.length_take, length_toBits, hkey]
  rfl

theorem toBytesBig_natOfBits {bits : List Bool} (hbits : bits.length = 256) :
    toBytesBig 32 (natOfBits bits) = .ok (toBig 32 (natOfBits bits)) := by
  have hlt := natOfBits_lt bits
  rw [hbits] at hlt
  exact if_pos (hlt.trans_eq (by norm_num))

/-- A number whose first of 256 bits is set has 64 hexadecimal digits. -/
theorem length_digits_natOfBits {bits : List Bool} (hbits : bits.length = 255) :
    (Nat.digits 16 (natOfBits (true :: bits))).length = 2 * 32 := by
  have hlt := natOfBits_lt bits
  have hnum : natOfBits (true :: bits) = 2 ^ 255 + natOfBits bits := by
    rw [natOfBits_cons, hbits, Bool.toNat_true, one_mul]
  rw [hbits] at hlt
  have hlog : Nat.log 16 (natOfBits (true :: bits)) = 63 := by
    refine Nat.log_eq_of_pow_le_of_lt_pow ?_ ?_
    · rw [hnum, show 16 ^ 63 = 2 ^ 252 by norm_num]
      omega
    · rw [hnum, show 16 ^ (63 + 1) = 2 ^ 256 by norm_num]
      omega
  rw [Nat.length_digits 16 _ (by decide) (by omega), hlog]

theorem exists_deriveAPkBlock (E : EthAbi) {aSk : Bytes} (haSk : aSk.length = 32) :
    ∃ block, deriveAPkBlock E aSk = .ok block ∧
      toBits block = [true, true, false, false] ++ (toBits aSk).take 252 ++
        List.replicate 256 false := by
  have hlen : ([true, true, false, false] ++ (toBits aSk).take 252).length = 256 :=
    length_tagged rfl haSk
  have hleft : fromhex (format04X (natOfBits ([true, true, false, false] ++ (toBits aSk).take 252))) =
      .ok (toBig 32 (natOfBits ([true, true, false, false] ++ (toBits aSk).take 252))) :=
    fromhex_format04X (by decide) (length_digits_natOfBits (Nat.succ.inj hlen))
  have hzeroes : fromhex (String.ofList (List.replicate 64 '0')) = .ok (List.replicate 32 0) := by
    rw [fromhex, String.toList_ofList]
    rfl
  refine ⟨toBig 32 (natOfBits ([true, true, false, false] ++ (toBits aSk).take 252)) ++
    List.replicate 32 0, ?_, ?_⟩
  · simp only [deriveAPkBlock, hleft, hzeroes, Except.ok_bind]
    rw [E.encodeBytes32_eq (by simp)]
    simp
  · rw [toBits_append, toBits_toBig_natOfBits hlen, toBits_replicate_zero]

theorem exists_nullifierBlock {note : ZethNote} {aSk rho : Bytes} (haSk : aSk.length = 32)
    (hrho : fromhex note.rho = .ok rho) :
    ∃ block, nullifierBlock note aSk = .ok block ∧
      toBits block = [true, true, true, false] ++ (toBits aSk).take 252 ++ toBits rho := by
  have hlen : ([true, true, true, false] ++ (toBits aSk).take 252).length = 256 :=
    length_tagged rfl haSk
  refine ⟨toBig 32 (natOfBits ([true, true, true, false] ++ (toBits aSk).take 252)) ++ rho, ?_, ?_⟩
  · simp only [nullifierBlock, toBytesBig_natOfBits hlen, hrho, Except.ok_bind]
    rfl
  · rw [toBits_append, toBits_toBig_natOfBits hlen]

theorem exists_computeRhoIBlock {phi : Bytes} (hsig : Bytes) (hphi : phi.length = 32) {i : ℕ}
    (hi : i < 2) :
    ∃ block, computeRhoIBlock phi hsig i = .ok block ∧
      toBits block = [false, i == 1, true, false] ++ (toBits phi).take 252 ++ toBits hsig := by
  have hlen : ([false, i == 1, true, false] ++ (toBits phi).take 252).length = 256 :=
    length_tagged rfl hphi
  have hlog : Nat.clog 2 jsOutputs = 1 := by decide
  have hdigits : binaryDigits i = [i == 1] := by interval_cases i <;> rfl
  have hphi' : ((toBits phi).take 252).length = 252 := by
    rw [List.length_take, length_toBits, hphi]
    rfl
  refine ⟨toBig 32 (natOfBits ([false, i == 1, true, false] ++ (toBits phi).take 252)) ++ hsig, ?_, ?_⟩
  · have hi' : decide (i < jsOutputs) = true := decide_eq_true hi
    simp only [computeRhoIBlock, hlog, hdigits, hi', assert_true, Except.ok_bind,
      List.length_singleton, Nat.sub_self, List.replicate_zero, List.nil_append, beq_self_eq_true,
      hphi', List.cons_append]
    rw [show 256 - 1 - 1 - 2 = 252 from rfl]
    simp only [List.cons_append, List.nil_append] at hlen
    rw [hlen, beq_self_eq_true, assert_true, Except.ok_bind, toBytesBig_natOfBits hlen]
    rfl
  · rw [toBits_append, toBits_toBig_natOfBits hlen]

end Zeth.Client
