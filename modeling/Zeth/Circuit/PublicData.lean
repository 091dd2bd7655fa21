import Mathlib
import Zeth.Circuit.Joinsplit
import Zeth.Contract.PublicValues
import Zeth.Contract.ScalarField

/-!
# The public data of a transaction, packed and unpacked

The joinsplit gadget packs each digest into one public element, as far as it fits, and the bits that
are left over, after the public values, into a last one. The mixer puts the digests and the public
values together again. For both curves the two are inverse to each other: all bits come back, in
their places (`JoinsplitGadget.unpack_packed`).

Both sides are bits at positions. An element has the low-order bits of a digest at their own
positions, and the last element has its residual bits at the position where `_extractBytes32` looks
for them (`JoinsplitGadget.IsPacked.extractBytes32_eq`).

## Main definitions

* `JoinsplitData`, `JoinsplitGadget.IsPacked`: the values on the wires, with the packers satisfied.
* `JoinsplitGadget.publicData`: the packed elements, as words.

## Main results

* `JoinsplitGadget.unpack_packed`.
-/

namespace Zeth.Circuit

open R1CS List

/-- The bits of a word, least significant first. -/
def lsbBits {n : ℕ} (w : BitVec n) : List Bool := List.ofFn fun i : Fin n => w.getLsbD i

@[simp] theorem length_lsbBits {n : ℕ} (w : BitVec n) : (lsbBits w).length = n :=
  length_ofFn

theorem getD_lsbBits {n : ℕ} (w : BitVec n) (i : ℕ) : (lsbBits w).getD i false = w.getLsbD i := by
  rw [getD_eq_getElem?_getD, lsbBits, List.getElem?_ofFn]
  split_ifs with hi
  · rfl
  · exact (BitVec.getLsbD_of_ge w i (not_lt.mp hi)).symm

/-- The private values that the public data is made of. -/
@[ext]
structure JoinsplitData where
  hSig : Word
  nullifiers : Fin 2 → Word
  hIs : Fin 2 → Word
  vpubIn : BitVec 64
  vpubOut : BitVec 64

/-- The digests, in the order of their residual bits. -/
def JoinsplitData.digests (t : JoinsplitData) : Fin 5 → Word :=
  ![t.hIs 0, t.hIs 1, t.nullifiers 0, t.nullifiers 1, t.hSig]

/-- The bits of the last public element. -/
def JoinsplitData.residual (capacity : ℕ) (t : JoinsplitData) : List Bool :=
  lsbBits t.vpubOut ++ (lsbBits t.vpubIn ++
    (List.ofFn fun k => (lsbBits (t.digests k)).drop capacity).flatten)

namespace JoinsplitGadget

variable {depth : ℕ} {curve : Curve} {L : Gadgetlib curve.Fr} {H : HashGadget curve.Fr}
  {T : TreeHashGadget curve.Fr} {σ : Assignment curve.Fr} {t : JoinsplitData}

/-- The values of `public_data`, as numbers below `r`. Its wires follow the constant and
`public_data_hash`. -/
def publicData (σ : Assignment curve.Fr) : Inputs := fun j =>
  BitVec.ofNat 256 (σ (j + 2)).val

/-- The wires carry the values, high-order bits first. -/
structure CarriesData (g : JoinsplitGadget depth 2 2) (σ : Assignment curve.Fr)
    (t : JoinsplitData) : Prop where
  hSig : Carries σ g.hSig.toList (lsbBits t.hSig).reverse
  nullifiers : ∀ i, Carries σ (g.inputNullifiers.get i) (lsbBits (t.nullifiers i)).reverse
  hIs : ∀ i, Carries σ (g.hIs.get i) (lsbBits (t.hIs i)).reverse
  vpubIn : Carries σ g.zkVpubIn.toList (lsbBits t.vpubIn).reverse
  vpubOut : Carries σ g.zkVpubOut.toList (lsbBits t.vpubOut).reverse

/-- The wires carry the values, and the packers are satisfied. -/
structure IsPacked (L : Gadgetlib curve.Fr) (g : JoinsplitGadget depth 2 2)
    (σ : Assignment curve.Fr) (t : JoinsplitData) : Prop extends CarriesData g σ t where
  packed : ∀ p ∈ g.packers curve.fieldCapacity,
    Satisfies σ (L.multipacking p.1 p.2 curve.fieldCapacity true)

/-! ### Bits of packed elements -/

/-- The bits of a packed element are those of its wires. -/
theorem getLsbD_packed (hL : L.PacksChunks) {vs : List Var} {bs : List Bool} {p : Var}
    (hvs : Carries σ vs bs) (hlen : bs.length ≤ curve.fieldCapacity)
    (h : Satisfies σ (L.multipacking vs [p] curve.fieldCapacity true)) (i : ℕ) :
    (BitVec.ofNat 256 (σ p).val).getLsbD i = bs.getD i false := by
  have hpacked := ((hL σ vs [p] curve.fieldCapacity).mp h).2 (p, 0) (by simp)
  rw [zero_mul, drop_zero, take_of_length_le (hvs.length_eq.trans_le hlen),
    ← reverse_reverse vs, hvs.reverse.littleEndian_reverse] at hpacked
  have hlt : natOfBits bs.reverse < curve.r.toNat := by
    have hbits := natOfBits_lt bs.reverse
    rw [length_reverse] at hbits
    exact (hbits.trans_le (Nat.pow_le_pow_right two_pos hlen)).trans curve.two_pow_fieldCapacity_lt
  rw [hpacked, ZMod.val_natCast_of_lt hlt, BitVec.getLsbD_ofNat, testBit_natOfBits,
    reverse_reverse]
  by_cases hi : i < 256
  · rw [decide_eq_true hi, Bool.true_and]
  · have hcap := (curve.residualBits_fit (Nat.zero_le 4)).2
    rw [decide_eq_false hi, Bool.false_and, getD_eq_default _ _ (by omega)]

/-- A packed digest has its low-order bits. -/
theorem getLsbD_element (hL : L.PacksChunks) {digest : List Var} {w : Word} {p : Var}
    (hdigest : Carries σ digest (lsbBits w).reverse)
    (h : Satisfies σ
      (L.multipacking (elementBits curve.fieldCapacity digest) [p] curve.fieldCapacity true))
    (i : ℕ) :
    (BitVec.ofNat 256 (σ p).val).getLsbD i =
      (decide (i < curve.fieldCapacity) && w.getLsbD i) := by
  have hbits := hdigest.reverse.take curve.fieldCapacity
  rw [reverse_reverse] at hbits
  rw [getLsbD_packed hL hbits (length_take_le _ _) h, getD_eq_getElem?_getD,
    List.getElem?_take]
  split_ifs with hi
  · rw [← getD_eq_getElem?_getD, getD_lsbBits, decide_eq_true hi, Bool.true_and]
  · rw [decide_eq_false hi, Bool.false_and]
    rfl

/-! ### Wires -/

/-- The wires of the values and of their packed elements, for gadgets built after
`public_data_hash`. -/
structure HasWires (g : JoinsplitGadget depth 2 2) : Prop where
  merkleRoot : g.merkleRoot = 2
  outputCommitments : g.outputCommitments.toList = [3, 4]
  packedNullifiers : ∀ i : Fin 2, g.packedNullifiers.get i = [5 + (i : ℕ)]
  packedHSig : g.packedHSig = [7]
  packedHIs : ∀ i : Fin 2, g.packedHIs.get i = [8 + (i : ℕ)]
  packedResidual : g.packedResidual = [10]
  hSig : g.hSig.toList = List.range' 268 256
  inputNullifiers : ∀ i : Fin 2, g.inputNullifiers.get i = List.range' (524 + 768 * i) 256
  hIs : ∀ i : Fin 2, g.hIs.get i = List.range' (1036 + 768 * i) 256
  zkVpubIn : g.zkVpubIn.toList = List.range' 2572 64
  zkVpubOut : g.zkVpubOut.toList = List.range' 2636 64

theorem nbFieldResidual_eq_one (curve : Curve) {H : HashGadget curve.Fr}
    (hH : H.digestLen = 256) : nbFieldResidual H curve.fieldCapacity 2 = 1 := by
  rw [nbFieldResidual, lengthBitResidual, digestLenMinusFieldCap, hH]
  cases curve <;> rfl

section New

private theorem allocate_apply (next : ℕ) : allocate next = (next, next + 1) := rfl

private theorem allocateArray_toList (n next : ℕ) :
    (allocateArray n next).1.toList = List.range' next n := rfl

private theorem allocateArray_next (n next : ℕ) : (allocateArray n next).2 = next + n := rfl

private theorem allocateDigest_apply (n next : ℕ) :
    allocateDigest n next = (List.range' next n, next + n) := rfl

private theorem forEach_two {α : Type} (f : Fin 2 → Alloc α) (next : ℕ) :
    Alloc.forEach 2 f next =
      ((f 0 next).1 ::ᵥ (f 1 (f 0 next).2).1 ::ᵥ List.Vector.nil, (f 1 (f 0 next).2).2) := rfl

theorem hasWires_new (hH : H.digestLen = 256) :
    HasWires (new depth 2 2 H T curve.fieldCapacity 2).1 := by
  have hnb := nbFieldResidual_eq_one curve hH
  constructor <;>
    simp only [new, Alloc.bind_apply, Alloc.pure_apply, allocate_apply, forEach_two, allocateDigest_apply,
      allocateArray_toList, allocateArray_next, hnb, hH, Fin.forall_fin_two]
  · rfl
  · exact ⟨rfl, rfl⟩
  · rfl
  · exact ⟨rfl, rfl⟩
  · rfl
  · rfl
  · exact ⟨rfl, rfl⟩
  · exact ⟨rfl, rfl⟩
  · rfl
  · rfl

end New

/-! ### The last public element -/

private theorem toList_two {α : Type} (v : List.Vector α 2) : v.toList = [v.get 0, v.get 1] := by
  rcases v with ⟨_ | ⟨a, _ | ⟨b, _ | ⟨c, l⟩⟩⟩, hv⟩ <;> first | rfl | simp at hv

theorem packers_two (capacity : ℕ) (g : JoinsplitGadget depth 2 2) :
    g.packers capacity =
      [(elementBits capacity (g.inputNullifiers.get 0), g.packedNullifiers.get 0),
        (elementBits capacity (g.inputNullifiers.get 1), g.packedNullifiers.get 1),
        (elementBits capacity g.hSig.toList, g.packedHSig),
        (elementBits capacity (g.hIs.get 0), g.packedHIs.get 0),
        (elementBits capacity (g.hIs.get 1), g.packedHIs.get 1),
        (g.residual capacity, g.packedResidual)] := by
  rw [packers, toList_two g.inputNullifiers, toList_two g.packedNullifiers, toList_two g.hIs,
    toList_two g.packedHIs]
  rfl

theorem CarriesData.carries_residual {g : JoinsplitGadget depth 2 2} (h : CarriesData g σ t) :
    Carries σ (g.residual curve.fieldCapacity) (t.residual curve.fieldCapacity) := by
  have hvpubOut := h.vpubOut.reverse
  have hvpubIn := h.vpubIn.reverse
  have hrest {digest : List Var} {w : Word} (hdigest : Carries σ digest (lsbBits w).reverse) :
      Carries σ (residualBits curve.fieldCapacity digest)
        ((lsbBits w).drop curve.fieldCapacity) := by
    have hdrop := hdigest.reverse.drop curve.fieldCapacity
    rwa [reverse_reverse] at hdrop
  rw [reverse_reverse] at hvpubOut hvpubIn
  have hwires : g.residual curve.fieldCapacity = g.zkVpubOut.toList.reverse ++
      (g.zkVpubIn.toList.reverse ++ (residualBits curve.fieldCapacity (g.hIs.get 0) ++
        (residualBits curve.fieldCapacity (g.hIs.get 1) ++
          (residualBits curve.fieldCapacity (g.inputNullifiers.get 0) ++
            (residualBits curve.fieldCapacity (g.inputNullifiers.get 1) ++
              (residualBits curve.fieldCapacity g.hSig.toList ++ [])))))) := by
    simp only [residual, toList_two g.hIs, toList_two g.inputNullifiers, flatMap_cons,
      flatMap_nil, append_nil, append_assoc]
  rw [hwires]
  exact hvpubOut.append (hvpubIn.append ((hrest (h.hIs 0)).append ((hrest (h.hIs 1)).append
    ((hrest (h.nullifiers 0)).append ((hrest (h.nullifiers 1)).append
      ((hrest h.hSig).append rfl))))))

theorem length_residual (curve : Curve) (t : JoinsplitData) :
    (t.residual curve.fieldCapacity).length ≤ curve.fieldCapacity := by
  have hlen : ((List.ofFn fun k => (lsbBits (t.digests k)).drop curve.fieldCapacity).map
      List.length).sum = 5 * (256 - curve.fieldCapacity) := by
    rw [map_ofFn, sum_ofFn]
    simp
  rw [JoinsplitData.residual, length_append, length_append, length_flatten, hlen,
    length_lsbBits, length_lsbBits]
  cases curve <;> decide

/-- The residual bits of a digest are where `_extractBytes32` looks for them. -/
theorem getD_residual_digest (curve : Curve) (t : JoinsplitData) (k : Fin 5) {i : ℕ}
    (hi : i < 256 - curve.fieldCapacity) :
    (t.residual curve.fieldCapacity).getD (128 + k * (256 - curve.fieldCapacity) + i) false =
      (t.digests k).getLsbD (curve.fieldCapacity + i) := by
  have hlen : ∀ l ∈ List.ofFn fun k => (lsbBits (t.digests k)).drop curve.fieldCapacity,
      l.length = 256 - curve.fieldCapacity := by
    intro l hl
    obtain ⟨k, rfl⟩ := mem_ofFn.mp hl
    rw [length_drop, length_lsbBits]
  have hidx : 128 + k * (256 - curve.fieldCapacity) + i - 64 - 64 =
      (256 - curve.fieldCapacity) * k + i := by
    rw [mul_comm]
    omega
  rw [getD_eq_getElem?_getD, JoinsplitData.residual,
    List.getElem?_append_right (by rw [length_lsbBits]; omega), length_lsbBits,
    List.getElem?_append_right (by rw [length_lsbBits]; omega), length_lsbBits, hidx,
    List.getElem?_flatten_of_length hlen hi, List.getElem?_ofFn, dif_pos k.2, Option.bind_some,
    List.getElem?_drop, ← getD_eq_getElem?_getD, getD_lsbBits]

/-- The public values are at the low-order end. -/
theorem getD_residual_vpub (capacity : ℕ) (t : JoinsplitData) {i : ℕ} (hi : i < 64) :
    (t.residual capacity).getD i false = t.vpubOut.getLsbD i ∧
      (t.residual capacity).getD (i + 64) false = t.vpubIn.getLsbD i := by
  rw [getD_eq_getElem?_getD, getD_eq_getElem?_getD, JoinsplitData.residual,
    List.getElem?_append_left (by rwa [length_lsbBits]),
    List.getElem?_append_right (by rw [length_lsbBits]; omega), length_lsbBits,
    Nat.add_sub_cancel, List.getElem?_append_left (by rwa [length_lsbBits]),
    ← getD_eq_getElem?_getD, ← getD_eq_getElem?_getD, getD_lsbBits, getD_lsbBits]
  exact ⟨rfl, rfl⟩

/-! ### Unpacking -/

/-- The public element of a digest. -/
def elementIndex : Fin 5 → Fin 9 := ![6, 7, 3, 4, 5]

section Unpack

variable {g : JoinsplitGadget depth 2 2} (hL : L.PacksChunks) (hg : g.HasWires)
  (h : IsPacked L g σ t)

include hL hg h

theorem IsPacked.getLsbD_element (k : Fin 5) (i : ℕ) :
    (publicData σ (elementIndex k)).getLsbD i =
      (decide (i < curve.fieldCapacity) && (t.digests k).getLsbD i) := by
  have hpacked := h.packed
  rw [packers_two] at hpacked
  simp only [forall_mem_cons, hg.packedNullifiers, hg.packedHSig,
    hg.packedHIs] at hpacked
  obtain ⟨hnf₀, hnf₁, hsig, hh₀, hh₁, -⟩ := hpacked
  fin_cases k
  · exact JoinsplitGadget.getLsbD_element hL (h.hIs 0) hh₀ i
  · exact JoinsplitGadget.getLsbD_element hL (h.hIs 1) hh₁ i
  · exact JoinsplitGadget.getLsbD_element hL (h.nullifiers 0) hnf₀ i
  · exact JoinsplitGadget.getLsbD_element hL (h.nullifiers 1) hnf₁ i
  · exact JoinsplitGadget.getLsbD_element hL h.hSig hsig i

theorem IsPacked.getLsbD_residual (i : ℕ) : (publicData σ 8).getLsbD i = (t.residual curve.fieldCapacity).getD i false := by
  have hpacked := h.packed
  rw [packers_two] at hpacked
  simp only [forall_mem_cons, hg.packedResidual] at hpacked
  exact getLsbD_packed hL h.toCarriesData.carries_residual (length_residual curve t) hpacked.2.2.2.2.2.1 i

/-- `_extractBytes32` puts a digest together. -/
theorem IsPacked.extractBytes32_eq (k : Fin 5) :
    curve.extractBytes32 (publicData σ (elementIndex k)) (publicData σ 8) k = t.digests k := by
  obtain ⟨hfit, hcap⟩ := curve.residualBits_fit (show (k : ℕ) ≤ 4 by omega)
  refine BitVec.eq_of_getLsbD_eq fun i hi => ?_
  rw [Curve.extractBytes32, getLsbD_extractBytes32 hcap hfit _ _ hi, h.getLsbD_element hL hg,
    h.getLsbD_residual hL hg]
  by_cases hlow : i < curve.fieldCapacity
  · rw [decide_eq_true hlow, decide_eq_false (not_le.mpr hlow), Bool.true_and, Bool.false_and,
      Bool.or_false]
  · have hidx : curve.fieldCapacity + (i - curve.fieldCapacity) = i := by omega
    rw [decide_eq_false hlow, decide_eq_true (not_lt.mp hlow), Bool.false_and, Bool.false_or,
      Bool.true_and, getD_residual_digest curve t k (by omega), hidx]

theorem IsPacked.assemblePublicValues_eq :
    Mixer.assemblePublicValues (publicData σ 8) =
      (10 ^ 12 * t.vpubIn.toNat, 10 ^ 12 * t.vpubOut.toNat) := by
  have hvalue (k : ℕ) (x : BitVec 64)
      (hx : ∀ i < 64, (t.residual curve.fieldCapacity).getD (i + k) false = x.getLsbD i) :
      (publicData σ 8).toNat / 2 ^ k % 2 ^ 64 = x.toNat := by
    refine Nat.eq_of_testBit_eq fun i => ?_
    rw [Nat.testBit_mod_two_pow, Nat.testBit_div_two_pow, BitVec.testBit_toNat,
      BitVec.testBit_toNat]
    by_cases hi : i < 64
    · rw [decide_eq_true hi, Bool.true_and, h.getLsbD_residual hL hg, hx i hi]
    · rw [decide_eq_false hi, Bool.false_and, BitVec.getLsbD_of_ge _ _ (not_lt.mp hi)]
  have hin := hvalue 64 t.vpubIn fun i hi => (getD_residual_vpub _ t hi).2
  have hout := hvalue 0 t.vpubOut fun i hi => (getD_residual_vpub _ t hi).1
  rw [pow_zero, Nat.div_one] at hout
  rw [Mixer.assemblePublicValues_eq, hin, hout]

/-- The public data determines the values. -/
theorem IsPacked.eq_of_publicData_eq {σ' : Assignment curve.Fr} {t' : JoinsplitData}
    (h' : IsPacked L g σ' t') (heq : publicData σ = publicData σ') : t = t' := by
  have hdigests (k : Fin 5) : t.digests k = t'.digests k := by
    rw [← h.extractBytes32_eq hL hg, ← h'.extractBytes32_eq hL hg, heq]
  have hvpub := h.assemblePublicValues_eq hL hg
  rw [heq, h'.assemblePublicValues_eq hL hg, Prod.mk.injEq] at hvpub
  ext1
  · exact hdigests 4
  · funext i
    fin_cases i
    · exact hdigests 2
    · exact hdigests 3
  · funext i
    fin_cases i
    · exact hdigests 0
    · exact hdigests 1
  · refine BitVec.eq_of_toNat_eq ?_
    omega
  · refine BitVec.eq_of_toNat_eq ?_
    omega

end Unpack

/-! ### Packing -/

/-- The bit on a wire. -/
def wireBit (t : JoinsplitData) (v : ℕ) : Bool :=
  if v < 524 then t.hSig.getMsbD (v - 268)
  else if v < 1036 then (t.nullifiers 0).getMsbD (v - 524)
  else if v < 1292 then (t.hIs 0).getMsbD (v - 1036)
  else if v < 1804 then (t.nullifiers 1).getMsbD (v - 1292)
  else if v < 2572 then (t.hIs 1).getMsbD (v - 1804)
  else if v < 2636 then t.vpubIn.getMsbD (v - 2572)
  else t.vpubOut.getMsbD (v - 2636)

/-- The bits packed into a wire. -/
def packedBits (capacity : ℕ) (t : JoinsplitData) (v : ℕ) : List Bool :=
  if v = 10 then t.residual capacity
  else if v = 9 then (lsbBits (t.hIs 1)).take capacity
  else if v = 8 then (lsbBits (t.hIs 0)).take capacity
  else if v = 7 then (lsbBits t.hSig).take capacity
  else if v = 6 then (lsbBits (t.nullifiers 1)).take capacity
  else if v = 5 then (lsbBits (t.nullifiers 0)).take capacity
  else []

/-- The values, packed. -/
def packAssignment (curve : Curve) (t : JoinsplitData) : Assignment curve.Fr where
  val v :=
    if v = 0 then 1
    else if v < 11 then (natOfBits (packedBits curve.fieldCapacity t v).reverse : curve.Fr)
    else ofBool (wireBit t v)
  val_ONE := rfl

theorem carries_packAssignment {n start : ℕ} {w : BitVec n} (hstart : 11 ≤ start)
    (h : ∀ k < n, wireBit t (start + k) = w.getMsbD k) :
    Carries (packAssignment curve t) (List.range' start n) (lsbBits w).reverse := by
  have hlen : (lsbBits w).reverse.length = n := by rw [length_reverse, length_lsbBits]
  have hcarries : Carries (packAssignment curve t)
      (List.range' start (lsbBits w).reverse.length) (lsbBits w).reverse := by
    rw [carries_range'_iff]
    intro k hk
    have hkn : k < n := hlen ▸ hk
    have hbit : (lsbBits w).reverse[k] = w.getMsbD k := by
      have hidx : n - 1 - k < n := by omega
      simp [lsbBits, BitVec.getMsbD, hkn, BitVec.getLsbD_eq_getElem hidx]
    have hzero : start + k ≠ 0 := by omega
    have hpacked : ¬ start + k < 11 := by omega
    have hvalue : packAssignment curve t (start + k) = ofBool (wireBit t (start + k)) :=
      (if_neg hzero).trans (if_neg hpacked)
    rw [hvalue, hbit, h k hkn]
  rwa [hlen] at hcarries

/-- The packers are satisfied when the packed elements are the numbers of the bits. -/
theorem satisfies_multipacking (hL : L.PacksChunks) {vs : List Var} {bs : List Bool} {p : Var}
    (hvs : Carries σ vs bs) (hlen : bs.length ≤ curve.fieldCapacity)
    (hp : σ p = (natOfBits bs.reverse : curve.Fr)) :
    Satisfies σ (L.multipacking vs [p] curve.fieldCapacity true) := by
  refine (hL σ vs [p] curve.fieldCapacity).mpr ⟨hvs.isBool, fun t ht => ?_⟩
  obtain rfl : t = (p, 0) := by simpa using ht
  rw [zero_mul, drop_zero, take_of_length_le (hvs.length_eq.trans_le hlen), hp,
    ← hvs.reverse.littleEndian_reverse, reverse_reverse]

/-- All values can be packed. -/
theorem isPacked_packAssignment (hL : L.PacksChunks) {g : JoinsplitGadget depth 2 2}
    (hg : g.HasWires) (t : JoinsplitData) : IsPacked L g (packAssignment curve t) t := by
  have hdata : CarriesData g (packAssignment curve t) t := by
    -- In each array the wires are in one range, and only one branch is left.
    constructor
    · rw [hg.hSig]
      refine carries_packAssignment (by decide) fun k hk => ?_
      simp only [wireBit]
      split_ifs <;> first | omega | rw [Nat.add_sub_cancel_left]
    · intro i
      rw [hg.inputNullifiers]
      refine carries_packAssignment (by omega) fun k hk => ?_
      fin_cases i <;> simp only [wireBit] <;> split_ifs <;>
        first | omega | exact congrArg _ (Nat.add_sub_cancel_left ..)
    · intro i
      rw [hg.hIs]
      refine carries_packAssignment (by omega) fun k hk => ?_
      fin_cases i <;> simp only [wireBit] <;> split_ifs <;>
        first | omega | exact congrArg _ (Nat.add_sub_cancel_left ..)
    · rw [hg.zkVpubIn]
      refine carries_packAssignment (by decide) fun k hk => ?_
      simp only [wireBit]
      split_ifs <;> first | omega | rw [Nat.add_sub_cancel_left]
    · rw [hg.zkVpubOut]
      refine carries_packAssignment (by decide) fun k hk => ?_
      simp only [wireBit]
      split_ifs <;> first | omega | rw [Nat.add_sub_cancel_left]
  have helement {digest : List Var} {w : Word} {p : Var}
      (hdigest : Carries (packAssignment curve t) digest (lsbBits w).reverse)
      (hp : packAssignment curve t p =
        (natOfBits ((lsbBits w).take curve.fieldCapacity).reverse : curve.Fr)) :
      Satisfies (packAssignment curve t)
        (L.multipacking (elementBits curve.fieldCapacity digest) [p] curve.fieldCapacity true) := by
    have hbits := hdigest.reverse.take curve.fieldCapacity
    rw [reverse_reverse] at hbits
    exact satisfies_multipacking hL hbits (length_take_le _ _) hp
  refine ⟨hdata, ?_⟩
  rw [packers_two]
  simp only [forall_mem_cons, hg.packedNullifiers, hg.packedHSig, hg.packedHIs,
    hg.packedResidual]
  refine ⟨helement (hdata.nullifiers 0) rfl, helement (hdata.nullifiers 1) rfl,
    helement hdata.hSig rfl, helement (hdata.hIs 0) rfl, helement (hdata.hIs 1) rfl, ?_, nofun⟩
  exact satisfies_multipacking hL hdata.carries_residual (length_residual curve t) rfl

/-- **Packing and unpacking are inverse.** All values can be packed, and of any public data that
they are packed into, the contract assembles the nullifiers, `h_sig` and the public values in wei.
Different values have different public data. -/
theorem unpack_packed (m : Mixer) (keccak256 : Word → Word) (curve : Curve) (depth : ℕ)
    (L : Gadgetlib curve.Fr) (hL : L.PacksChunks) (H : HashGadget curve.Fr)
    (hH : H.digestLen = 256) (T : TreeHashGadget curve.Fr) :
    let g := (new depth 2 2 H T curve.fieldCapacity 2).1
    (∀ t, ∃ σ, IsPacked L g σ t) ∧
      ∀ σ t, IsPacked L g σ t →
        (∀ i, (m.onCurve curve keccak256).assembleNullifier i (publicData σ) = t.nullifiers i) ∧
        (m.onCurve curve keccak256).assembleHsig (publicData σ) = t.hSig ∧
        Mixer.assemblePublicValues (publicData σ 8) =
          (10 ^ 12 * t.vpubIn.toNat, 10 ^ 12 * t.vpubOut.toNat) ∧
        ∀ σ' t', IsPacked L g σ' t' → t ≠ t' → publicData σ ≠ publicData σ' := by
  intro g
  have hg : g.HasWires := hasWires_new hH
  refine ⟨fun t => ⟨packAssignment curve t, isPacked_packAssignment hL hg t⟩, fun σ t h => ?_⟩
  refine ⟨fun i => ?_, h.extractBytes32_eq hL hg 4, h.assemblePublicValues_eq hL hg,
    fun σ' t' h' hne heq => hne (h.eq_of_publicData_eq hL hg h' heq)⟩
  fin_cases i
  · exact h.extractBytes32_eq hL hg 2
  · exact h.extractBytes32_eq hL hg 3

/-- Values with all bits set. -/
def allOnes : JoinsplitData where
  hSig := BitVec.allOnes 256
  nullifiers _ := BitVec.allOnes 256
  hIs _ := BitVec.allOnes 256
  vpubIn := BitVec.allOnes 64
  vpubOut := BitVec.allOnes 64

/-- Values with all bits set come back. -/
theorem unpack_packed_allOnes :
    ∃ σ : Assignment Curve.altBN128.Fr,
      ((Mixer.permissive fun l _ => l).onCurve .altBN128 id).assembleHsig (publicData σ) =
          BitVec.allOnes 256 ∧
        Mixer.assemblePublicValues (publicData σ 8) =
          (10 ^ 12 * (2 ^ 64 - 1), 10 ^ 12 * (2 ^ 64 - 1)) := by
  obtain ⟨hpack, hunpack⟩ := unpack_packed (Mixer.permissive fun l _ => l) id .altBN128 1
    Gadgetlib.standard Gadgetlib.standard_packsChunks (HashGadget.copyLast 256) rfl
    TreeHashGadget.sum
  obtain ⟨σ, hσ⟩ := hpack allOnes
  obtain ⟨-, hsig, hvpub, -⟩ := hunpack σ allOnes hσ
  exact ⟨σ, hsig, hvpub⟩

end JoinsplitGadget

end Zeth.Circuit
