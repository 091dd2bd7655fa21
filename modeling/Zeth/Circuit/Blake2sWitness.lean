import Zeth.Circuit.Bits
import Zeth.Circuit.Blake2sMixing
import Zeth.Foundation.StraightLine

/-!
# The witness generator of the BLAKE2s gadget

The gadgets of BLAKE2s write their words one after the other: the message words with their bytes
swapped, the chaining value, the working vector before the first round, the words of the mixing
gadgets of ten rounds, the final exclusive ors and the output
(`libzeth/circuits/blake2s/blake2s_comp.tcc`, `blake2s_comp_setup.tcc`). The bytes of the output are
swapped for the last block only; between blocks the chaining value keeps the order of its bits.

## Main definitions

* `Zeth.Circuit.GPrimitive.witness`, `Zeth.Circuit.Blake2s256Comp.witness`.
* `Zeth.Circuit.Blake2s256Comp.writes`: the writes of a compression gadget.

## Main results

* `Zeth.Circuit.Blake2s256Comp.vConstants_eq`: the last words of the working vector.
* `Zeth.Circuit.Blake2s256Comp.witness_eq_ok`: the witness generator runs these writes.
-/

namespace Zeth.Circuit

open R1CS
open List hiding Vector

variable {F : Type} [Field F] [DecidableEq F] {σ τ : Assignment F}

/-! ### Operations on words -/

/-- The value an exclusive or writes. -/
def xorValue (x y : F) : F := if x = 1 ∧ y = 1 then 0 else x + y

theorem xorValue_ofBool (a b : Bool) : xorValue (ofBool a : F) (ofBool b) = ofBool (a ^^ b) := by
  cases a <;> cases b <;> simp [xorValue, ofBool]

/-- `xor_gadget::generate_r1cs_witness` -/
def XorGadget.witness {n : ℕ} (g : XorGadget n) (σ : Assignment F) : Assignment F :=
  (List.finRange n).foldl (fun σ i =>
    σ.set (g.res.get i) (xorValue (σ (g.a.get i)) (σ (g.b.get i)))) σ

/-- `xor_rot_gadget::generate_r1cs_witness` -/
def XorRotGadget.witness {n : ℕ} (g : XorRotGadget n) (σ : Assignment F) : Assignment F :=
  (List.finRange n).foldl (fun σ i =>
    σ.set (g.res.get (target g.shift i)) (xorValue (σ (g.a.get i)) (σ (g.b.get i)))) σ

/-- `double_bit32_sum_eq_gadget::generate_r1cs_witness` -/
def DoubleBit32SumEqGadget.witness (g : DoubleBit32SumEqGadget) (σ : Assignment F) :
    Except String (Assignment F) := do
  let leftSideAcc ← bitsAdd (bitsOf σ g.a.toList) (bitsOf σ g.b.toList) false
  return σ.fill g.res.toList (leftSideAcc.map ofBool)

/-- `g_primitive::generate_r1cs_witness` -/
def GPrimitive.witness (g : GPrimitive) (σ : Assignment F) : Except String (Assignment F) := do
  let σ ← DoubleBit32SumEqGadget.witness ⟨g.a, g.b, g.a1Temp⟩ σ
  let σ ← DoubleBit32SumEqGadget.witness ⟨g.a1Temp, g.x, g.a1⟩ σ
  let σ := XorRotGadget.witness ⟨g.d, g.a1, rotationConstantR1, g.d1⟩ σ
  let σ ← DoubleBit32SumEqGadget.witness ⟨g.c, g.d1, g.c1⟩ σ
  let σ := XorRotGadget.witness ⟨g.b, g.c1, rotationConstantR2, g.b1⟩ σ
  let σ ← DoubleBit32SumEqGadget.witness ⟨g.a1, g.b1, g.a2Temp⟩ σ
  let σ ← DoubleBit32SumEqGadget.witness ⟨g.a2Temp, g.y, g.a2⟩ σ
  let σ := XorRotGadget.witness ⟨g.d1, g.a2, rotationConstantR3, g.d2⟩ σ
  let σ ← DoubleBit32SumEqGadget.witness ⟨g.c1, g.d2, g.c2⟩ σ
  return XorRotGadget.witness ⟨g.b1, g.c2, rotationConstantR4, g.b2⟩ σ

/-! ### The compression function -/

namespace Blake2s256Comp

/-- `BLAKE2s_IV` -/
def blake2sIV : Fin 8 → Blake2s.Word :=
  ![0x6A09E667, 0xBB67AE85, 0x3C6EF372, 0xA54FF53A, 0x510E527F, 0x9B05688C, 0x1F83D9AB, 0x5BE0CD19]

/-- `flag_to_1` -/
def flagTo1 : Blake2s.Word := 0xFFFFFFFF

/-- The message words: the input block, padded with zeroes, with the bytes of each word swapped. -/
def setupBlock (g : Blake2s256Comp) (σ : Assignment F) : Except String (Assignment F) :=
  let paddedInput := g.inputBlock.map σ ++ List.replicate (512 - g.inputBlock.length) 0
  (List.finRange 16).foldlM (fun σ i => do
    let tempVector ← swapByteEndianness ((paddedInput.drop (32 * i)).take 32)
    return σ.fill (g.block.get i).toList tempVector) σ

/-- `setup_h` -/
def setupH (g : Blake2s256Comp) (σ : Assignment F) : Assignment F :=
  let bits := bitsOf σ g.h
  (List.finRange 8).foldl (fun σ i =>
    σ.fill (g.hArray.get i).toList (((bits.drop (32 * i)).take 32).map ofBool)) σ

/-- `setup_counter`: the low and the high word. Entries that are not written are zero. -/
def setupCounter (lenByteTotal : BitVec 64) : List Bool × List Bool :=
  let lengthBits := bitVectorFromSizeTBe lenByteTotal
  let bitSize := lengthBits.length
  let padding := 64 - bitSize
  (List.ofFn fun k : Fin 32 =>
      -- entry `31 - i` for `i` below the smaller of 32 and `bitSize`
      if 31 - k.val < bitSize then lengthBits.getD (bitSize - (31 - k) - 1) false else false,
    List.ofFn fun k : Fin 32 =>
      if padding ≤ k.val ∧ k.val - padding < bitSize - 32 then lengthBits.getD (k - padding) false
      else false)

/-- The last eight words of the working vector. -/
def vConstants (t : List Bool × List Bool) (isLastBlock : Bool) : Fin 8 → List Bool :=
  ![wordBits (blake2sIV 0), wordBits (blake2sIV 1), wordBits (blake2sIV 2), wordBits (blake2sIV 3),
    bitsXor (wordBits (blake2sIV 4)) t.1, bitsXor (wordBits (blake2sIV 5)) t.2,
    if isLastBlock then bitsXor (wordBits (blake2sIV 6)) (wordBits flagTo1)
      else wordBits (blake2sIV 6),
    wordBits (blake2sIV 7)]

/-- `setup_v` -/
def setupV (g : Blake2s256Comp) (t : List Bool × List Bool) (isLastBlock : Bool)
    (σ : Assignment F) : Assignment F :=
  let σ := (List.finRange 8).foldl (fun σ i =>
    σ.fill ((g.v.get 0).get (i.castLE eight_le_sixteen)).toList
      ((bitsOf σ (g.hArray.get i).toList).map ofBool)) σ
  (List.finRange 8).foldl (fun σ i =>
    σ.fill ((g.v.get 0).get (i.natAdd 8)).toList ((vConstants t isLastBlock i).map ofBool)) σ

/-- `generate_r1cs_witness` -/
def witness (g : Blake2s256Comp) (lenByteTotal : BitVec 64) (isLastBlock : Bool)
    (σ : Assignment F) : Except String (Assignment F) := do
  let σ ← g.setupBlock σ
  let σ := g.setupH σ
  let σ := g.setupV (setupCounter lenByteTotal) isLastBlock σ
  let σ ← g.gArrays.toList.foldlM (fun σ gs => gs.toList.foldlM (fun σ g => g.witness σ) σ) σ
  let σ := g.xorVector.foldl (fun σ x => x.witness σ) σ
  let outputConversion ← (List.finRange 8).mapM fun i =>
    let outputByteValue := (g.outputBytes.get i).toList.map σ
    if isLastBlock then swapByteEndianness outputByteValue else pure outputByteValue
  return σ.fill g.output outputConversion.flatten

end Blake2s256Comp

/-! ### The counter and the constants -/

theorem getMsbD_low (t : BitVec 64) (k : Fin 32) :
    (BitVec.ofNat 32 t.toNat).getMsbD k = t.getMsbD (32 + k) := by
  have hk := k.isLt
  rw [BitVec.getMsbD_eq_getLsbD, BitVec.getMsbD_eq_getLsbD, BitVec.getLsbD_ofNat,
    BitVec.testBit_toNat, decide_eq_true hk, decide_eq_true (by omega : 32 + k.val < 64),
    decide_eq_true (by omega : 32 - 1 - k.val < 32), show 64 - 1 - (32 + k.val) = 32 - 1 - k by omega]
  rfl

theorem getMsbD_high (t : BitVec 64) (k : Fin 32) :
    (BitVec.ofNat 32 (t.toNat / 2 ^ 32)).getMsbD k = t.getMsbD k := by
  have hk := k.isLt
  rw [BitVec.getMsbD_eq_getLsbD, BitVec.getMsbD_eq_getLsbD, BitVec.getLsbD_ofNat,
    Nat.testBit_div_two_pow, BitVec.testBit_toNat, decide_eq_true hk,
    decide_eq_true (by omega : k.val < 64), decide_eq_true (by omega : 32 - 1 - k.val < 32),
    show 64 - 1 - k.val = 32 - 1 - k + 32 by omega]
  rfl

namespace Blake2s256Comp

/-- The counter is the low and the high word of the length. -/
theorem setupCounter_eq (t : BitVec 64) :
    setupCounter t =
      (wordBits (BitVec.ofNat 32 t.toNat), wordBits (BitVec.ofNat 32 (t.toNat / 2 ^ 32))) := by
  obtain ⟨hlen, hbits⟩ := wordBits_eq_bitVectorFromSizeTBe t
  have hget (j : ℕ) (hj : j < 64) : t.getMsbD j =
      if j < 64 - (bitVectorFromSizeTBe t).length then false
      else (bitVectorFromSizeTBe t).getD (j - (64 - (bitVectorFromSizeTBe t).length)) false := by
    have hj' : j < (wordBits t).length := by rwa [length_wordBits]
    rw [← getElem_wordBits t hj', ← getD_eq_getElem _ false hj', hbits]
    split_ifs with hpad
    · rw [getD_append _ _ _ _ (by rwa [length_replicate]), getD_replicate _ hpad]
    · rw [getD_append_right _ _ _ _ (by rw [length_replicate]; omega),
        length_replicate]
  rw [setupCounter, wordBits, wordBits]
  refine congrArg₂ Prod.mk (congrArg List.ofFn (funext fun k => ?_))
    (congrArg List.ofFn (funext fun k => ?_))
  · have hk := k.isLt
    rw [getMsbD_low, hget _ (by omega)]
    split_ifs with hlow hpad hpad
    · omega
    · congr 1
      omega
    · rfl
    · omega
  · have hk := k.isLt
    rw [getMsbD_high, hget _ (by omega)]
    split_ifs with hhigh hpad hpad
    · omega
    · rfl
    · rfl
    · omega

/-- The last eight words are those of the working vector of the specification. -/
theorem vConstants_eq (h : Vector Blake2s.Word 8) (t : BitVec 64) (isLastBlock : Bool) (i : Fin 8) :
    vConstants (setupCounter t) isLastBlock i =
      wordBits ((Blake2s.initial h t.toNat isLastBlock).get (i.natAdd 8)) := by
  have hindex : (Blake2s.initial h t.toNat isLastBlock).get (i.natAdd 8) =
      (Blake2s.initial h t.toNat isLastBlock)[i.val + 8] := by
    simp only [Vector.get_eq_getElem, Fin.val_natAdd, Nat.add_comm 8]
  rw [hindex, Blake2s.initial, Vector.getElem_append_right (by omega) (Nat.le_add_left 8 i.val),
    vConstants, setupCounter_eq, bitsXor_wordBits, bitsXor_wordBits, bitsXor_wordBits]
  fin_cases i
  · rfl
  · rfl
  · rfl
  · rfl
  · rfl
  · rfl
  · cases isLastBlock with
    | false => rfl
    | true => exact congrArg wordBits (BitVec.xor_allOnes)
  · rfl

theorem length_vConstants (t : BitVec 64) (isLastBlock : Bool) (i : Fin 8) :
    (vConstants (setupCounter t) isLastBlock i).length = 32 := by
  rw [vConstants_eq Blake2s.IV, length_wordBits]

end Blake2s256Comp

/-! ### The writes -/

theorem bitsOf_congr {vs : List Var} (h : ∀ v ∈ vs, σ v = τ v) : bitsOf σ vs = bitsOf τ vs :=
  map_congr_left fun v hv => by rw [h v hv]

/-- The write of a constant. -/
def constWrite (target : List Var) (bits : List Bool) : Write F where
  target := target
  reads := []
  value _ := bits.map ofBool
  value_congr _ := rfl

/-- The write of a copy of bits. -/
def copyWrite (target source : List Var) : Write F where
  target := target
  reads := source
  value σ := (bitsOf σ source).map ofBool
  value_congr h := by rw [bitsOf_congr h]

/-- The write of an exclusive or, with the position of each bit of the result. -/
def xorWrite {n : ℕ} (a b : List.Vector Var n) (res : Fin n → Var) : Write F where
  target := (List.finRange n).map res
  reads := a.toList ++ b.toList
  value σ := (List.finRange n).map fun i => xorValue (σ (a.get i)) (σ (b.get i))
  value_congr h := map_congr_left fun i _ => by
    rw [h _ (mem_append_left _ (List.Vector.get_mem i a)),
      h _ (mem_append_right _ (List.Vector.get_mem i b))]

/-- The write of a sum. -/
def sumWrite (a b res : WordVar) : Write F where
  target := res.toList
  reads := a.toList ++ b.toList
  value σ := (addLoop (bitsOf σ a.toList) (bitsOf σ b.toList)).1.map ofBool
  value_congr h := by
    rw [bitsOf_congr fun v hv => h v (mem_append_left _ hv),
      bitsOf_congr fun v hv => h v (mem_append_right _ hv)]

theorem DoubleBit32SumEqGadget.witness_eq_ok (a b res : WordVar) (σ : Assignment F) :
    DoubleBit32SumEqGadget.witness ⟨a, b, res⟩ σ = .ok ((sumWrite a b res).run σ) := rfl

/-- The entries of an exclusive or that are not read do not matter. -/
theorem foldl_xor_eq_run {n : ℕ} {a b : List.Vector Var n} {res : Fin n → Var}
    (hfresh : ∀ v ∈ (xorWrite (F := F) a b res).target, v ∉ (xorWrite (F := F) a b res).reads)
    (σ : Assignment F) :
    (List.finRange n).foldl (fun σ i => σ.set (res i) (xorValue (σ (a.get i)) (σ (b.get i)))) σ =
      (xorWrite a b res).run σ := by
  refine Assignment.foldl_set_eq_fill _ res (fun σ i => xorValue (σ (a.get i)) (σ (b.get i))) σ
    fun τ hτ i _ => ?_
  have ha : τ (a.get i) = σ (a.get i) := hτ _ fun hmem =>
    hfresh _ hmem (mem_append_left _ (List.Vector.get_mem i a))
  have hb : τ (b.get i) = σ (b.get i) := hτ _ fun hmem =>
    hfresh _ hmem (mem_append_right _ (List.Vector.get_mem i b))
  simp only [ha, hb]

/-- The writes of a mixing gadget. -/
def GPrimitive.writes (g : GPrimitive) : List (Write F) :=
  [sumWrite g.a g.b g.a1Temp, sumWrite g.a1Temp g.x g.a1,
    xorWrite g.d g.a1 fun i => g.d1.get (XorRotGadget.target rotationConstantR1 i),
    sumWrite g.c g.d1 g.c1,
    xorWrite g.b g.c1 fun i => g.b1.get (XorRotGadget.target rotationConstantR2 i),
    sumWrite g.a1 g.b1 g.a2Temp, sumWrite g.a2Temp g.y g.a2,
    xorWrite g.d1 g.a2 fun i => g.d2.get (XorRotGadget.target rotationConstantR3 i),
    sumWrite g.c1 g.d2 g.c2,
    xorWrite g.b1 g.c2 fun i => g.b2.get (XorRotGadget.target rotationConstantR4 i)]

theorem GPrimitive.witness_eq_ok {g : GPrimitive} (hfresh : ∀ w ∈ g.writes (F := F), w.Fresh)
    (σ : Assignment F) : g.witness σ = .ok (runWrites g.writes σ) := by
  simp only [writes, forall_mem_cons] at hfresh
  obtain ⟨-, -, hd1, -, hb1, -, -, hd2, -, hb2, -⟩ := hfresh
  simp only [witness, DoubleBit32SumEqGadget.witness_eq_ok, Except.ok_bind, XorRotGadget.witness,
    foldl_xor_eq_run hd1.notMem_reads, foldl_xor_eq_run hb1.notMem_reads,
    foldl_xor_eq_run hd2.notMem_reads, foldl_xor_eq_run hb2.notMem_reads]
  rfl

namespace Blake2s256Comp

variable (g : Blake2s256Comp)

/-- The input block, padded with zeroes. -/
def paddedInput (σ : Assignment F) : List F :=
  g.inputBlock.map σ ++ List.replicate (512 - g.inputBlock.length) 0

def blockWrite : Write F where
  target := (List.finRange 16).flatMap fun i => (g.block.get i).toList
  reads := g.inputBlock
  value σ := (List.finRange 16).flatMap fun i : Fin 16 =>
    swapBytes (((g.paddedInput σ).drop (32 * i)).take 32)
  value_congr h := by rw [paddedInput, map_congr_left h, paddedInput]

def hWrite : Write F where
  target := (List.finRange 8).flatMap fun i => (g.hArray.get i).toList
  reads := g.h
  value σ := (List.finRange 8).flatMap fun i : Fin 8 =>
    (((bitsOf σ g.h).drop (32 * i)).take 32).map ofBool
  value_congr h := by rw [bitsOf_congr h]

def vWrites (t : List Bool × List Bool) (isLastBlock : Bool) : List (Write F) :=
  ((List.finRange 8).flatMap fun i =>
      [copyWrite ((g.v.get 0).get (i.castLE eight_le_sixteen)).toList (g.hArray.get i).toList]) ++
    (List.finRange 8).flatMap fun i =>
      [constWrite ((g.v.get 0).get (i.natAdd 8)).toList (vConstants t isLastBlock i)]

def mixingWrites : List (Write F) :=
  g.gArrays.toList.flatMap fun gs => gs.toList.flatMap GPrimitive.writes

def xorWrites : List (Write F) := g.xorVector.flatMap fun x => [xorWrite x.a x.b x.res.get]

def outputWrite (isLastBlock : Bool) : Write F where
  target := g.output
  reads := (List.finRange 8).flatMap fun i => (g.outputBytes.get i).toList
  value σ := (List.finRange 8).flatMap fun i =>
    let outputByteValue := (g.outputBytes.get i).toList.map σ
    if isLastBlock then swapBytes outputByteValue else outputByteValue
  value_congr h := by
    refine flatMap_congr fun i _ => ?_
    rw [map_congr_left fun v hv => h v (mem_flatMap.mpr ⟨i, mem_finRange i, hv⟩)]

/-- The writes to the gadget's own wires. -/
def ownWrites (lenByteTotal : BitVec 64) (isLastBlock : Bool) : List (Write F) :=
  g.blockWrite :: g.hWrite :: (g.vWrites (setupCounter lenByteTotal) isLastBlock ++
    (g.mixingWrites ++ g.xorWrites))

/-- The writes of a compression gadget. -/
def writes (lenByteTotal : BitVec 64) (isLastBlock : Bool) : List (Write F) :=
  g.ownWrites lenByteTotal isLastBlock ++ [g.outputWrite isLastBlock]

variable {g}

omit [DecidableEq F] in
theorem length_paddedInput (σ : Assignment F) : 512 ≤ (g.paddedInput σ).length := by
  rw [paddedInput, length_append, length_map, length_replicate]
  omega

theorem length_part {α : Type} {xs : List α} {n k : ℕ} (h : 32 * n ≤ xs.length) (hk : k < n) :
    ((xs.drop (32 * k)).take 32).length = 32 := by
  rw [length_take, length_drop]
  omega

omit [DecidableEq F] in
theorem setupBlock_eq_ok (σ : Assignment F) : g.setupBlock σ = .ok (g.blockWrite.run σ) := by
  have hpart (i : Fin 16) : (((g.paddedInput σ).drop (32 * i)).take 32).length = 32 :=
    length_part (length_paddedInput σ) i.isLt
  have hloop := Except.foldlM_eq_ok_foldl (ε := String) (l := List.finRange 16)
    (f := fun σ' (i : Fin 16) => do
      let tempVector ← swapByteEndianness (((g.paddedInput σ).drop (32 * i)).take 32)
      return σ'.fill (g.block.get i).toList tempVector)
    (h := fun σ' (i : Fin 16) => σ'.fill (g.block.get i).toList
      (swapBytes (((g.paddedInput σ).drop (32 * i)).take 32)))
    (fun σ' i _ => by rw [swapByteEndianness_eq_ok (hpart i)]; rfl) σ
  refine hloop.trans (congrArg Except.ok (Assignment.foldl_fill _ (fun i _ => ?_) σ))
  rw [length_swapBytes, hpart, List.Vector.toList_length]

theorem setupH_eq_run (hh : g.h.length = 256) (σ : Assignment F) : g.setupH σ = g.hWrite.run σ := by
  refine Assignment.foldl_fill _ (fun i _ => ?_) σ
  rw [length_map, length_part (by rw [length_bitsOf, hh]) i.isLt, List.Vector.toList_length]

theorem setupV_eq_run (t : List Bool × List Bool) (isLastBlock : Bool) (σ : Assignment F) :
    g.setupV t isLastBlock σ = runWrites (g.vWrites t isLastBlock) σ := by
  rw [vWrites, runWrites_append, runWrites_flatMap, runWrites_flatMap]
  rfl

theorem foldlM_mixing_eq_ok (hfresh : ∀ w ∈ g.mixingWrites (F := F), w.Fresh) (σ : Assignment F) :
    g.gArrays.toList.foldlM (fun σ gs => gs.toList.foldlM (fun σ g => g.witness σ) σ) σ =
      .ok (runWrites g.mixingWrites σ) := by
  rw [mixingWrites, runWrites_flatMap]
  refine Except.foldlM_eq_ok_foldl (fun σ gs hgs => ?_) σ
  rw [runWrites_flatMap]
  refine Except.foldlM_eq_ok_foldl (fun σ x hx => ?_) σ
  exact x.witness_eq_ok (fun w hw => hfresh w
    (mem_flatMap.mpr ⟨gs, hgs, mem_flatMap.mpr ⟨x, hx, hw⟩⟩)) σ

theorem foldl_xor_eq_runWrites (hfresh : ∀ w ∈ g.xorWrites (F := F), w.Fresh) (σ : Assignment F) :
    g.xorVector.foldl (fun σ x => x.witness σ) σ = runWrites g.xorWrites σ := by
  rw [xorWrites, runWrites_flatMap]
  refine foldl_ext _ _ σ fun σ x hx => ?_
  exact foldl_xor_eq_run (hfresh _ (mem_flatMap.mpr
    ⟨x, hx, mem_singleton.mpr rfl⟩)).notMem_reads σ

omit [DecidableEq F] in
theorem mapM_output_eq_ok (isLastBlock : Bool) (σ : Assignment F) :
    ((List.finRange 8).mapM fun i =>
      let outputByteValue := (g.outputBytes.get i).toList.map σ
      if isLastBlock then swapByteEndianness outputByteValue else pure outputByteValue) =
    .ok ((List.finRange 8).map fun i =>
      let outputByteValue := (g.outputBytes.get i).toList.map σ
      if isLastBlock then swapBytes outputByteValue else outputByteValue) := by
  have hok := Except.mapM_map_eq_ok (ε := String) (g := id)
    (f := fun i => if isLastBlock then swapByteEndianness ((g.outputBytes.get i).toList.map σ)
      else pure ((g.outputBytes.get i).toList.map σ))
    (h := fun i => if isLastBlock then swapBytes ((g.outputBytes.get i).toList.map σ)
      else (g.outputBytes.get i).toList.map σ) (fun i => by
        cases isLastBlock with
        | false => rfl
        | true =>
          exact swapByteEndianness_eq_ok (by rw [length_map, List.Vector.toList_length]))
    (List.finRange 8)
  rwa [map_id] at hok

/-- The witness generator runs the writes, when they are in order. -/
theorem witness_eq_ok {lenByteTotal : BitVec 64} {isLastBlock : Bool} (hh : g.h.length = 256)
    (hfresh : ∀ w ∈ g.writes (F := F) lenByteTotal isLastBlock, w.Fresh) (σ : Assignment F) :
    g.witness lenByteTotal isLastBlock σ = .ok (runWrites (g.writes lenByteTotal isLastBlock) σ) := by
  have hmixing : ∀ w ∈ g.mixingWrites (F := F), w.Fresh := fun w hw => hfresh w <| by
    simp only [writes, ownWrites, mem_append, mem_cons]
    exact .inl (.inr (.inr (.inr (.inl hw))))
  have hxor : ∀ w ∈ g.xorWrites (F := F), w.Fresh := fun w hw => hfresh w <| by
    simp only [writes, ownWrites, mem_append, mem_cons]
    exact .inl (.inr (.inr (.inr (.inr hw))))
  simp only [witness, setupBlock_eq_ok, Except.ok_bind, setupH_eq_run hh, setupV_eq_run,
    foldlM_mixing_eq_ok hmixing, foldl_xor_eq_runWrites hxor, mapM_output_eq_ok, writes, ownWrites,
    runWrites_append, runWrites_cons, ← flatMap_def]
  rfl

end Blake2s256Comp

end Zeth.Circuit
