import Mathlib
import Zeth.Circuit.BinaryOperation
import Zeth.Foundation.Blake2s

/-!
# The BLAKE2s gadget

`BLAKE2s_256` splits its input into blocks of 512 bits and runs one compression gadget per block.
A compression gadget has its own wires for the message words, the chaining value, the working
vectors and the result. Its rows are those of the mixing gadgets and of the final exclusive ors.

The values of the message words, of the chaining value and of the first working vector are set by
`generate_r1cs_witness` only, and so is the digest: no row mentions the input or the output.

## Main definitions

* `Zeth.Circuit.GPrimitive`, `Zeth.Circuit.Blake2s256Comp`, `Zeth.Circuit.Blake2s256`.
* `Zeth.Circuit.Blake2s256.ForcesBits`, `Zeth.Circuit.Blake2s256.ForcesDigest`: the two halves of
  soundness on one message.

## Main results

* `Zeth.Circuit.Blake2s256.exists_satisfies`: any output goes with any input.
* `Zeth.Circuit.Blake2s256.not_forcesBits_and_not_forcesDigest`: the rows force neither the
  digest nor its bits, on any message.
-/

namespace Zeth.Circuit

open R1CS ByteString List

variable {F : Type} [Field F]

/-- The wires of a 32-bit word, most significant bit first. -/
abbrev WordVar := List.Vector Var 32

/-! ### The mixing function -/

/-- `g_primitive` -/
structure GPrimitive where
  a : WordVar
  b : WordVar
  c : WordVar
  d : WordVar
  x : WordVar
  y : WordVar
  a1 : WordVar
  b1 : WordVar
  c1 : WordVar
  d1 : WordVar
  a1Temp : WordVar
  a2Temp : WordVar
  a2 : WordVar
  b2 : WordVar
  c2 : WordVar
  d2 : WordVar

namespace GPrimitive

def rotationConstantR1 : ℕ := 16
def rotationConstantR2 : ℕ := 12
def rotationConstantR3 : ℕ := 8
def rotationConstantR4 : ℕ := 7

def new (a b c d x y a2 b2 c2 d2 : WordVar) : Alloc GPrimitive := do
  let a1 ← allocateArray 32
  let b1 ← allocateArray 32
  let c1 ← allocateArray 32
  let d1 ← allocateArray 32
  let a1Temp ← allocateArray 32
  let a2Temp ← allocateArray 32
  return ⟨a, b, c, d, x, y, a1, b1, c1, d1, a1Temp, a2Temp, a2, b2, c2, d2⟩

def constraints (L : Gadgetlib F) (g : GPrimitive) : List (Constraint F) :=
  -- the bits of the two intermediate sums are not checked
  DoubleBit32SumEqGadget.constraints L ⟨g.a, g.b, g.a1Temp⟩ false ++
  DoubleBit32SumEqGadget.constraints L ⟨g.a1Temp, g.x, g.a1⟩ true ++
  XorRotGadget.constraints F ⟨g.d, g.a1, rotationConstantR1, g.d1⟩ ++
  DoubleBit32SumEqGadget.constraints L ⟨g.c, g.d1, g.c1⟩ true ++
  XorRotGadget.constraints F ⟨g.b, g.c1, rotationConstantR2, g.b1⟩ ++
  DoubleBit32SumEqGadget.constraints L ⟨g.a1, g.b1, g.a2Temp⟩ false ++
  DoubleBit32SumEqGadget.constraints L ⟨g.a2Temp, g.y, g.a2⟩ true ++
  XorRotGadget.constraints F ⟨g.d1, g.a2, rotationConstantR3, g.d2⟩ ++
  DoubleBit32SumEqGadget.constraints L ⟨g.c1, g.d2, g.c2⟩ true ++
  XorRotGadget.constraints F ⟨g.b1, g.c2, rotationConstantR4, g.b2⟩

/-- The words of the gadget. -/
def words (g : GPrimitive) : List WordVar :=
  [g.a, g.b, g.c, g.d, g.x, g.y, g.a1, g.b1, g.c1, g.d1, g.a1Temp, g.a2Temp, g.a2, g.b2, g.c2,
    g.d2]

end GPrimitive

/-! ### Words of zeroes -/

section Vanishing

variable {σ : Assignment F}

/-- All wires of the word carry zero. -/
def Vanishes (σ : Assignment F) (w : WordVar) : Prop := ∀ v ∈ w.toList, σ v = 0

theorem Vanishes.get {w : WordVar} (h : Vanishes σ w) (i : Fin 32) : σ (w.get i) = 0 :=
  h _ (List.Vector.get_mem i w)

theorem Vanishes.eval_packedAddition (L : Gadgetlib F) {w : WordVar} (h : Vanishes σ w) :
    (L.packedAddition w.toList).eval σ = 0 := by
  rw [Gadgetlib.packedAddition, L.eval_packingSum]
  refine littleEndian_eq_zero fun x hx => ?_
  obtain ⟨v, hv, rfl⟩ := mem_map.mp hx
  exact h v (mem_reverse.mp hv)

private theorem xor_eq_of_zero {x y z : F} (hx : x = 0) (hy : y = 0) (hz : z = 0) :
    2 * x * y = x + y - z := by
  rw [hx, hy, hz]
  ring

theorem XorGadget.satisfies_of_vanishes {a b res : WordVar} (ha : Vanishes σ a)
    (hb : Vanishes σ b) (hres : Vanishes σ res) :
    Satisfies σ (XorGadget.constraints F ⟨a, b, res⟩) :=
  satisfies_iff.mpr fun i => xor_eq_of_zero (ha.get i) (hb.get i) (hres.get i)

theorem XorRotGadget.satisfies_of_vanishes {a b res : WordVar} {shift : ℕ} (ha : Vanishes σ a)
    (hb : Vanishes σ b) (hres : Vanishes σ res) :
    Satisfies σ (XorRotGadget.constraints F ⟨a, b, shift, res⟩) :=
  satisfies_iff.mpr fun i => xor_eq_of_zero (ha.get i) (hb.get i) (hres.get (target shift i))

theorem DoubleBit32SumEqGadget.satisfies_of_vanishes (L : Gadgetlib F) {a b res : WordVar}
    {enforceBoolean : Bool} (ha : Vanishes σ a) (hb : Vanishes σ b) (hres : Vanishes σ res) :
    Satisfies σ (DoubleBit32SumEqGadget.constraints L ⟨a, b, res⟩ enforceBoolean) := by
  refine (satisfies_iff L).mpr ⟨fun _ v hv => Or.inl (hres v hv), Or.inl ?_⟩
  rw [carry, LinearCombination.eval_sub, LinearCombination.eval_add, ha.eval_packedAddition,
    hb.eval_packedAddition, hres.eval_packedAddition, add_zero, sub_zero]

theorem GPrimitive.satisfies_of_vanishes (L : Gadgetlib F) {g : GPrimitive}
    (h : ∀ w ∈ g.words, Vanishes σ w) : Satisfies σ (g.constraints L) := by
  simp only [words, forall_mem_cons] at h
  obtain ⟨a, b, c, d, x, y, a1, b1, c1, d1, a1Temp, a2Temp, a2, b2, c2, d2, -⟩ := h
  simp only [constraints, satisfies_append]
  refine ⟨⟨⟨⟨⟨⟨⟨⟨⟨?_, ?_⟩, ?_⟩, ?_⟩, ?_⟩, ?_⟩, ?_⟩, ?_⟩, ?_⟩, ?_⟩
  · exact DoubleBit32SumEqGadget.satisfies_of_vanishes L a b a1Temp
  · exact DoubleBit32SumEqGadget.satisfies_of_vanishes L a1Temp x a1
  · exact XorRotGadget.satisfies_of_vanishes d a1 d1
  · exact DoubleBit32SumEqGadget.satisfies_of_vanishes L c d1 c1
  · exact XorRotGadget.satisfies_of_vanishes b c1 b1
  · exact DoubleBit32SumEqGadget.satisfies_of_vanishes L a1 b1 a2Temp
  · exact DoubleBit32SumEqGadget.satisfies_of_vanishes L a2Temp y a2
  · exact XorRotGadget.satisfies_of_vanishes d1 a2 d2
  · exact DoubleBit32SumEqGadget.satisfies_of_vanishes L c1 d2 c2
  · exact XorRotGadget.satisfies_of_vanishes b1 c2 b2

end Vanishing

/-! ### The compression function -/

/-- A working vector of sixteen words. -/
abbrev StateVar := List.Vector WordVar 16

/-- `BLAKE2s_256_comp` -/
structure Blake2s256Comp where
  h : List Var
  inputBlock : List Var
  output : List Var
  block : StateVar
  hArray : List.Vector WordVar 8
  outTemp : List.Vector WordVar 8
  outputBytes : List.Vector WordVar 8
  v : List.Vector StateVar 11
  vTemp : List.Vector StateVar 10
  gArrays : List.Vector (List.Vector GPrimitive 8) 10
  xorVector : List (XorGadget 32)

namespace Blake2s256Comp

/-- The message schedule `sigma` of the source. -/
def sigma : Fin 10 → Fin 16 → Fin 16 :=
  ![![0, 1, 2, 3, 4, 5, 6, 7, 8, 9, 10, 11, 12, 13, 14, 15],
    ![14, 10, 4, 8, 9, 15, 13, 6, 1, 12, 0, 2, 11, 7, 5, 3],
    ![11, 8, 12, 0, 5, 2, 15, 13, 10, 14, 3, 6, 7, 1, 9, 4],
    ![7, 9, 3, 1, 13, 12, 11, 14, 2, 6, 5, 10, 4, 0, 15, 8],
    ![9, 0, 5, 7, 2, 4, 10, 15, 14, 1, 11, 12, 6, 8, 3, 13],
    ![2, 12, 6, 10, 0, 11, 8, 3, 4, 13, 7, 5, 15, 14, 1, 9],
    ![12, 5, 1, 15, 14, 13, 4, 10, 0, 7, 6, 3, 9, 2, 8, 11],
    ![13, 11, 7, 14, 12, 1, 3, 9, 5, 0, 15, 4, 8, 6, 2, 10],
    ![6, 15, 14, 9, 11, 3, 0, 8, 12, 2, 13, 7, 1, 4, 10, 5],
    ![10, 2, 8, 4, 7, 6, 1, 5, 15, 11, 9, 14, 3, 12, 13, 0]]

/-- The positions the eight mixing gadgets of a round work on: four columns of `v[i]`, written to
`v_temp[i]`, then four diagonals of `v_temp[i]`, written to `v[i + 1]`. -/
def positions : Fin 8 → Fin 4 → Fin 16 :=
  ![![0, 4, 8, 12], ![1, 5, 9, 13], ![2, 6, 10, 14], ![3, 7, 11, 15],
    ![0, 5, 10, 15], ![1, 6, 11, 12], ![2, 7, 8, 13], ![3, 4, 9, 14]]

/-- Mixing gadget `j` of round `i` in `setup_mixing_gadgets`. -/
def mixingGadget (block : StateVar) (v : List.Vector StateVar 11)
    (vTemp : List.Vector StateVar 10) (i : Fin 10) (j : Fin 8) : Alloc GPrimitive :=
  let s := sigma i
  let p := positions j
  let source := if j.val < 4 then v.get i.castSucc else vTemp.get i
  let target := if j.val < 4 then vTemp.get i else v.get i.succ
  GPrimitive.new (source.get (p 0)) (source.get (p 1)) (source.get (p 2)) (source.get (p 3))
    (block.get (s ⟨2 * j, by omega⟩)) (block.get (s ⟨2 * j + 1, by omega⟩))
    (target.get (p 0)) (target.get (p 1)) (target.get (p 2)) (target.get (p 3))

theorem eight_le_sixteen : 8 ≤ 16 := by decide

/-- The final exclusive ors of `setup_mixing_gadgets`. -/
def xorGadgets (last : StateVar) (hArray outTemp outputBytes : List.Vector WordVar 8) :
    List (XorGadget 32) :=
  ((List.finRange 8).map fun i =>
    ⟨last.get (i.castLE eight_le_sixteen), last.get (i.natAdd 8), outTemp.get i⟩) ++
  (List.finRange 8).map fun i => ⟨outTemp.get i, hArray.get i, outputBytes.get i⟩

/-- The words `h_array[i]`, `out_temp[i]` and `output_bytes[i]`. -/
def outputWords : Alloc (WordVar × WordVar × WordVar) := do
  let h ← allocateArray 32
  let outTemp ← allocateArray 32
  let outputByte ← allocateArray 32
  return (h, outTemp, outputByte)

/-- A working vector. -/
def state : Alloc StateVar := Alloc.forEach 16 fun _ => allocateArray 32

def new (h inputBlock output : List Var) : Alloc Blake2s256Comp := do
  let block ← state
  let words ← Alloc.forEach 8 fun _ => outputWords
  let v ← Alloc.forEach 11 fun _ => state
  let vTemp ← Alloc.forEach 10 fun _ => state
  let gArrays ← Alloc.forEach 10 fun i => Alloc.forEach 8 fun j => mixingGadget block v vTemp i j
  let hArray := words.map fun w => w.1
  let outTemp := words.map fun w => w.2.1
  let outputBytes := words.map fun w => w.2.2
  return ⟨h, inputBlock, output, block, hArray, outTemp, outputBytes, v, vTemp, gArrays,
    xorGadgets (v.get (Fin.last 10)) hArray outTemp outputBytes⟩

/-- `ensure_output_bitness` is unused. -/
def constraints (L : Gadgetlib F) (g : Blake2s256Comp) (_ensureOutputBitness : Bool) :
    List (Constraint F) :=
  (g.gArrays.toList.flatMap fun gs => gs.toList.flatMap (GPrimitive.constraints L)) ++
    g.xorVector.flatMap (XorGadget.constraints F)

end Blake2s256Comp

/-! ### Own wires -/

/-- All wires of the word lie past the start. -/
def IsFrom (start : ℕ) (w : WordVar) : Prop := ∀ v ∈ w.toList, start ≤ v

theorem IsFrom.vanishes {start : ℕ} {σ : Assignment F} (hσ : ∀ v, start ≤ v → σ v = 0)
    {w : WordVar} (h : IsFrom start w) : Vanishes σ w :=
  fun v hv => hσ v (h v hv)

theorem GPrimitive.new_from {start : ℕ} {a b c d x y a2 b2 c2 d2 : WordVar}
    (h : ∀ w ∈ [a, b, c, d, x, y, a2, b2, c2, d2], IsFrom start w) :
    Alloc.From start (new a b c d x y a2 b2 c2 d2) fun g => ∀ w ∈ g.words, IsFrom start w := by
  refine .bind (.allocateArray 32) fun a1 ha1 => .bind (.allocateArray 32) fun b1 hb1 =>
    .bind (.allocateArray 32) fun c1 hc1 => .bind (.allocateArray 32) fun d1 hd1 =>
    .bind (.allocateArray 32) fun a1Temp ha1Temp => .bind (.allocateArray 32) fun a2Temp ha2Temp =>
    .pure ?_
  simp only [forall_mem_cons] at h
  obtain ⟨ha, hb, hc, hd, hx, hy, ha2, hb2, hc2, hd2, -⟩ := h
  simp only [words, forall_mem_cons]
  exact ⟨ha, hb, hc, hd, hx, hy, ha1, hb1, hc1, hd1, ha1Temp, ha2Temp, ha2, hb2, hc2, hd2,
    fun w hw => absurd hw not_mem_nil⟩

namespace Blake2s256Comp

variable {start : ℕ}

theorem state_from : Alloc.From start state fun s => ∀ j, IsFrom start (s.get j) :=
  .forEach fun _ => .allocateArray 32

theorem outputWords_from : Alloc.From start outputWords fun w =>
    IsFrom start w.1 ∧ IsFrom start w.2.1 ∧ IsFrom start w.2.2 :=
  .bind (.allocateArray 32) fun _ hh => .bind (.allocateArray 32) fun _ ht =>
    .bind (.allocateArray 32) fun _ hb => .pure ⟨hh, ht, hb⟩

theorem mixingGadget_from {block : StateVar} {v : List.Vector StateVar 11}
    {vTemp : List.Vector StateVar 10} (hblock : ∀ j, IsFrom start (block.get j))
    (hv : ∀ i j, IsFrom start ((v.get i).get j))
    (hvTemp : ∀ i j, IsFrom start ((vTemp.get i).get j)) (i : Fin 10) (j : Fin 8) :
    Alloc.From start (mixingGadget block v vTemp i j) fun g => ∀ w ∈ g.words, IsFrom start w := by
  refine GPrimitive.new_from ?_
  have hsource : ∀ k, IsFrom start
      ((if j.val < 4 then v.get i.castSucc else vTemp.get i).get k) := by
    intro k
    split_ifs
    · exact hv _ k
    · exact hvTemp i k
  have htarget : ∀ k, IsFrom start ((if j.val < 4 then vTemp.get i else v.get i.succ).get k) := by
    intro k
    split_ifs
    · exact hvTemp i k
    · exact hv _ k
  simp only [forall_mem_cons]
  exact ⟨hsource _, hsource _, hsource _, hsource _, hblock _, hblock _, htarget _, htarget _,
    htarget _, htarget _, fun w hw => absurd hw not_mem_nil⟩

/-- The rows of a compression gadget see its own wires only: zeroes there satisfy them. -/
theorem new_from (L : Gadgetlib F) {σ : Assignment F} (hσ : ∀ v, start ≤ v → σ v = 0)
    (h inputBlock output : List Var) (ensureOutputBitness : Bool) :
    Alloc.From start (new h inputBlock output) fun g =>
      Satisfies σ (g.constraints L ensureOutputBitness) := by
  refine .bind state_from fun block hblock => .bind (.forEach fun _ => outputWords_from)
    fun words hwords => .bind (.forEach fun _ => state_from) fun v hv =>
    .bind (.forEach fun _ => state_from) fun vTemp hvTemp =>
    .bind (.forEach fun i => .forEach fun j => mixingGadget_from hblock hv hvTemp i j)
    fun gArrays hgArrays => .pure ?_
  refine satisfies_append.mpr ⟨satisfies_flatMap.mpr fun gs hgs => satisfies_flatMap.mpr
    fun g hg => ?_, satisfies_flatMap.mpr fun g hg => ?_⟩
  · obtain ⟨i, rfl⟩ := (List.Vector.mem_iff_get _ _).mp hgs
    obtain ⟨j, rfl⟩ := (List.Vector.mem_iff_get _ _).mp hg
    exact GPrimitive.satisfies_of_vanishes L fun w hw => (hgArrays i j w hw).vanishes hσ
  · have hout : ∀ i, Vanishes σ ((words.map fun w => w.2.1).get i) := by
      intro i
      rw [List.Vector.get_map]
      exact (hwords i).2.1.vanishes hσ
    rcases mem_append.mp hg with hg | hg
    · obtain ⟨i, -, rfl⟩ := mem_map.mp hg
      exact XorGadget.satisfies_of_vanishes ((hv _ _).vanishes hσ) ((hv _ _).vanishes hσ) (hout i)
    · obtain ⟨i, -, rfl⟩ := mem_map.mp hg
      refine XorGadget.satisfies_of_vanishes (hout i) ?_ ?_
      · rw [List.Vector.get_map]
        exact (hwords i).1.vanishes hσ
      · rw [List.Vector.get_map]
        exact (hwords i).2.2.vanishes hσ

end Blake2s256Comp

/-! ### The hash -/

/-- `BLAKE2s_256` -/
structure Blake2s256 where
  input : List Var
  output : List Var
  h : List (List Var)
  block : List (List Var)
  blake2sCVector : List Blake2s256Comp

namespace Blake2s256

def digestSize : ℕ := 256
def blockSize : ℕ := 512

/-- `libff::div_ceil` of the input size by the block size. -/
def nbBlocks (input : List Var) : ℕ := (input.length + (blockSize - 1)) / blockSize

/-- The chaining value and the block of one step. -/
def digestAndBlock : Alloc (List.Vector Var digestSize × List.Vector Var blockSize) := do
  let h ← allocateArray digestSize
  let block ← allocateArray blockSize
  return (h, block)

/-- The compression gadget of block `i` writes the next chaining value, the last one the output.
The source requires at least one block. -/
def new (input output : List Var) : Alloc Blake2s256 := do
  let parts ← Alloc.forEach (nbBlocks input) fun _ => digestAndBlock
  let h := parts.toList.map fun p => p.1.toList
  let block := parts.toList.map fun p => p.2.toList
  let comps ← Alloc.forEach (nbBlocks input) fun i =>
    Blake2s256Comp.new (parts.get i).1.toList (parts.get i).2.toList (h.getD (i + 1) output)
  return ⟨input, output, h, block, comps.toList⟩

def constraints (L : Gadgetlib F) (g : Blake2s256) (ensureOutputBitness : Bool) :
    List (Constraint F) :=
  g.blake2sCVector.flatMap fun c => c.constraints L ensureOutputBitness

/-- Zeroes on the gadget's own wires satisfy its rows. -/
theorem satisfies_of_zero (L : Gadgetlib F) {σ : Assignment F} {start : ℕ}
    (hσ : ∀ v, start ≤ v → σ v = 0) (input output : List Var) (ensureOutputBitness : Bool) :
    Satisfies σ ((new input output start).1.constraints L ensureOutputBitness) := by
  have hparts : Alloc.From start digestAndBlock fun _ => True :=
    .bind (.allocateArray digestSize) fun _ _ => .bind (.allocateArray blockSize) fun _ _ =>
      .pure trivial
  have hnew : Alloc.From start (new input output) fun g =>
      Satisfies σ (g.constraints L ensureOutputBitness) := by
    refine .bind (.forEach fun _ => hparts) fun parts _ => .bind (.forEach fun i =>
      Blake2s256Comp.new_from L hσ _ _ _ ensureOutputBitness) fun comps hcomps => .pure ?_
    refine satisfies_flatMap.mpr fun c hc => ?_
    obtain ⟨i, rfl⟩ := (List.Vector.mem_iff_get _ _).mp hc
    exact hcomps i
  exact (hnew start le_rfl).1

/-- Any output goes with any input: the rows are met with every value of the output wires. -/
theorem exists_satisfies (L : Gadgetlib F) {start : ℕ} (hstart : 0 < start)
    {input output : List Var} (hout : Allocated start output)
    (hin : ∀ v ∈ input, v < start ∧ v ∉ output) (σ : Assignment F) (values : List F)
    (hlen : output.length = values.length) (ensureOutputBitness : Bool) :
    ∃ τ : Assignment F,
      Satisfies τ ((new input output start).1.constraints L ensureOutputBitness) ∧
        (∀ v ∈ input, τ v = σ v) ∧ output.map τ = values := by
  refine ⟨(σ.clearFrom start).fill output values, ?_, ?_, ?_⟩
  · refine satisfies_of_zero L (fun v hv => ?_) input output ensureOutputBitness
    rw [Assignment.fill_of_notMem _ _ _ fun h => absurd (hout.lt v h) (not_lt.mpr hv),
      Assignment.clearFrom_of_le _ hstart hv]
  · intro v hv
    rw [Assignment.fill_of_notMem _ _ _ (hin v hv).2, Assignment.clearFrom_of_lt _ (hin v hv).1]
  · exact Assignment.map_fill _ _ _ hout.nodup hout.one_notMem hlen

/-- On inputs that carry the message, the rows force the output wires to be bits. -/
def ForcesBits (L : Gadgetlib F) (g : Blake2s256) (message : Bytes) : Prop :=
  ∀ σ : Assignment F, Satisfies σ (g.constraints L true) → Carries σ g.input (toBits message) →
    ∀ v ∈ g.output, IsBool (σ v)

/-- On inputs that carry the message, the rows force output wires of bits to carry the digest. -/
def ForcesDigest (L : Gadgetlib F) (g : Blake2s256) (message : Bytes) : Prop :=
  ∀ σ : Assignment F, Satisfies σ (g.constraints L true) → Carries σ g.input (toBits message) →
    (∀ v ∈ g.output, IsBool (σ v)) → Carries σ g.output (toBits (Blake2s.hash message))

private theorem not_isBool_two (p : ℕ) [CharP F p] (hp : 2 ^ 35 < p) : ¬ IsBool (2 : F) := by
  have hcast : ∀ m : ℕ, m < 2 → (2 : F) ≠ (m : F) := by
    intro m hm h
    have h2 : ((2 : ℕ) : F) = (m : F) := by rw [← h, Nat.cast_ofNat]
    exact hm.ne' (natCast_inj_of_lt (F := F) p (by omega) (by omega) h2)
  rintro (h | h)
  · exact hcast 0 (by omega) (by rw [h, Nat.cast_zero])
  · exact hcast 1 (by omega) (by rw [h, Nat.cast_one])

/-- Whatever the message, the rows force neither the bits of the output nor the digest. The
message is not empty because the constructor takes the last of its blocks. -/
theorem not_forcesBits_and_not_forcesDigest (L : Gadgetlib F) (p : ℕ) [CharP F p]
    (hp : 2 ^ 35 < p) {start : ℕ} {input output : List Var} {message : Bytes}
    (_hmessage : message ≠ []) (σ : Assignment F) (hinput : Carries σ input (toBits message))
    (hin : ∀ v ∈ input, v < start ∧ v ∉ output) (hout : Allocated start output)
    (hlen : output.length = digestSize) :
    ¬ ForcesBits L (new input output start).1 message ∧
      ¬ ForcesDigest L (new input output start).1 message := by
  have hdigest : (toBits (Blake2s.hash message)).length = output.length := by
    rw [length_toBits, Blake2s.length_hash, hlen]
    rfl
  obtain ⟨o, ho⟩ : ∃ o, o ∈ output :=
    exists_mem_of_length_pos (by rw [hlen]; decide)
  have hstart : 0 < start := (hout.pos o ho).trans (hout.lt o ho)
  constructor
  · -- twos on all output wires
    intro h
    obtain ⟨τ, hrows, hτ, hvalues⟩ := exists_satisfies L hstart hout hin σ
      (List.replicate output.length 2) (by rw [length_replicate]) true
    have htwo : τ o = 2 := eq_of_mem_replicate (hvalues ▸ mem_map_of_mem ho)
    exact not_isBool_two (F := F) p hp (htwo ▸ h τ hrows (hinput.congr hτ) o ho)
  · -- the complement of the digest
    intro h
    obtain ⟨τ, hrows, hτ, hvalues⟩ := exists_satisfies L hstart hout hin σ
      (((toBits (Blake2s.hash message)).map not).map ofBool)
      (by rw [length_map, length_map, hdigest]) true
    have hcompl : Carries τ output ((toBits (Blake2s.hash message)).map not) := hvalues
    have heq := (h τ hrows (hinput.congr hτ) hcompl.isBool).injective hcompl
    cases hbits : toBits (Blake2s.hash message) with
    | nil =>
      rw [hbits, length_nil, hlen] at hdigest
      exact absurd hdigest (by decide)
    | cons b bs =>
      rw [hbits, map_cons, List.cons.injEq] at heq
      exact (Bool.eq_not_self b).mp heq.1

section ZeroByte

/-- A board with one byte of input and a digest. -/
def oneByteGadget : Blake2s256 := (new (List.range' 1 8) (List.range' 9 256) 265).1

private theorem blank_eq_zero {v : Var} (hv : 0 < v) :
    (Assignment.blank : Assignment SampleField) v = 0 :=
  if_neg (Nat.ne_of_gt hv)

private theorem blank_carries {start n : ℕ} (hstart : 0 < start) :
    Carries (Assignment.blank : Assignment SampleField) (List.range' start n)
      (List.replicate n false) := by
  have hzero : (List.replicate n false).map ofBool = List.replicate n (0 : SampleField) :=
    map_replicate
  rw [Carries, hzero, eq_replicate_iff, length_map, length_range']
  refine ⟨rfl, fun x hx => ?_⟩
  obtain ⟨v, hv, rfl⟩ := mem_map.mp hx
  exact blank_eq_zero (hstart.trans_le (mem_range'_1.mp hv).1)

/-- On the board of zeroes the rows hold, the input is the zero byte and the output is a digest
of zeroes, which is not the digest of the zero byte. -/
theorem blank_satisfies_wrong_digest :
    Satisfies (Assignment.blank : Assignment SampleField)
        (oneByteGadget.constraints Gadgetlib.standard true) ∧
      Carries (Assignment.blank : Assignment SampleField) oneByteGadget.input (toBits [0]) ∧
      Carries (Assignment.blank : Assignment SampleField) oneByteGadget.output
        (List.replicate 256 false) ∧
      toBits (Blake2s.hash [0]) ≠ List.replicate 256 false := by
  refine ⟨?_, blank_carries Nat.one_pos, blank_carries (by decide), by decide +kernel⟩
  exact satisfies_of_zero _ (fun v hv => blank_eq_zero (Nat.lt_of_lt_of_le (by decide) hv)) _ _ true

theorem not_forces_zero_byte :
    2 ^ 35 < mersenne 89 ∧ ¬ ForcesBits (F := SampleField) Gadgetlib.standard oneByteGadget [0] ∧
      ¬ ForcesDigest (F := SampleField) Gadgetlib.standard oneByteGadget [0] := by
  have hp : 2 ^ 35 < mersenne 89 := by norm_num [mersenne]
  have hout : Allocated 265 (List.range' 9 256) :=
    ⟨nodup_range', fun v hv => Nat.lt_of_lt_of_le (by decide) (mem_range'_1.mp hv).1,
      fun v hv => (mem_range'_1.mp hv).2⟩
  refine ⟨hp, not_forcesBits_and_not_forcesDigest (F := SampleField) Gadgetlib.standard
    (mersenne 89) hp (cons_ne_nil 0 []) Assignment.blank (blank_carries Nat.one_pos)
    (fun v hv => ?_) hout length_range'⟩
  rw [mem_range'_1] at hv
  rw [mem_range'_1]
  exact ⟨Nat.lt_trans hv.2 (by decide), fun h => absurd h.1 (Nat.not_le.mpr hv.2)⟩

end ZeroByte

end Blake2s256

end Zeth.Circuit
