import Mathlib
import Zeth.Foundation.Bits

/-!
# The gadgets the circuit is built from

The circuit of the mixer is written over libsnark's `gadgetlib1` and over two hash gadgets that
are template parameters: `HashT` on bit strings and `HashTreeT` on pairs of field elements. None
of them is part of the circuit's own code, so each is a parameter here.

A gadget has two phases: its constructor allocates wires on the board, and
`generate_r1cs_constraints` later adds its rows. A gadget object is therefore the record of its
wires, made in `R1CS.Alloc`, and its rows are a function of that record.

## Main definitions

* `Zeth.Circuit.Gadgetlib`: the parts of libsnark that are used, with what their documentation
  says of them.
* `Zeth.Circuit.HashGadget`, `Zeth.Circuit.TreeHashGadget`: the two hash parameters, with their
  soundness and completeness.
* `Zeth.Circuit.packedAddition`: the number of a bit string as a linear combination.
-/

namespace Zeth.Circuit

open R1CS List LinearCombination

variable {F : Type} [Field F]

/-- The parts of libsnark used by the circuit. The rows themselves are not fixed, only when they
hold. -/
structure Gadgetlib (F : Type) [Field F] where
  /-- `generate_boolean_r1cs_constraint` -/
  boolean : Var → Constraint F
  boolean_holds : ∀ σ v, (boolean v).Holds σ ↔ IsBool (σ v)
  /-- `generate_r1cs_equals_const_constraint` -/
  equalsConst : Var → F → Constraint F
  equalsConst_holds : ∀ σ v x, (equalsConst v x).Holds σ ↔ σ v = x
  /-- `pb_packing_sum` -/
  packingSum : List Var → LinearCombination F
  eval_packingSum : ∀ σ vs, (packingSum vs).eval σ = littleEndian (vs.map σ)
  /-- `packing_gadget`: bits, packed element, `enforce_bitness` -/
  packing : List Var → Var → Bool → List (Constraint F)
  packing_satisfies : ∀ σ vs v, Satisfies σ (packing vs v true) ↔
    (∀ w ∈ vs, IsBool (σ w)) ∧ σ v = littleEndian (vs.map σ)
  /-- `multipacking_gadget`: bits, packed elements, chunk size, `enforce_bitness` -/
  multipacking : List Var → List Var → ℕ → Bool → List (Constraint F)
  multipacking_isBool : ∀ σ vs ps n, Satisfies σ (multipacking vs ps n true) →
    ∀ w ∈ vs, IsBool (σ w)
  /-- `digest_variable::generate_r1cs_constraints` -/
  digest : List Var → List (Constraint F)
  digest_satisfies : ∀ σ vs, Satisfies σ (digest vs) ↔ ∀ w ∈ vs, IsBool (σ w)

namespace Gadgetlib

variable (L : Gadgetlib F)

/-- A boolean row for each wire of an array. -/
def booleans (vs : List Var) : List (Constraint F) := vs.map L.boolean

theorem satisfies_booleans {σ : Assignment F} {vs : List Var} :
    Satisfies σ (L.booleans vs) ↔ ∀ v ∈ vs, IsBool (σ v) := by
  rw [booleans, satisfies_map]
  exact forall₂_congr fun v _ => L.boolean_holds σ v

/-- The number of a bit string as a linear combination: the array is reversed because
`pb_packing_sum` takes the least significant bit first. -/
def packedAddition (inputs : List Var) : LinearCombination F := L.packingSum inputs.reverse

theorem eval_packedAddition {σ : Assignment F} {vs : List Var} {bs : List Bool}
    (h : Carries σ vs bs) : (L.packedAddition vs).eval σ = (natOfBits bs : F) := by
  rw [packedAddition, L.eval_packingSum, h.littleEndian_reverse]

theorem eval_packedAddition_numberOf [DecidableEq F] {σ : Assignment F} {vs : List Var}
    (h : ∀ v ∈ vs, IsBool (σ v)) : (L.packedAddition vs).eval σ = (numberOf σ vs : F) :=
  L.eval_packedAddition (carries_bitsOf h)

/-- One row per bit and one per packed element. -/
private def packingRows (vs : List Var) (v : Var) : List (Constraint F) :=
  ⟨.const 1, ⟨vs.zipIdx.map fun t => (t.1, 2 ^ t.2)⟩, .var v⟩ ::
    vs.map fun w => ⟨.var w, .const 1 - .var w, 0⟩

private theorem eval_zipIdx (σ : Assignment F) (vs : List Var) (n : ℕ) :
    LinearCombination.eval σ ⟨(vs.zipIdx n).map fun t => (t.1, (2 : F) ^ t.2)⟩ =
      2 ^ n * littleEndian (vs.map σ) := by
  induction vs generalizing n with
  | nil => simp [LinearCombination.eval, littleEndian]
  | cons v vs ih =>
    have htail := ih (n + 1)
    rw [LinearCombination.eval, map_map] at htail ⊢
    rw [zipIdx_cons, map_cons, sum_cons, htail, map_cons, littleEndian]
    simp only [Function.comp_apply]
    ring

private theorem isBool_row (σ : Assignment F) (v : Var) :
    (⟨.var v, .const 1 - .var v, 0⟩ : Constraint F).Holds σ ↔ IsBool (σ v) := by
  rw [Constraint.Holds, eval_var, eval_sub,
    eval_const, eval_var, eval_zero]
  exact mul_one_sub_eq_zero_iff

private theorem satisfies_packingRows (σ : Assignment F) (vs : List Var) (v : Var) :
    Satisfies σ (packingRows vs v) ↔
      (∀ w ∈ vs, IsBool (σ w)) ∧ σ v = littleEndian (vs.map σ) := by
  have hsum := eval_zipIdx σ vs 0
  rw [pow_zero, one_mul] at hsum
  rw [packingRows, satisfies_cons, satisfies_map, Constraint.Holds, hsum,
    eval_const, eval_var, one_mul, and_comm]
  exact and_congr (forall₂_congr fun w _ => isBool_row σ w) eq_comm

/-- A library with the usual rows: `x · (1 − x) = 0` for a bit and one row for each packed
element. -/
def standard : Gadgetlib F where
  boolean v := ⟨.var v, .const 1 - .var v, 0⟩
  boolean_holds := isBool_row
  equalsConst v x := ⟨.var v, .const 1, .const x⟩
  equalsConst_holds σ v x := by
    rw [Constraint.Holds, eval_var, eval_const,
      eval_const, mul_one]
  packingSum vs := ⟨vs.zipIdx.map fun t => (t.1, 2 ^ t.2)⟩
  eval_packingSum σ vs := by rw [eval_zipIdx, pow_zero, one_mul]
  packing vs v _ := packingRows vs v
  packing_satisfies := satisfies_packingRows
  multipacking vs ps n _ :=
    (ps.zipIdx.flatMap fun t => packingRows ((vs.drop (t.2 * n)).take n) t.1) ++
      vs.map fun w => ⟨.var w, .const 1 - .var w, 0⟩
  multipacking_isBool σ vs ps n h w hw := by
    rw [satisfies_append, satisfies_map] at h
    exact (isBool_row σ w).mp (h.2 w hw)
  digest vs := vs.map fun w => ⟨.var w, .const 1 - .var w, 0⟩
  digest_satisfies σ vs := by
    rw [satisfies_map]
    exact forall₂_congr fun w _ => isBool_row σ w

/-- What `multipacking_gadget` checks: the bits, and that each packed element is the sum of its
chunk of bits. -/
def PacksChunks (L : Gadgetlib F) : Prop :=
  ∀ σ vs ps n, Satisfies σ (L.multipacking vs ps n true) ↔
    (∀ w ∈ vs, IsBool (σ w)) ∧
      ∀ t ∈ ps.zipIdx, σ t.1 = littleEndian (((vs.drop (t.2 * n)).take n).map σ)

theorem standard_packsChunks : (standard : Gadgetlib F).PacksChunks := by
  intro σ vs ps n
  refine satisfies_append.trans ?_
  rw [satisfies_flatMap, satisfies_map]
  simp only [satisfies_packingRows, isBool_row]
  constructor
  · rintro ⟨hpacked, hbits⟩
    exact ⟨hbits, fun t ht => (hpacked t ht).2⟩
  · rintro ⟨hbits, hpacked⟩
    refine ⟨fun t ht => ⟨fun w hw => hbits w ?_, hpacked t ht⟩, hbits⟩
    exact mem_of_mem_drop (mem_of_mem_take hw)

theorem standard_multipacking_satisfies {σ : Assignment F} {vs ps : List Var} {n : ℕ}
    (hbits : ∀ w ∈ vs, IsBool (σ w))
    (hpacked : ∀ t ∈ ps.zipIdx, σ t.1 = littleEndian (((vs.drop (t.2 * n)).take n).map σ)) :
    Satisfies σ (standard.multipacking vs ps n true) :=
  (standard_packsChunks σ vs ps n).mpr ⟨hbits, hpacked⟩

end Gadgetlib

/-! ### Hashes of bit strings -/

/-- A hash gadget on bit strings, the template parameter `HashT`. -/
structure HashGadget (F : Type) [Field F] where
  /-- `get_digest_len` -/
  digestLen : ℕ
  /-- `get_block_len` -/
  blockLen : ℕ
  /-- The number of wires the constructor allocates. -/
  numVars : List Var → List Var → ℕ
  /-- `generate_r1cs_constraints`: first own wire, input, output, `ensure_output_bitness`. -/
  constraints : ℕ → List Var → List Var → Bool → List (Constraint F)
  /-- `generate_r1cs_witness`: first own wire, input, output. -/
  witness : ℕ → List Var → List Var → Assignment F → Assignment F

/-- A constructed hash gadget: its first own wire, its input and its output. -/
structure Hasher where
  start : ℕ
  input : List Var
  output : List Var

namespace HashGadget

variable (H : HashGadget F)

/-- The constructor. -/
def new (input output : List Var) : Alloc Hasher := fun next =>
  (⟨next, input, output⟩, next + H.numVars input output)

/-- Rows of a constructed hasher. -/
def rows (g : Hasher) (ensureOutputBitness : Bool) : List (Constraint F) :=
  H.constraints g.start g.input g.output ensureOutputBitness

/-- The rows force the output to be the hash of the input bits. -/
def Sound (hash : List Bool → List Bool) : Prop :=
  ∀ start input output (σ : Assignment F) bits, output.length = H.digestLen →
    Satisfies σ (H.constraints start input output true) → Carries σ input bits →
      Carries σ output (hash bits)

/-- The rows mention the input, the output and the gadget's own wires only. -/
def Local : Prop :=
  ∀ start input output b, ∀ k ∈ H.constraints start input output b, ∀ v ∈ k.vars,
    v = ONE ∨ v ∈ input ∨ v ∈ output ∨ start ≤ v ∧ v < start + H.numVars input output

/-- The witness generator writes the output and the gadget's own wires only, and satisfies the
rows on any input of bits, when input and output were allocated before and do not overlap. -/
structure Complete : Prop where
  frame : ∀ start input output (σ : Assignment F) v, v ∉ output →
    v < start ∨ start + H.numVars input output ≤ v → H.witness start input output σ v = σ v
  satisfies : ∀ start input output (σ : Assignment F) bits, output.length = H.digestLen →
    output.Nodup → ONE ∉ output → (∀ v ∈ input, v < start ∧ v ∉ output) →
    (∀ v ∈ output, v < start) → Carries σ input bits →
      Satisfies (H.witness start input output σ) (H.constraints start input output true)

section Extension

variable {H} {hash : List Bool → List Bool} {start : ℕ} {input output : List Var}
  {σ τ : Assignment F}

/-- The rows do not see changes to wires that are neither input nor output nor the gadget's own. -/
theorem Local.satisfies_congr (hL : H.Local) {b : Bool}
    (h : Satisfies σ (H.constraints start input output b))
    (hτ : ∀ v, v ∈ input ∨ v ∈ output ∨ start ≤ v ∧ v < start + H.numVars input output →
      τ v = σ v) :
    Satisfies τ (H.constraints start input output b) := by
  refine (R1CS.satisfies_congr fun k hk v hv => ?_).mpr h
  rcases hL start input output b k hk v hv with rfl | hv
  · rw [τ.val_ONE, σ.val_ONE]
  · exact hτ v hv

/-- On an input of bits the output can be completed to a satisfying assignment. -/
theorem Complete.exists_extension (hC : H.Complete) (hH : H.Sound hash)
    (hlen : output.length = H.digestLen) (hout : Allocated start output)
    (hin : ∀ v ∈ input, v < start ∧ v ∉ output) {bits : List Bool}
    (hbits : Carries σ input bits) :
    ∃ τ : Assignment F, Satisfies τ (H.constraints start input output true) ∧
      Carries τ output (hash bits) ∧
      ∀ v, v ∉ output → v < start ∨ start + H.numVars input output ≤ v → τ v = σ v := by
  set τ := H.witness start input output σ
  have hframe := hC.frame start input output σ
  have hrows : Satisfies τ (H.constraints start input output true) :=
    hC.satisfies start input output σ bits hlen hout.nodup hout.one_notMem hin hout.lt hbits
  have hinput : Carries τ input bits :=
    hbits.congr fun v hv => hframe v (hin v hv).2 (Or.inl (hin v hv).1)
  exact ⟨τ, hrows, hH start input output τ bits hlen hrows hinput, hframe⟩

end Extension

/-- The wires of `lastBits` as linear combinations. -/
private def lastWires (n : ℕ) (input : List Var) : List (LinearCombination F) :=
  (input.reverse.map LinearCombination.var ++ List.replicate n 0).take n

/-- A hash gadget that copies the last `n` bits of its input. -/
def copyLast (n : ℕ) : HashGadget F where
  digestLen := n
  blockLen := 2 * n
  numVars _ _ := 0
  constraints _ input output _ :=
    ((lastWires n input).zip output).map fun t => ⟨.const 1, t.1, .var t.2⟩
  witness _ input output σ := σ.fill output ((lastWires n input).map (LinearCombination.eval σ))

end HashGadget

/-! ### Hashes of pairs of field elements -/

/-- A hash gadget on pairs of field elements, the template parameter `HashTreeT`. -/
structure TreeHashGadget (F : Type) [Field F] where
  /-- The number of wires the constructor allocates. -/
  numVars : ℕ
  /-- `generate_r1cs_constraints`: first own wire, left, right, result. -/
  constraints : ℕ → Var → Var → Var → List (Constraint F)
  /-- `generate_r1cs_witness`: first own wire, left, right, result. -/
  witness : ℕ → Var → Var → Var → Assignment F → Assignment F

/-- A constructed tree hash gadget. -/
structure TreeHasher where
  start : ℕ
  x : Var
  y : Var
  result : Var

namespace TreeHashGadget

variable (T : TreeHashGadget F)

/-- The constructor. -/
def new (x y result : Var) : Alloc TreeHasher := fun next =>
  (⟨next, x, y, result⟩, next + T.numVars)

/-- Rows of a constructed hasher. -/
def rows (g : TreeHasher) : List (Constraint F) := T.constraints g.start g.x g.y g.result

/-- The rows mention the inputs, the result and the gadget's own wires only. -/
def Local : Prop :=
  ∀ start x y result, ∀ k ∈ T.constraints start x y result, ∀ v ∈ k.vars,
    v = ONE ∨ v = x ∨ v = y ∨ v = result ∨ start ≤ v ∧ v < start + T.numVars

/-- The rows force the result to be the hash of the two inputs. -/
def Sound (hash : F → F → F) : Prop :=
  ∀ start x y result (σ : Assignment F),
    Satisfies σ (T.constraints start x y result) → σ result = hash (σ x) (σ y)

/-- The witness generator writes the hash of the two inputs to the result, when these three wires
were allocated before, and writes nothing else but the gadget's own wires. -/
structure Computes (hash : F → F → F) : Prop where
  frame : ∀ start x y result (σ : Assignment F) v, v ≠ result →
    v < start ∨ start + T.numVars ≤ v → T.witness start x y result σ v = σ v
  result : ∀ start x y result (σ : Assignment F), x < start → y < start → result < start →
    x ≠ result → y ≠ result → result ≠ ONE →
      T.witness start x y result σ result = hash (σ x) (σ y)

/-- A tree hash gadget that adds its two inputs. -/
def sum : TreeHashGadget F where
  numVars := 0
  constraints _ x y result := [⟨.const 1, .var x + .var y, .var result⟩]
  witness _ x y result σ := σ.set result (σ x + σ y)

theorem sum_holds_iff {σ : Assignment F} {start : ℕ} {x y result : Var} :
    Satisfies σ (sum.constraints start x y result) ↔ σ result = σ x + σ y := by
  rw [sum, satisfies_cons, Constraint.Holds, eval_const,
    eval_add, eval_var, eval_var,
    eval_var, one_mul, eq_comm]
  exact and_iff_left satisfies_nil

theorem sum_sound : (sum (F := F)).Sound (· + ·) := fun _ _ _ _ _ h => sum_holds_iff.mp h

theorem sum_computes : (sum (F := F)).Computes (· + ·) where
  frame _ _ _ _ σ _ hne _ := σ.set_of_ne _ hne
  result _ _ _ _ σ _ _ _ _ _ hone := σ.set_self _ hone

end TreeHashGadget

instance fact_prime_mersenne_89 : Fact (mersenne 89).Prime :=
  ⟨lucas_lehmer_sufficiency _ (by norm_num) (by norm_num)⟩

/-- The field of the concrete instances, of prime order `2 ^ 89 - 1`. -/
abbrev SampleField := ZMod (mersenne 89)

end Zeth.Circuit
