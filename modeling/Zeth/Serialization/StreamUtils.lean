import Zeth.Serialization.GroupElement

/-!
# Collections on streams of bytes

Vectors, sparse vectors, accumulation vectors, linear combinations and constraint systems are
written with the numbers of their entries before the entries
(`libzeth/serialization/stream_utils.tcc`, `libzeth/serialization/r1cs_serialization.tcc`). The
number of the terms of a linear combination has four bytes, all others have eight.

The assertions are left out. One of them is meant to bound the number of terms by the largest number
of four bytes, but compares it with the address of a function.

## Main definitions

* `collectionWriteBytes`, `collectionReadBytes`.
* `SparseVector`, `AccumulationVector`, `sparseVectorWriteBytes`, `sparseVectorReadBytes`,
  `accumulationVectorWriteBytes`, `accumulationVectorReadBytes`.
* `LinearTerm`, `Constraint`, `ConstraintSystem`, `r1csWriteBytes`, `r1csReadBytes`.

## Main results

* `reads_collection`, `reads_sparseVector`, `reads_accumulationVector`, `reads_r1cs`: what has been
  written is read back.
-/

namespace Zeth.Serialization

open ByteString

/-- Numbers of type `size_t`. -/
abbrev SizeT := BitVec 64

/-- `write_bytes`, of a number of type `size_t`. -/
def writeSizeT (x : SizeT) : Bytes := writeNat 8 x.toNat

/-- `read_bytes<size_t>`. -/
def readSizeT : Reader Fault Byte SizeT := do
  let x ← Reader.nat .endOfStream 8
  return BitVec.ofNat 64 x

theorem reads_sizeT (x : SizeT) : Reads readSizeT (writeSizeT x) x := by
  refine (Reads.nat _ x.isLt).map (BitVec.eq_of_toNat_eq ?_)
  rw [BitVec.toNat_ofNat, Nat.mod_eq_of_lt x.isLt]

/-- The number of entries of a collection. -/
def writeLength (n : ℕ) : Bytes := writeSizeT (BitVec.ofNat 64 n)

/-- A reader after the number of entries. -/
theorem reads_length {α : Type} {n : ℕ} (hn : n < 2 ^ 64) {f : ℕ → Reader Fault Byte α} {bs : Bytes}
    {a : α} (hf : Reads (f n) bs a) :
    Reads (readSizeT >>= fun k => f k.toNat) (writeLength n ++ bs) a := by
  refine (reads_sizeT (BitVec.ofNat 64 n)).bind ?_
  rwa [BitVec.toNat_ofNat, Nat.mod_eq_of_lt hn]

/-! ### Collections -/

variable {α : Type}

/-- `collection_write_bytes`. -/
def collectionWriteBytes (write : α → Bytes) (collection : List α) : Bytes :=
  writeLength collection.length ++ collection.flatMap write

/-- `collection_read_bytes`. -/
def collectionReadBytes (read : Reader Fault Byte α) : Reader Fault Byte (List α) := do
  let n ← readSizeT
  read.repeatN n.toNat

theorem reads_collection {write : α → Bytes} {read : Reader Fault Byte α} {collection : List α}
    (hlength : collection.length < 2 ^ 64) (h : ∀ a ∈ collection, Reads read (write a) a) :
    Reads (collectionReadBytes read) (collectionWriteBytes write collection) collection :=
  reads_length hlength (.repeatN h)

/-- `libsnark::sparse_vector`: as many values as indices. -/
structure SparseVector (α : Type) where
  domainSize : SizeT
  indices : List SizeT
  values : List α
  length_eq : indices.length = values.length

namespace SparseVector

@[ext] theorem ext {v w : SparseVector α} (hsize : v.domainSize = w.domainSize)
    (hindices : v.indices = w.indices) (hvalues : v.values = w.values) : v = w := by
  cases v
  cases w
  cases hsize
  cases hindices
  cases hvalues
  rfl

/-- The entries of a vector. -/
def entries (v : SparseVector α) : List (SizeT × α) := v.indices.zip v.values

/-- The vector with given entries. -/
def ofEntries (domainSize : SizeT) (entries : List (SizeT × α)) : SparseVector α where
  domainSize := domainSize
  indices := entries.map Prod.fst
  values := entries.map Prod.snd
  length_eq := by rw [List.length_map, List.length_map]

theorem length_entries (v : SparseVector α) : v.entries.length = v.values.length := by
  rw [entries, List.length_zip, v.length_eq, min_self]

theorem ofEntries_entries (v : SparseVector α) : ofEntries v.domainSize v.entries = v := by
  ext1
  · rfl
  · exact List.map_fst_zip v.length_eq.le
  · exact List.map_snd_zip v.length_eq.ge

theorem snd_mem_values {v : SparseVector α} {entry : SizeT × α} (h : entry ∈ v.entries) :
    entry.2 ∈ v.values := (List.of_mem_zip h).2

end SparseVector

/-- `sparse_vector_write_bytes`. -/
def sparseVectorWriteBytes (write : α → Bytes) (v : SparseVector α) : Bytes :=
  writeSizeT v.domainSize ++
    (writeLength v.indices.length ++ v.entries.flatMap fun e => writeSizeT e.1 ++ write e.2)

/-- `sparse_vector_read_bytes`. -/
def sparseVectorReadBytes (read : Reader Fault Byte α) : Reader Fault Byte (SparseVector α) := do
  let domainSize ← readSizeT
  let entries ← (do
    let numEntries ← readSizeT
    Reader.repeatN (do
      let index ← readSizeT
      let value ← read
      return (index, value)) numEntries.toNat)
  return .ofEntries domainSize entries

theorem reads_sparseVector {write : α → Bytes} {read : Reader Fault Byte α} {v : SparseVector α}
    (hlength : v.values.length < 2 ^ 64) (h : ∀ a ∈ v.values, Reads read (write a) a) :
    Reads (sparseVectorReadBytes read) (sparseVectorWriteBytes write v) v := by
  refine (reads_sizeT v.domainSize).bind (.map ?_ v.ofEntries_entries)
  have hentries : v.indices.length = v.entries.length := v.length_eq.trans v.length_entries.symm
  rw [hentries]
  refine reads_length (v.length_entries.trans_lt hlength) (.repeatN fun e he => ?_)
  exact (reads_sizeT e.1).bind ((h e.2 (SparseVector.snd_mem_values he)).map rfl)

/-- `libsnark::accumulation_vector`. -/
@[ext] structure AccumulationVector (α : Type) where
  first : α
  rest : SparseVector α

/-- `accumulation_vector_write_bytes`. -/
def accumulationVectorWriteBytes (write : α → Bytes) (v : AccumulationVector α) : Bytes :=
  write v.first ++ sparseVectorWriteBytes write v.rest

/-- `accumulation_vector_read_bytes`. -/
def accumulationVectorReadBytes (read : Reader Fault Byte α) :
    Reader Fault Byte (AccumulationVector α) := do
  let first ← read
  let rest ← sparseVectorReadBytes read
  return ⟨first, rest⟩

theorem reads_accumulationVector {write : α → Bytes} {read : Reader Fault Byte α}
    {v : AccumulationVector α} (hlength : v.rest.values.length < 2 ^ 64)
    (hfirst : Reads read (write v.first) v.first)
    (h : ∀ a ∈ v.rest.values, Reads read (write a) a) :
    Reads (accumulationVectorReadBytes read) (accumulationVectorWriteBytes write v) v :=
  hfirst.bind ((reads_sparseVector hlength h).map rfl)

/-! ### Constraint systems -/

variable {F : Type} (c : StreamCodec F)

/-- `libsnark::linear_term`. -/
structure LinearTerm (F : Type) where
  index : SizeT
  coeff : F

/-- `libsnark::r1cs_constraint`, three linear combinations. -/
structure Constraint (F : Type) where
  a : List (LinearTerm F)
  b : List (LinearTerm F)
  c : List (LinearTerm F)

/-- `libsnark::r1cs_constraint_system`. -/
structure ConstraintSystem (F : Type) where
  primaryInputSize : SizeT
  auxiliaryInputSize : SizeT
  constraints : List (Constraint F)

/-- `linear_combination_write_bytes`. -/
def linearCombinationWriteBytes (terms : List (LinearTerm F)) : Bytes :=
  writeNat 4 terms.length ++ terms.flatMap fun term => writeSizeT term.index ++ c.write term.coeff

/-- `linear_combination_read_bytes`. -/
def linearCombinationReadBytes : Reader Fault Byte (List (LinearTerm F)) := do
  let numTerms ← Reader.nat .endOfStream 4
  Reader.repeatN (do
    let index ← readSizeT
    let coeff ← codecReader c
    return ⟨index, coeff⟩) numTerms

/-- `r1cs_constraint_write_bytes`. -/
def r1csConstraintWriteBytes (constraint : Constraint F) : Bytes :=
  linearCombinationWriteBytes c constraint.a ++
    (linearCombinationWriteBytes c constraint.b ++ linearCombinationWriteBytes c constraint.c)

/-- `r1cs_constraint_read_bytes`. -/
def r1csConstraintReadBytes : Reader Fault Byte (Constraint F) := do
  let a ← linearCombinationReadBytes c
  let b ← linearCombinationReadBytes c
  let c ← linearCombinationReadBytes c
  return ⟨a, b, c⟩

/-- `r1cs_write_bytes`. -/
def r1csWriteBytes (r1cs : ConstraintSystem F) : Bytes :=
  writeSizeT r1cs.primaryInputSize ++ (writeSizeT r1cs.auxiliaryInputSize ++
    collectionWriteBytes (r1csConstraintWriteBytes c) r1cs.constraints)

/-- `r1cs_read_bytes`. -/
def r1csReadBytes : Reader Fault Byte (ConstraintSystem F) := do
  let primaryInputSize ← readSizeT
  let auxiliaryInputSize ← readSizeT
  let constraints ← collectionReadBytes (r1csConstraintReadBytes c)
  return ⟨primaryInputSize, auxiliaryInputSize, constraints⟩

/-- The linear combinations have less than `2 ^ 32` terms. -/
def Constraint.IsShort (constraint : Constraint F) : Prop :=
  constraint.a.length < 2 ^ 32 ∧ constraint.b.length < 2 ^ 32 ∧ constraint.c.length < 2 ^ 32

instance decidableIsShort (constraint : Constraint F) : Decidable constraint.IsShort :=
  inferInstanceAs (Decidable (_ ∧ _ ∧ _))

theorem reads_linearCombination {terms : List (LinearTerm F)} (hlength : terms.length < 2 ^ 32) :
    Reads (linearCombinationReadBytes c) (linearCombinationWriteBytes c terms) terms := by
  refine (Reads.nat Fault.endOfStream hlength).bind (.repeatN fun term _ => ?_)
  exact (reads_sizeT term.index).bind ((reads_codec c term.coeff).map rfl)

theorem reads_constraint {constraint : Constraint F} (h : constraint.IsShort) :
    Reads (r1csConstraintReadBytes c) (r1csConstraintWriteBytes c constraint) constraint :=
  (reads_linearCombination c h.1).bind ((reads_linearCombination c h.2.1).bind
    ((reads_linearCombination c h.2.2).map rfl))

/-- A constraint system is read back. -/
theorem reads_r1cs {r1cs : ConstraintSystem F} (hlength : r1cs.constraints.length < 2 ^ 64)
    (h : ∀ constraint ∈ r1cs.constraints, constraint.IsShort) :
    Reads (r1csReadBytes c) (r1csWriteBytes c r1cs) r1cs :=
  (reads_sizeT _).bind ((reads_sizeT _).bind ((reads_collection hlength fun constraint hmem =>
    reads_constraint c (h constraint hmem)).map rfl))

end Zeth.Serialization
