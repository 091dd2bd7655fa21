import Zeth.Circuit.Blake2sCompression

/-!
# The witness of the BLAKE2s gadget

`BLAKE2s_256::generate_r1cs_witness` writes the padded input to the blocks, the parameter block and the
initialisation vector to the first chaining value, and then runs the witness generators of the
compression gadgets (`libzeth/circuits/blake2s/blake2s.tcc`). No write changes a wire that was read
before, so at the end every block, every chaining value and every word of every compression gadget has
the value it was given.

## Main definitions

* `Zeth.Circuit.Blake2s256.witness`, `Zeth.Circuit.Blake2s256.getHash`.

## Main results

* `Zeth.Circuit.Blake2s256.witness_and_getHash`: the witness satisfies the rows and the output carries
  the digest of the specification.
-/

namespace Zeth.Circuit

open R1CS ByteString List

variable {F : Type} [Field F] [DecidableEq F]

namespace Blake2s256

/-! ### The witness generator -/

/-- `parameter_block`, in the order of bytes that the source has swapped to. -/
def parameterBlock : Fin 8 → Blake2s.Word := ![0x01010020, 0, 0, 0, 0, 0, 0, 0]

/-- The input, padded with zeroes to whole blocks. -/
def paddedInput (g : Blake2s256) (σ : Assignment F) : List F :=
  let toPad := g.input.length % blockSize
  g.input.map σ ++ if toPad ≠ 0 then List.replicate (blockSize - toPad) 0 else []

/-- `h_bits` -/
def hBits : List Bool :=
  (List.finRange 8).flatMap fun i =>
    bitsXor (wordBits (parameterBlock i)) (wordBits (Blake2s256Comp.blake2sIV i))

/-- `libff::div_ceil` of a number of bits by the length of a byte, as a `size_t`. -/
def byteLength (bits : ℕ) : BitVec 64 := BitVec.ofNat 64 ((bits + 7) / 8)

/-- The witness generator of `BLAKE2sC_vector[i]`. -/
def compWitness (g : Blake2s256) (i : ℕ) (lenByteTotal : BitVec 64) (isLastBlock : Bool)
    (σ : Assignment F) : Except String (Assignment F) :=
  match g.blake2sCVector[i]? with
  | some c => c.witness lenByteTotal isLastBlock σ
  | none => .error "BLAKE2sC_vector: index out of range"

/-- `generate_r1cs_witness` -/
def witness (g : Blake2s256) (σ : Assignment F) : Except String (Assignment F) := do
  let nbBlocks := nbBlocks g.input
  let paddedInput := g.paddedInput σ
  let σ := (List.range nbBlocks).foldl (fun σ i =>
    σ.fill (g.block.getD i []) ((paddedInput.drop (blockSize * i)).take blockSize)) σ
  let σ := σ.fill (g.h.getD 0 []) (hBits.map ofBool)
  let σ ← (List.range (nbBlocks - 1)).foldlM (fun σ i =>
    g.compWitness i (byteLength ((i + 1) * blockSize)) false σ) σ
  g.compWitness (nbBlocks - 1) (byteLength g.input.length) true σ

/-- The wires that `get_hash` allocates and its gadget. -/
def hasher (size : ℕ) : Alloc (List Var × List Var × Blake2s256) := do
  let inputBlock ← allocateArray size
  let outputVariable ← allocateArray digestSize
  let blake2sHasher ← new inputBlock.toList outputVariable.toList
  return (inputBlock.toList, outputVariable.toList, blake2sHasher)

variable (F) in
/-- `get_hash` -/
def getHash (input : List Bool) : Except String (List Bool) := do
  let (inputBlock, outputVariable, blake2sHasher) := (hasher input.length 1).1
  let σ := (Assignment.blank : Assignment F).fill inputBlock (input.map ofBool)
  let σ ← blake2sHasher.witness σ
  return bitsOf σ outputVariable

/-- The first chaining value is that of the specification. -/
theorem hBits_eq : hBits = Blake2s.initialChain.toList.flatMap wordBits := by
  rw [vector_toList_eq, flatMap_map]
  refine flatMap_congr fun i _ => ?_
  rw [bitsXor_wordBits]
  refine congrArg wordBits ?_
  revert i
  decide

theorem length_hBits : hBits.length = 256 := by
  rw [hBits_eq, length_flatMap]
  simp

/-! ### Layout -/

/-- The wires of chaining value `i`. -/
def hAt (start i : ℕ) : List Var := List.range' (start + 768 * i) 256

/-- The wires of block `i`. -/
def blockAt (start i : ℕ) : List Var := List.range' (start + 768 * i + 256) 512

/-- The first wire of compression gadget `i`. -/
def compStart (start n i : ℕ) : ℕ := start + 768 * n + 27392 * i

/-- Where compression gadget `i` of `n` writes its result. -/
def outputAt (start n : ℕ) (output : List Var) (i : ℕ) : List Var :=
  if i + 1 < n then hAt start (i + 1) else output

/-- Compression gadget `i` of `n`. -/
def compAt (start n : ℕ) (output : List Var) (i : ℕ) : Blake2s256Comp :=
  (Blake2s256Comp.new (hAt start i) (blockAt start i) (outputAt start n output i)
    (compStart start n i)).1

section CompAt

variable (start n : ℕ) (output : List Var) (i : ℕ)

theorem compAt_h : (compAt start n output i).h = hAt start i :=
  (Blake2s256Comp.new_wires _ _ _ _).1

theorem compAt_inputBlock : (compAt start n output i).inputBlock = blockAt start i :=
  (Blake2s256Comp.new_wires _ _ _ _).2.1

theorem compAt_output : (compAt start n output i).output = outputAt start n output i :=
  (Blake2s256Comp.new_wires _ _ _ _).2.2

theorem laidOut_compAt : (compAt start n output i).LaidOut (compStart start n i) :=
  (Blake2s256Comp.laidOut_new _ _ _ _).1

end CompAt

/-- The wires and gadgets of a hash gadget with `n` blocks, allocated from `start` on. -/
structure LaidOut (g : Blake2s256) (n start : ℕ) : Prop where
  h : g.h = (List.range n).map (hAt start)
  block : g.block = (List.range n).map (blockAt start)
  comps : g.blake2sCVector = (List.range n).map (compAt start n g.output)

theorem map_toList_eq_map_range {α β : Type} {n : ℕ} (v : List.Vector α n) {f : α → β} {g : ℕ → β}
    (h : ∀ i, f (v.get i) = g i) : v.toList.map f = (List.range n).map g := by
  rw [Blake2s256Comp.toList_eq_map_get, map_map, ← map_coe_finRange_eq_range, map_map]
  exact map_congr_left fun i _ => h i

/-- The layout of a new gadget. -/
theorem laidOut_new (input output : List Var) (start : ℕ) :
    (new input output start).1.input = input ∧ (new input output start).1.output = output ∧
      (new input output start).1.LaidOut (nbBlocks input) start := by
  obtain ⟨hparts, hpartsGet⟩ := Alloc.forEach_const (n := nbBlocks input) (c := 768)
    (fun _ => digestAndBlock) (fun _ _ => rfl) start
  have hdigest (i : Fin (nbBlocks input)) : ((Alloc.forEach (nbBlocks input)
      (fun _ => digestAndBlock) start).1.get i).1.toList = hAt start i := by
    rw [hpartsGet, hAt, Nat.mul_comm 768]
    rfl
  have hblock (i : Fin (nbBlocks input)) : ((Alloc.forEach (nbBlocks input)
      (fun _ => digestAndBlock) start).1.get i).2.toList = blockAt start i := by
    rw [hpartsGet, blockAt, Nat.mul_comm 768]
    rfl
  replace hparts := hparts.trans (congrArg (start + ·) (Nat.mul_comm _ _))
  rw [new, Alloc.bind_of_next hparts]
  generalize (Alloc.forEach (nbBlocks input) (fun _ => digestAndBlock) start).1 = parts
    at hdigest hblock ⊢
  have hh := map_toList_eq_map_range parts (f := fun p => p.1.toList) hdigest
  refine ⟨rfl, rfl, hh, map_toList_eq_map_range parts (f := fun p => p.2.toList) hblock, ?_⟩
  obtain ⟨-, hcomps⟩ := Alloc.forEach_const (n := nbBlocks input) (c := 27392) (fun i =>
    Blake2s256Comp.new (parts.get i).1.toList (parts.get i).2.toList
      ((parts.toList.map fun p => p.1.toList).getD (i + 1) output))
    (fun i s => (Blake2s256Comp.laidOut_new _ _ _ s).2) (start + 768 * nbBlocks input)
  have hmap := map_toList_eq_map_range (f := id) (g := compAt start (nbBlocks input) output) _
    fun i => (hcomps i).trans ?_
  · rwa [map_id] at hmap
  · rw [hdigest, hblock, hh, compAt, compStart, Nat.mul_comm 27392, outputAt]
    split_ifs with hlt
    · rw [getD_eq_getElem _ _ (by simpa using hlt), getElem_map, getElem_range]
    · rw [getD_eq_default _ _ (by simpa using hlt)]

/-! ### The writes -/

/-- The length and the flag of compression gadget `i` of `n`. -/
def isLastAt (n i : ℕ) : Bool := decide (i + 1 = n)

def lengthAt (g : Blake2s256) (n i : ℕ) : BitVec 64 :=
  byteLength (if i + 1 = n then g.input.length else (i + 1) * blockSize)

def blocksWrite (g : Blake2s256) (n start : ℕ) : Write F where
  target := (List.range n).flatMap (blockAt start)
  reads := g.input
  value σ := (List.range n).flatMap fun i => ((g.paddedInput σ).drop (blockSize * i)).take blockSize
  value_congr h := by rw [paddedInput, map_congr_left h, paddedInput]

/-- The writes of a hash gadget with `n` blocks. -/
def writes (g : Blake2s256) (n start : ℕ) : List (Write F) :=
  g.blocksWrite n start :: constWrite (hAt start 0) hBits ::
    (List.range n).flatMap fun i =>
      (compAt start n g.output i).writes (g.lengthAt n i) (isLastAt n i)

omit [DecidableEq F] in
/-- The padded input has whole blocks. -/
theorem length_paddedInput (g : Blake2s256) (σ : Assignment F) :
    (g.paddedInput σ).length = blockSize * nbBlocks g.input := by
  rw [paddedInput, length_append, length_map, nbBlocks, blockSize]
  split_ifs with hpad
  · rw [length_replicate]
    omega
  · rw [length_nil]
    omega

section Witness

variable {g : Blake2s256} {start : ℕ} (hg : g.LaidOut (nbBlocks g.input) start)

include hg

theorem compWitness_eq_ok {i : ℕ} (hi : i < nbBlocks g.input) {lenByteTotal : BitVec 64}
    {isLastBlock : Bool} (hfresh : ∀ w ∈ (compAt start (nbBlocks g.input) g.output i).writes (F := F)
      lenByteTotal isLastBlock, w.Fresh) (σ : Assignment F) :
    g.compWitness i lenByteTotal isLastBlock σ = .ok (runWrites
      ((compAt start (nbBlocks g.input) g.output i).writes lenByteTotal isLastBlock) σ) := by
  have hget : g.blake2sCVector[i]? = some (compAt start (nbBlocks g.input) g.output i) := by
    rw [hg.comps, List.getElem?_map, List.getElem?_range hi, Option.map_some]
  simp only [compWitness, hget]
  exact Blake2s256Comp.witness_eq_ok (by rw [compAt_h, hAt, length_range']) hfresh σ

/-- The witness generator runs the writes, when they are in order. -/
theorem witness_eq_ok (hpos : 0 < nbBlocks g.input)
    (hfresh : ∀ w ∈ g.writes (F := F) (nbBlocks g.input) start, w.Fresh) (σ : Assignment F) :
    g.witness σ = .ok (runWrites (g.writes (nbBlocks g.input) start) σ) := by
  simp only [writes, forall_mem_cons, forall_mem_flatMap, mem_range] at hfresh
  obtain ⟨-, -, hcomps⟩ := hfresh
  have hblocks (σ₀ : Assignment F) : (List.range (nbBlocks g.input)).foldl (fun σ i =>
      σ.fill (g.block.getD i []) (((g.paddedInput σ₀).drop (blockSize * i)).take blockSize)) σ₀ =
      (g.blocksWrite (nbBlocks g.input) start).run σ₀ := by
    have hloop : (List.range (nbBlocks g.input)).foldl (fun σ i =>
        σ.fill (g.block.getD i []) (((g.paddedInput σ₀).drop (blockSize * i)).take blockSize)) σ₀ =
        (List.range (nbBlocks g.input)).foldl (fun σ i =>
          σ.fill (blockAt start i) (((g.paddedInput σ₀).drop (blockSize * i)).take blockSize)) σ₀ := by
      refine foldl_ext _ _ σ₀ fun σ i hi => ?_
      rw [hg.block, getD_eq_getElem _ _ (by simpa using hi), getElem_map,
        getElem_range]
    refine hloop.trans (Assignment.foldl_fill _ (fun i hi => ?_) σ₀)
    have hi := mem_range.mp hi
    rw [length_take, length_drop, length_paddedInput, blockAt, length_range', blockSize]
    omega
  have hh : g.h.getD 0 [] = hAt start 0 := by
    rw [hg.h, getD_eq_getElem _ _ (by simpa using hpos), getElem_map, getElem_range]
  have hcomp (i : ℕ) (hi : i < nbBlocks g.input) (σ : Assignment F) :
      g.compWitness i (g.lengthAt (nbBlocks g.input) i) (isLastAt (nbBlocks g.input) i) σ =
        .ok (runWrites ((compAt start (nbBlocks g.input) g.output i).writes
          (g.lengthAt (nbBlocks g.input) i) (isLastAt (nbBlocks g.input) i)) σ) :=
    compWitness_eq_ok hg hi (hcomps i hi) σ
  obtain ⟨m, hm⟩ : ∃ m, nbBlocks g.input = m + 1 := ⟨_, (Nat.succ_pred_eq_of_pos hpos).symm⟩
  have hlast (σ : Assignment F) : g.compWitness m (byteLength g.input.length) true σ = .ok (runWrites
      ((compAt start (m + 1) g.output m).writes (g.lengthAt (m + 1) m) (isLastAt (m + 1) m)) σ) := by
    have hlast := hcomp m (by omega) σ
    rw [hm] at hlast
    rw [← hlast, lengthAt, if_pos rfl, isLastAt, decide_eq_true rfl]
  have hrest (σ : Assignment F) (i : ℕ) (hi : i ∈ List.range m) :
      g.compWitness i (byteLength ((i + 1) * blockSize)) false σ = .ok (runWrites
        ((compAt start (m + 1) g.output i).writes (g.lengthAt (m + 1) i) (isLastAt (m + 1) i)) σ) := by
    have hi := mem_range.mp hi
    have hrest := hcomp i (by omega) σ
    rw [hm] at hrest
    rw [← hrest, lengthAt, if_neg (by omega), isLastAt, decide_eq_false (by omega)]
  rw [hm] at hblocks
  simp only [witness, hh, hm, hblocks, Nat.add_sub_cancel, Except.foldlM_eq_ok_foldl hrest,
    Except.ok_bind, hlast]
  rw [writes, runWrites_cons, runWrites_cons, range_succ, flatMap_append,
    flatMap_singleton, runWrites_append, runWrites_flatMap]
  rfl

end Witness

/-! ### The order of the writes -/

/-- The rank of a wire: the blocks, the first chaining value, then 835 ranks for each compression
gadget, the last of them for its result. -/
def hashRank (start n : ℕ) (output : List ℕ) (v : ℕ) : ℕ :=
  if v < start then if v ∈ output then 2 + 835 * n else 0
  else if v < start + 768 * n then
    if (v - start) % 768 < 256 then 2 + 835 * ((v - start) / 768) else 1
  else 3 + 835 * ((v - (start + 768 * n)) / 27392) +
    Blake2s256Comp.writeTime ((v - (start + 768 * n)) % 27392 / 32)

section Rank

variable {start n : ℕ} {output : List ℕ} {i v : ℕ}

theorem hashRank_hAt (hi : i < n) (hv : v ∈ hAt start i) :
    hashRank start n output v = 2 + 835 * i := by
  obtain ⟨hle, hlt⟩ : start + 768 * i ≤ v ∧ v < start + 768 * i + 256 := mem_range'_1.mp hv
  have hdiv : (v - start) / 768 = i := by omega
  rw [hashRank, if_neg (by omega), if_pos (by omega), if_pos (by omega), hdiv]

theorem hashRank_blockAt (hi : i < n) (hv : v ∈ blockAt start i) :
    hashRank start n output v = 1 := by
  obtain ⟨hle, hlt⟩ : start + 768 * i + 256 ≤ v ∧ v < start + 768 * i + 256 + 512 :=
    mem_range'_1.mp hv
  rw [hashRank, if_neg (by omega), if_pos (by omega), if_neg (by omega)]

theorem hashRank_wordFrom {k : ℕ} (hk : k < 856)
    (hv : v ∈ (Blake2s256Comp.wordFrom (compStart start n i) k).toList) :
    hashRank start n output v = 3 + 835 * i + Blake2s256Comp.writeTime k := by
  obtain ⟨hle, hlt⟩ : start + 768 * n + 27392 * i + 32 * k ≤ v ∧
    v < start + 768 * n + 27392 * i + 32 * k + 32 := mem_range'_1.mp hv
  have hdiv : (v - (start + 768 * n)) / 27392 = i := by omega
  have hmod : (v - (start + 768 * n)) % 27392 / 32 = k := by omega
  rw [hashRank, if_neg (by omega), if_neg (by omega), hdiv, hmod]

theorem timed_hashRank (start n i : ℕ) (output : List ℕ) :
    Blake2s256Comp.Timed (hashRank start n output) (compStart start n i) (3 + 835 * i) :=
  fun _ hk _ hv => hashRank_wordFrom hk hv

end Rank

section Order

variable {g : Blake2s256} {start n : ℕ} (hout : Allocated start g.output)
  (hin : ∀ v ∈ g.input, v < start ∧ v ∉ g.output)

include hout hin

theorem ranked_writes (hpos : 0 < n) :
    Ranked (hashRank start n g.output) 1 (g.writes (F := F) n start) (3 + n * 835) := by
  refine ⟨fun v hv => ?_, fun v hv => ?_, fun v hv => ?_, forall_mem_nil _,
    Ranked.flatMap_range fun i hi => ?_⟩
  · obtain ⟨i, hi, hv⟩ := mem_flatMap.mp hv
    exact hashRank_blockAt (mem_range.mp hi) hv
  · obtain ⟨hlt, hnotMem⟩ := hin v hv
    rw [hashRank, if_pos hlt, if_neg hnotMem]
    decide
  · exact hashRank_hAt hpos hv
  · have hranked := (laidOut_compAt start n g.output i).ranked_writes (F := F)
      (timed_hashRank start n i g.output) (fun v hv => ?_) (fun v hv => ?_) (fun v hv => ?_)
      (g.lengthAt n i) (isLastAt n i)
    · rwa [show 3 + 835 * i = 3 + i * 835 by ring,
        show 3 + i * 835 + 835 = 3 + (i + 1) * 835 by ring] at hranked
    · rw [compAt_inputBlock] at hv
      rw [hashRank_blockAt hi hv]
      omega
    · rw [compAt_h] at hv
      rw [hashRank_hAt hi hv]
      omega
    · rw [compAt_output, outputAt] at hv
      split_ifs at hv with hnext
      · rw [hashRank_hAt hnext hv]
        ring
      · rw [hashRank, if_pos (hout.lt v hv), if_pos hv, show n = i + 1 by omega]
        ring

omit hout hin in
theorem nodup_flatMap_blockAt (start n : ℕ) : ((List.range n).flatMap (blockAt start)).Nodup := by
  refine nodup_flatMap.mpr ⟨fun i _ => nodup_range', ?_⟩
  refine nodup_range.imp fun {i j} hne v hi hj => ?_
  obtain ⟨hi, hi'⟩ : start + 768 * i + 256 ≤ v ∧ v < start + 768 * i + 256 + 512 :=
    mem_range'_1.mp hi
  obtain ⟨hj, hj'⟩ : start + 768 * j + 256 ≤ v ∧ v < start + 768 * j + 256 + 512 :=
    mem_range'_1.mp hj
  have h1 := hi.trans_lt hj'
  have h2 := hj.trans_lt hi'
  omega

omit hin in
theorem wf_writes (hstart : 0 < start) (hlen : g.output.length = 256) :
    ∀ w ∈ g.writes (F := F) (nbBlocks g.input) start, w.Wf := by
  have hone (m k : ℕ) : ONE ∉ List.range' (start + m) k := fun h => by
    obtain ⟨hle, -⟩ : start + m ≤ 0 ∧ _ := mem_range'_1.mp h
    omega
  simp only [writes, forall_mem_cons, forall_mem_flatMap, mem_range]
  refine ⟨⟨nodup_flatMap_blockAt _ _, fun h => ?_, fun σ => ?_⟩,
    ⟨nodup_range', hone _ _, fun σ => ?_⟩, fun i hi => ?_⟩
  · obtain ⟨i, -, hv⟩ := mem_flatMap.mp h
    rw [blockAt, Nat.add_assoc] at hv
    exact hone _ _ hv
  · rw [blocksWrite, length_flatMap, length_flatMap]
    refine congrArg List.sum (map_congr_left fun i hi => ?_)
    have hi := mem_range.mp hi
    rw [length_take, length_drop, length_paddedInput, blockAt, length_range', blockSize]
    omega
  · rw [constWrite, length_map, length_hBits, hAt, length_range']
  · refine (laidOut_compAt _ _ _ i).wf_writes (by rw [compStart]; omega) ?_ ?_ ?_ ?_ _ _
    · rw [compAt_h, hAt, length_range']
    · rw [compAt_output, outputAt]
      split_ifs
      · exact nodup_range'
      · exact hout.nodup
    · rw [compAt_output, outputAt]
      split_ifs
      · exact hone _ _
      · exact hout.one_notMem
    · rw [compAt_output, outputAt]
      split_ifs
      · exact length_range'
      · exact hlen

theorem inOrder_writes (hstart : 0 < start) (hlen : g.output.length = 256)
    (hpos : 0 < nbBlocks g.input) :
    InOrder (g.writes (F := F) (nbBlocks g.input) start) :=
  (ranked_writes hout hin hpos).inOrder (wf_writes hout hstart hlen)

/-- The input keeps its values. -/
theorem runWrites_input (hpos : 0 < n) (σ : Assignment F) {v : Var} (hv : v ∈ g.input) :
    runWrites (g.writes n start) σ v = σ v := by
  refine runWrites_of_notMem (fun w hw hmem => ?_) σ
  have hle := (ranked_writes hout hin hpos).le_of_mem_target w hw v hmem
  obtain ⟨hlt, hnotMem⟩ := hin v hv
  rw [hashRank, if_pos hlt, if_neg hnotMem] at hle
  omega

end Order

/-! ### Blocks of the message -/

section Message

/-- Parts of one length, put together again. -/
theorem flatMap_take_drop {α : Type} (xs : List α) (c n : ℕ) :
    ((List.range n).flatMap fun i => (xs.drop (c * i)).take c) = xs.take (c * n) := by
  induction n with
  | zero => rw [Nat.mul_zero, take_zero]; rfl
  | succ n ih =>
    rw [range_succ, flatMap_append, flatMap_singleton, ih, Nat.mul_succ, take_add]

/-- The message, padded with zeroes to `n` blocks. -/
def padded (message : Bytes) (n : ℕ) : Bytes := message ++ List.replicate (64 * n - message.length) 0

theorem getD_take_drop (l : Bytes) (a : ℕ) {k : ℕ} (hk : k < 64) :
    ((l.drop a).take 64).getD k 0 = l.getD (a + k) 0 := by
  rw [getD_eq_getElem?_getD, getD_eq_getElem?_getD, List.getElem?_take_of_lt hk,
    List.getElem?_drop]

theorem getD_padded (message : Bytes) (n k : ℕ) :
    (padded message n).getD k 0 = message.getD k 0 := by
  rw [padded]
  by_cases hk : k < message.length
  · rw [getD_append _ _ _ _ hk]
  · rw [getD_append_right _ _ _ _ (by omega), getD_eq_default message _ (by omega),
      getD_eq_getElem?_getD, List.getElem?_replicate]
    split_ifs <;> rfl

theorem messageWords_padded (message : Bytes) (n i : ℕ) :
    Blake2s.messageWords (((padded message n).drop (64 * i)).take 64) =
      Blake2s.messageWords ((message.drop (64 * i)).take 64) := by
  refine congrArg Vector.ofFn (funext fun j => ?_)
  have hj := j.isLt
  simp only [Blake2s.wordAt]
  rw [getD_take_drop _ _ (by omega), getD_take_drop _ _ (by omega), getD_take_drop _ _ (by omega),
    getD_take_drop _ _ (by omega), getD_padded, getD_padded, getD_padded, getD_padded,
    getD_take_drop _ _ (by omega), getD_take_drop _ _ (by omega), getD_take_drop _ _ (by omega),
    getD_take_drop _ _ (by omega)]

end Message

section Values

variable {g : Blake2s256} {start : ℕ} {message : Bytes} {σ : Assignment F}

omit [DecidableEq F]

theorem length_input (h : Carries σ g.input (toBits message)) :
    g.input.length = 8 * message.length := by
  rw [h.length_eq, length_toBits]

theorem nbBlocks_eq (h : Carries σ g.input (toBits message)) :
    nbBlocks g.input = (message.length + 63) / 64 := by
  rw [nbBlocks, length_input h, blockSize]
  omega

theorem paddedInput_eq (h : Carries σ g.input (toBits message)) :
    g.paddedInput σ = (toBits (padded message (nbBlocks g.input))).map ofBool := by
  have hblocks := nbBlocks_eq h
  have hlen := length_input h
  rw [paddedInput, h, padded, toBits_append, toBits_replicate_zero, map_append,
    map_replicate, hlen, blockSize]
  refine congrArg _ ?_
  split_ifs with hpad
  · refine congrArg₂ List.replicate ?_ rfl
    omega
  · rw [show 8 * (64 * nbBlocks g.input - message.length) = 0 by omega]
    rfl

/-- The blocks carry the message. -/
theorem carries_blockAt (h : Carries σ g.input (toBits message))
    (hholds : (g.blocksWrite (nbBlocks g.input) start).Holds σ) {i : ℕ} (hi : i < nbBlocks g.input) :
    Carries σ (blockAt start i)
      (toBits (((padded message (nbBlocks g.input)).drop (64 * i)).take 64)) := by
  have hholds : ((List.range (nbBlocks g.input)).flatMap (blockAt start)).map σ =
    (List.range (nbBlocks g.input)).flatMap fun i =>
      ((g.paddedInput σ).drop (blockSize * i)).take blockSize := hholds
  rw [flatMap_take_drop, ← length_paddedInput g σ, take_length, map_flatMap] at hholds
  have hpart := take_drop_flatMap_of_length (c := 512) (f := fun i => (blockAt start i).map σ)
    (fun i => by rw [length_map, blockAt, length_range']) (List.range (nbBlocks g.input))
    (i := i) (by rwa [length_range])
  rw [hholds, getElem_range, paddedInput_eq h] at hpart
  rw [Carries, ← hpart, ← map_drop, ← map_take, toBits_eq, toBits_eq,
    show 512 * i = 8 * (64 * i) by ring, show 512 = 8 * 64 by rfl,
    drop_flatMap_of_length length_wordBits, take_flatMap_of_length length_wordBits]

end Values

section Digest

variable {g : Blake2s256} {start : ℕ} {message : Bytes} {σ : Assignment F}
  (hinput : Carries σ g.input (toBits message))
  (hholds : ∀ w ∈ g.writes (nbBlocks g.input) start, w.Holds σ)

include hinput hholds

/-- Compression gadget `i`, once its chaining value is that of the specification. -/
theorem compress_at (L : Gadgetlib F) {i : ℕ} (hi : i < nbBlocks g.input)
    (hchain : Carries σ (hAt start i) ((Blake2s.chain message i).toList.flatMap wordBits))
    (ensureOutputBitness : Bool) :
    Satisfies σ ((compAt start (nbBlocks g.input) g.output i).constraints L ensureOutputBitness) ∧
      Carries σ (outputAt start (nbBlocks g.input) g.output i)
        (Blake2s256Comp.outputBits (isLastAt (nbBlocks g.input) i)
          (Blake2s.compress (Blake2s.chain message i)
            (Blake2s.messageWords ((message.drop (64 * i)).take 64))
            (if i + 1 = nbBlocks g.input then message.length else 64 * (i + 1))
            (isLastAt (nbBlocks g.input) i))) := by
  have hblocks := nbBlocks_eq hinput
  simp only [writes, forall_mem_cons, forall_mem_flatMap, mem_range] at hholds
  obtain ⟨hblock, -, hcomps⟩ := hholds
  have hbytes : (((padded message (nbBlocks g.input)).drop (64 * i)).take 64).length = 64 := by
    rw [length_take, length_drop, padded, length_append, length_replicate]
    omega
  have hlength : (g.lengthAt (nbBlocks g.input) i).toNat =
      (if i + 1 = nbBlocks g.input then message.length else 64 * (i + 1)) % 2 ^ 64 := by
    rw [lengthAt, byteLength, BitVec.toNat_ofNat, length_input hinput, blockSize]
    refine congrArg (· % 2 ^ 64) ?_
    split_ifs <;> omega
  have hcarries := carries_blockAt hinput hblock hi
  rw [← compAt_h start (nbBlocks g.input) g.output] at hchain
  rw [← compAt_inputBlock start (nbBlocks g.input) g.output] at hcarries
  have hcompress := (laidOut_compAt start (nbBlocks g.input) g.output i).carries_compress L
    (hcomps i hi) hbytes hcarries hchain ensureOutputBitness
  rwa [compAt_output, messageWords_padded, hlength, Blake2s.compress_mod] at hcompress

/-- The chaining values are those of the specification. -/
theorem carries_hAt {i : ℕ} (hi : i < nbBlocks g.input) :
    Carries σ (hAt start i) ((Blake2s.chain message i).toList.flatMap wordBits) := by
  induction i with
  | zero =>
    simp only [writes, forall_mem_cons] at hholds
    have hfirst : (hAt start 0).map σ = hBits.map ofBool := hholds.2.1
    rw [Carries, hfirst, hBits_eq, Blake2s.chain]
  | succ i ih =>
    have hnot : ¬ i + 1 = nbBlocks g.input := hi.ne
    obtain ⟨-, hout⟩ := compress_at hinput hholds Gadgetlib.standard (Nat.lt_of_succ_lt hi)
      (ih (Nat.lt_of_succ_lt hi)) false
    rw [outputAt, if_pos hi, isLastAt, decide_eq_false hnot, if_neg hnot,
      Blake2s256Comp.outputBits] at hout
    exact hout

/-- The rows hold and the output carries the digest. -/
theorem satisfies_and_carries_hash (L : Gadgetlib F) (hmessage : message ≠ [])
    (hcomps : g.blake2sCVector =
      (List.range (nbBlocks g.input)).map (compAt start (nbBlocks g.input) g.output))
    (ensureOutputBitness : Bool) :
    Satisfies σ (g.constraints L ensureOutputBitness) ∧
      Carries σ g.output (toBits (Blake2s.hash message)) := by
  have hblocks := nbBlocks_eq hinput
  have hlen := length_pos_iff.mpr hmessage
  have hcompress {i : ℕ} (hi : i < nbBlocks g.input) :=
    compress_at hinput hholds L hi (carries_hAt hinput hholds hi) ensureOutputBitness
  constructor
  · rw [constraints, hcomps]
    refine satisfies_flatMap.mpr fun c hc => ?_
    obtain ⟨i, hi, rfl⟩ := mem_map.mp hc
    exact (hcompress (mem_range.mp hi)).1
  · obtain ⟨m, hm⟩ : ∃ m, nbBlocks g.input = m + 1 := ⟨nbBlocks g.input - 1, by omega⟩
    have hnum : Blake2s.numBlocks message - 1 = m := by
      rw [Blake2s.numBlocks]
      omega
    obtain ⟨-, hout⟩ := hcompress (i := m) (by omega)
    rw [outputAt, hm, if_neg (lt_irrefl _), isLastAt, decide_eq_true rfl, if_pos rfl,
      Blake2s256Comp.outputBits] at hout
    rw [Blake2s.hash, hnum]
    exact hout

end Digest

/-! ### The digest -/

/-- The witness generator succeeds, with an assignment that satisfies the rows and carries the
digest. -/
theorem exists_witness (L : Gadgetlib F) {message : Bytes} (hmessage : message ≠ []) {start : ℕ}
    (hstart : 0 < start) {input output : List Var} (hout : Allocated start output)
    (hlen : output.length = digestSize) (hin : ∀ v ∈ input, v < start ∧ v ∉ output)
    {σ : Assignment F} (hinput : Carries σ input (toBits message)) (ensureOutputBitness : Bool) :
    ∃ τ : Assignment F, (new input output start).1.witness σ = .ok τ ∧
      Satisfies τ ((new input output start).1.constraints L ensureOutputBitness) ∧
      Carries τ output (toBits (Blake2s.hash message)) := by
  obtain ⟨hnewInput, hnewOutput, hg⟩ := laidOut_new input output start
  generalize (new input output start).1 = g at hnewInput hnewOutput hg ⊢
  subst hnewInput hnewOutput
  have hblocks : 0 < nbBlocks g.input := by
    have hmessage := length_pos_iff.mpr hmessage
    rw [nbBlocks_eq hinput]
    omega
  have hinOrder := inOrder_writes (F := F) hout hin hstart hlen hblocks
  have hcarries : Carries (runWrites (g.writes (nbBlocks g.input) start) σ) g.input
      (toBits message) := by
    rw [Carries, map_congr_left fun v hv => runWrites_input hout hin hblocks σ hv]
    exact hinput
  exact ⟨_, witness_eq_ok hg hblocks hinOrder.fresh σ,
    satisfies_and_carries_hash hcarries (hinOrder.holds σ) L hmessage hg.comps ensureOutputBitness⟩

theorem hasher_apply (size : ℕ) :
    (hasher size 1).1 = (List.range' 1 size, List.range' (1 + size) digestSize,
      (new (List.range' 1 size) (List.range' (1 + size) digestSize) (1 + size + digestSize)).1) := by
  rw [hasher, Alloc.bind_apply, Alloc.bind_apply, Alloc.bind_apply, Alloc.pure_apply]
  rfl

/-- **Completeness of the BLAKE2s gadget.** For every message of at least one byte, over every field
and wherever the wires lie, the witness generator succeeds, its assignment satisfies all rows and the
output carries the digest; and `get_hash` is BLAKE2s-256. -/
theorem witness_and_getHash (L : Gadgetlib F) {message : Bytes} (hmessage : message ≠ []) :
    (∀ {start : ℕ} {input output : List Var} {σ : Assignment F} (ensureOutputBitness : Bool),
      0 < start → Allocated start output → output.length = digestSize →
      (∀ v ∈ input, v < start ∧ v ∉ output) → Carries σ input (toBits message) →
      ∃ τ : Assignment F, (new input output start).1.witness σ = .ok τ ∧
        Satisfies τ ((new input output start).1.constraints L ensureOutputBitness) ∧
        Carries τ output (toBits (Blake2s.hash message))) ∧
    getHash F (toBits message) = .ok (toBits (Blake2s.hash message)) := by
  refine ⟨fun ensureOutputBitness hstart hout hlen hin hinput =>
    exists_witness L hmessage hstart hout hlen hin hinput ensureOutputBitness, ?_⟩
  have hinput : Carries ((Assignment.blank : Assignment F).fill
      (List.range' 1 (toBits message).length) ((toBits message).map ofBool))
      (List.range' 1 (toBits message).length) (toBits message) := by
    refine Assignment.map_fill _ _ _ nodup_range' (fun h => ?_) (by simp)
    exact absurd (mem_range'_1.mp h).1 (by decide)
  have houtput : Allocated (1 + (toBits message).length + digestSize)
      (List.range' (1 + (toBits message).length) digestSize) :=
    ⟨nodup_range', fun v hv => Nat.lt_of_lt_of_le (by omega) (mem_range'_1.mp hv).1,
      fun v hv => (mem_range'_1.mp hv).2⟩
  have hdisjoint : ∀ v ∈ List.range' 1 (toBits message).length,
      v < 1 + (toBits message).length + digestSize ∧
        v ∉ List.range' (1 + (toBits message).length) digestSize := by
    intro v hv
    have hlt := (mem_range'_1.mp hv).2
    exact ⟨hlt.trans_le (Nat.le_add_right _ _), fun hmem =>
      absurd (mem_range'_1.mp hmem).1 (not_le.mpr hlt)⟩
  obtain ⟨τ, hτ, -, hout⟩ := exists_witness L hmessage (by omega) houtput length_range'
    hdisjoint hinput true
  simp only [getHash, hasher_apply, hτ, Except.ok_bind]
  exact congrArg Except.ok ((carries_bitsOf hout.isBool).injective hout)

theorem getHash_abc : ([0x61, 0x62, 0x63] : Bytes) ≠ [] ∧
    getHash SampleField (toBits [0x61, 0x62, 0x63]) =
      .ok (toBits (Blake2s.hash [0x61, 0x62, 0x63])) :=
  ⟨cons_ne_nil _ _, (witness_and_getHash Gadgetlib.standard (cons_ne_nil _ _)).2⟩

end Blake2s256

end Zeth.Circuit
