import Mathlib.Data.List.Induction
import Zeth.Circuit.Note

/-!
# The joinsplit gadget

`joinsplit_gadget` is the statement proved by a transaction of the mixer: it spends input notes
and a public value, and creates output notes and another public value. The nullifiers, the
signature hash `h_sig` and the tags `h_i` are too long for one field element; each is packed into
one element and the bits that are left over are packed, after the two public values, into residual
elements.

The balance is a field equation between numbers of bit strings. It is a balance of natural numbers
because every value bit is boolean and the field is large: the bits of the notes are checked by the
note gadgets, those of the public values only by the packer of the residual elements, those of the
total by rows of the joinsplit itself.

## Main definitions

* `Zeth.Circuit.JoinsplitGadget`: the wires, the constructor and the rows.

## Main results

* `Zeth.Circuit.JoinsplitGadget.conserves_value`: value is conserved over the naturals and the
  total is below `2 ^ 64`.
-/

namespace Zeth.Circuit

open R1CS List

variable {F : Type} [Field F]

/-- `ZETH_PHI_SIZE` -/
abbrev zethPhiSize : ℕ := 256

/-- `ZETH_HSIG_SIZE` -/
abbrev zethHsigSize : ℕ := 256

/-- `ZETH_A_SK_SIZE` -/
abbrev zethASkSize : ℕ := 256

/-! ### Wires -/

/-- `joinsplit_gadget` -/
structure JoinsplitGadget (depth numInputs numOutputs : ℕ) where
  merkleRoot : Var
  outputCommitments : List.Vector Var numOutputs
  packedNullifiers : List.Vector (List Var) numInputs
  packedHSig : List Var
  packedHIs : List.Vector (List Var) numInputs
  packedResidual : List Var
  ZERO : Var
  phi : List.Vector Var zethPhiSize
  hSig : List.Vector Var zethHsigSize
  inputNullifiers : List.Vector (List Var) numInputs
  aSks : List.Vector (List.Vector Var zethASkSize) numInputs
  hIs : List.Vector (List Var) numInputs
  rhoIs : List.Vector (List Var) numOutputs
  zkVpubIn : List.Vector Var zethVSize
  zkVpubOut : List.Vector Var zethVSize
  zkTotalUint64 : List.Vector Var zethVSize
  inputNotes : List.Vector (InputNoteGadget depth) numInputs
  hIGadgets : List.Vector Hasher numInputs
  rhoIGadgets : List.Vector Hasher numOutputs
  outputNotes : List.Vector OutputNoteGadget numOutputs

namespace JoinsplitGadget

variable {depth numInputs numOutputs : ℕ} (L : Gadgetlib F) (H : HashGadget F)
  (T : TreeHashGadget F) (capacity : ℕ)

/-- `digest_len_minus_field_cap`, a subtraction clamped at zero. -/
def digestLenMinusFieldCap : ℕ := H.digestLen - capacity

/-- `length_bit_residual` -/
def lengthBitResidual (numInputs : ℕ) : ℕ :=
  2 * zethVSize + digestLenMinusFieldCap H capacity * (1 + 2 * numInputs)

/-- `nb_field_residual`: the quotient rounded up. -/
def nbFieldResidual (numInputs : ℕ) : ℕ :=
  (lengthBitResidual H capacity numInputs + capacity - 1) / capacity

/-- An array of bits of a digest. -/
def allocateDigest (n : ℕ) : Alloc (List Var) := do
  let bits ← allocateArray n
  return bits.toList

variable (depth numInputs numOutputs) in
/-- The constructor: the public elements are allocated first, in the order root, commitments,
nullifiers, `h_sig`, tags, residual elements. -/
def new : Alloc (JoinsplitGadget depth numInputs numOutputs) := do
  let merkleRoot ← allocate
  let outputCommitments ← allocateArray numOutputs
  let packedNullifiers ← Alloc.forEach numInputs fun _ => allocateDigest 1
  let packedHSig ← allocateDigest 1
  let packedHIs ← Alloc.forEach numInputs fun _ => allocateDigest 1
  let packedResidual ← allocateDigest (nbFieldResidual H capacity numInputs)
  let ZERO ← allocate
  let phi ← allocateArray zethPhiSize
  let hSig ← allocateArray zethHsigSize
  let digests ← Alloc.forEach numInputs fun _ => do
    let nullifier ← allocateDigest H.digestLen
    let aSk ← allocateArray zethASkSize
    let hI ← allocateDigest H.digestLen
    return (nullifier, aSk, hI)
  let rhoIs ← Alloc.forEach numOutputs fun _ => allocateDigest H.digestLen
  let zkVpubIn ← allocateArray zethVSize
  let zkVpubOut ← allocateArray zethVSize
  let zkTotalUint64 ← allocateArray zethVSize
  let inputs ← Alloc.forEach numInputs fun i => do
    let (nullifier, aSk, hI) := digests.get i
    let note ← InputNoteGadget.new depth H T ZERO aSk.toList nullifier merkleRoot
    let tag ← PrfGadget.pk H ZERO aSk.toList hSig.toList i hI
    return (note, tag)
  let outputs ← Alloc.forEach numOutputs fun i => do
    let rhoGadget ← PrfGadget.rho H ZERO phi.toList hSig.toList i (rhoIs.get i)
    let note ← OutputNoteGadget.new H (rhoIs.get i) (outputCommitments.get i)
    return (rhoGadget, note)
  return {
    merkleRoot, outputCommitments, packedNullifiers, packedHSig, packedHIs, packedResidual, ZERO,
    phi, hSig, rhoIs, zkVpubIn, zkVpubOut, zkTotalUint64
    inputNullifiers := digests.map fun d => d.1
    aSks := digests.map fun d => d.2.1
    hIs := digests.map fun d => d.2.2
    inputNotes := inputs.map Prod.fst
    hIGadgets := inputs.map Prod.snd
    rhoIGadgets := outputs.map Prod.fst
    outputNotes := outputs.map Prod.snd }

/-! ### Packing of the public data -/

/-- `digest_variable_assign_to_field_element_and_residual`, the element: the low-order bits that
fit, least significant first. -/
def elementBits (digest : List Var) : List Var := digest.reverse.take capacity

/-- `digest_variable_assign_to_field_element_and_residual`, the rest. -/
def residualBits (digest : List Var) : List Var := digest.reverse.drop capacity

variable (g : JoinsplitGadget depth numInputs numOutputs)

/-- The bits of the residual elements, least significant first: `vpub_out`, `vpub_in` and what is
left of the tags, the nullifiers and `h_sig`. -/
def residual : List Var :=
  g.zkVpubOut.toList.reverse ++ g.zkVpubIn.toList.reverse ++
    g.hIs.toList.flatMap (residualBits capacity) ++
    g.inputNullifiers.toList.flatMap (residualBits capacity) ++
    residualBits capacity g.hSig.toList

/-- The packers: bits and packed elements. -/
def packers : List (List Var × List Var) :=
  (g.inputNullifiers.toList.map (elementBits capacity)).zip g.packedNullifiers.toList ++
    [(elementBits capacity g.hSig.toList, g.packedHSig)] ++
    (g.hIs.toList.map (elementBits capacity)).zip g.packedHIs.toList ++
    [(g.residual capacity, g.packedResidual)]

/-! ### Rows -/

/-- The sum of a public value and the values of some notes. -/
def side (vpub : List Var) (notes : List NoteGadget) : LinearCombination F :=
  notes.foldl (fun acc note => acc + L.packedAddition note.value.toList) (L.packedAddition vpub)

/-- `left_side` of the balance. -/
def leftSide : LinearCombination F :=
  side L g.zkVpubIn.toList (g.inputNotes.toList.map InputNoteGadget.toNoteGadget)

/-- `right_side` of the balance. -/
def rightSide : LinearCombination F :=
  side L g.zkVpubOut.toList (g.outputNotes.toList.map OutputNoteGadget.toNoteGadget)

/-- The two sides are equal, and the left one is a number of 64 bits. -/
def balanceConstraints : List (Constraint F) :=
  [⟨.const 1, g.leftSide L, g.rightSide L⟩] ++ L.booleans g.zkTotalUint64.toList ++
    [⟨.const 1, g.leftSide L, L.packedAddition g.zkTotalUint64.toList⟩]

def constraints [NeZero depth] : List (Constraint F) :=
  ((g.packers capacity).flatMap fun t => L.multipacking t.1 t.2 capacity true) ++
    L.digest g.phi.toList ++ (g.aSks.toList.flatMap fun aSk => L.digest aSk.toList) ++
    [L.equalsConst g.ZERO 0] ++
    ((g.inputNotes.toList.zip g.hIGadgets.toList).flatMap fun t =>
      t.1.constraints L H T ++ PrfGadget.constraints H t.2) ++
    ((g.rhoIGadgets.toList.zip g.outputNotes.toList).flatMap fun t =>
      PrfGadget.constraints H t.1 ++ t.2.constraints L H) ++
    g.balanceConstraints L

/-! ### Conservation of value -/

section Balance

variable {L H T capacity g} {σ : Assignment F}

/-- Two arrays of one size are paired index by index. -/
private theorem get_mem_zip {α β : Type} {n : ℕ} (l : List.Vector α n) (m : List.Vector β n)
    (i : Fin n) : (l.get i, m.get i) ∈ l.toList.zip m.toList := by
  rw [mem_iff_getElem]
  refine ⟨i, by simp, ?_⟩
  rw [getElem_zip, List.Vector.get_eq_get_toList, List.Vector.get_eq_get_toList]
  rfl

/-- The bits of the public values are checked by the packer of the residual elements. -/
theorem vpub_isBool [NeZero depth] (h : Satisfies σ (g.constraints L H T capacity)) :
    (∀ v ∈ g.zkVpubIn.toList, IsBool (σ v)) ∧ ∀ v ∈ g.zkVpubOut.toList, IsBool (σ v) := by
  simp only [constraints, satisfies_append, satisfies_flatMap] at h
  have hresidual := h.1.1.1.1.1.1 (g.residual capacity, g.packedResidual)
    (mem_append_right _ (mem_singleton_self _))
  have hbits := L.multipacking_isBool σ _ _ _ hresidual
  constructor
  · intro v hv
    exact hbits v (by simp [residual, hv])
  · intro v hv
    exact hbits v (by simp [residual, hv])

/-- The value bits of the input notes are checked by the note gadgets. -/
theorem inputNotes_isBool [NeZero depth] (h : Satisfies σ (g.constraints L H T capacity)) :
    ∀ note ∈ g.inputNotes.toList.map InputNoteGadget.toNoteGadget,
      ∀ v ∈ note.value.toList, IsBool (σ v) := by
  intro note hnote
  obtain ⟨input, hinput, rfl⟩ := mem_map.mp hnote
  obtain ⟨i, rfl⟩ := (List.Vector.mem_iff_get input g.inputNotes).mp hinput
  simp only [constraints, satisfies_append, satisfies_flatMap] at h
  obtain ⟨hrows, -⟩ := h.1.1.2 _ (get_mem_zip g.inputNotes g.hIGadgets i)
  exact (InputNoteGadget.membership_of_satisfies hrows).1

/-- The value bits of the output notes are checked by the note gadgets. -/
theorem outputNotes_isBool [NeZero depth] (h : Satisfies σ (g.constraints L H T capacity)) :
    ∀ note ∈ g.outputNotes.toList.map OutputNoteGadget.toNoteGadget,
      ∀ v ∈ note.value.toList, IsBool (σ v) := by
  intro note hnote
  obtain ⟨output, houtput, rfl⟩ := mem_map.mp hnote
  obtain ⟨i, rfl⟩ := (List.Vector.mem_iff_get output g.outputNotes).mp houtput
  simp only [constraints, satisfies_append, satisfies_flatMap] at h
  obtain ⟨-, hrows⟩ := h.1.2 _ (get_mem_zip g.rhoIGadgets g.outputNotes i)
  exact OutputNoteGadget.value_isBool hrows

variable [DecidableEq F]

/-- A public value together with the values of some notes. -/
def total (σ : Assignment F) (vpub : List Var) (notes : List NoteGadget) : ℕ :=
  numberOf σ vpub + (notes.map fun note => numberOf σ note.value.toList).sum

theorem eval_side {vpub : List Var} (hvpub : ∀ v ∈ vpub, IsBool (σ v)) (notes : List NoteGadget)
    (hnotes : ∀ note ∈ notes, ∀ v ∈ note.value.toList, IsBool (σ v)) :
    (side L vpub notes).eval σ = (total σ vpub notes : F) := by
  induction notes using List.reverseRecOn with
  | nil => simp [side, total, L.eval_packedAddition_numberOf hvpub]
  | append_singleton notes note ih =>
    have hinit := ih fun n hn => hnotes n (mem_append_left _ hn)
    have hlast := L.eval_packedAddition_numberOf
      (hnotes note (mem_append_right _ (mem_singleton_self note)))
    rw [side, foldl_append, foldl_cons, foldl_nil, LinearCombination.eval_add,
      hlast]
    rw [side] at hinit
    rw [hinit, total, total, map_append, sum_append, map_singleton,
      sum_singleton, ← add_assoc]
    push_cast
    rfl

theorem total_lt (vpub : List.Vector Var zethVSize) (notes : List NoteGadget) :
    total σ vpub.toList notes < 2 ^ 64 * (1 + notes.length) := by
  have hvpub : numberOf σ vpub.toList < 2 ^ 64 := by
    have h := numberOf_lt (σ := σ) vpub.toList
    rwa [List.Vector.toList_length] at h
  induction notes with
  | nil => simpa [total] using hvpub
  | cons note notes ih =>
    have hnote : numberOf σ note.value.toList < 2 ^ 64 := by
      have h := numberOf_lt (σ := σ) note.value.toList
      rwa [List.Vector.toList_length] at h
    rw [total] at ih ⊢
    rw [map_cons, sum_cons, length_cons]
    omega

/-- The balance rows are equations between natural numbers below the characteristic. -/
theorem balance {p : ℕ} [CharP F p] [NeZero depth]
    (hp : 2 ^ 64 * (2 + numInputs + numOutputs) < p)
    (h : Satisfies σ (g.constraints L H T capacity)) :
    let input := total σ g.zkVpubIn.toList (g.inputNotes.toList.map InputNoteGadget.toNoteGadget)
    input = total σ g.zkVpubOut.toList
      (g.outputNotes.toList.map OutputNoteGadget.toNoteGadget) ∧ input < 2 ^ 64 := by
  intro input
  set inputs := g.inputNotes.toList.map InputNoteGadget.toNoteGadget with hinputs
  set outputs := g.outputNotes.toList.map OutputNoteGadget.toNoteGadget with houtputs
  set output := total σ g.zkVpubOut.toList outputs
  obtain ⟨hin, hout⟩ := vpub_isBool h
  have hleft : (g.leftSide L).eval σ = (input : F) := eval_side hin _ (inputNotes_isBool h)
  have hright : (g.rightSide L).eval σ = (output : F) := eval_side hout _ (outputNotes_isBool h)
  have hinput : input < p := by
    have hlt := total_lt (σ := σ) g.zkVpubIn inputs
    rw [hinputs, length_map, List.Vector.toList_length] at hlt
    exact hlt.trans_le ((Nat.mul_le_mul_left _ (by omega)).trans hp.le)
  have houtput : output < p := by
    have hlt := total_lt (σ := σ) g.zkVpubOut outputs
    rw [houtputs, length_map, List.Vector.toList_length] at hlt
    exact hlt.trans_le ((Nat.mul_le_mul_left _ (by omega)).trans hp.le)
  have hbalance := (satisfies_append.mp h).2
  simp only [balanceConstraints, satisfies_append, satisfies_cons, satisfies_nil, and_true,
    L.satisfies_booleans, Constraint.Holds, LinearCombination.eval_const, one_mul] at hbalance
  obtain ⟨⟨hsides, hbits⟩, htotal⟩ := hbalance
  rw [hleft, hright] at hsides
  rw [hleft, L.eval_packedAddition_numberOf hbits] at htotal
  -- The number of the total is below `2 ^ 64`, hence below the characteristic.
  have hlt : numberOf σ g.zkTotalUint64.toList < 2 ^ 64 := by
    have hlt := numberOf_lt (σ := σ) g.zkTotalUint64.toList
    rwa [List.Vector.toList_length] at hlt
  have hltp : numberOf σ g.zkTotalUint64.toList < p :=
    hlt.trans_le ((Nat.le_mul_of_pos_right _ (by omega)).trans hp.le)
  refine ⟨natCast_inj_of_lt p hinput houtput hsides, ?_⟩
  rw [natCast_inj_of_lt p hinput hltp htotal]
  exact hlt

end Balance

/-- Value is conserved over the naturals and the total is below `2 ^ 64`. -/
theorem conserves_value {p : ℕ} [Fact p.Prime] [NeZero depth]
    (hp : 2 ^ 64 * (2 + numInputs + numOutputs) < p) (L : Gadgetlib (ZMod p))
    (H : HashGadget (ZMod p)) (T : TreeHashGadget (ZMod p)) (capacity start : ℕ)
    (σ : Assignment (ZMod p)) :
    let g := (new depth numInputs numOutputs H T capacity start).1
    Satisfies σ (g.constraints L H T capacity) →
      numberOf σ g.zkVpubIn.toList +
          (g.inputNotes.toList.map fun note => numberOf σ note.value.toList).sum =
        numberOf σ g.zkVpubOut.toList +
          (g.outputNotes.toList.map fun note => numberOf σ note.value.toList).sum ∧
      numberOf σ g.zkVpubIn.toList +
          (g.inputNotes.toList.map fun note => numberOf σ note.value.toList).sum < 2 ^ 64 := by
  intro g h
  have hbalance := balance hp h
  simp only [total, map_map] at hbalance
  exact hbalance

/-- A note of one unit is spent to create another: the last bits of the total and of the two values
are wires `968`, `1032` and `1679`. The spent note is on the wires from `969`, the root is wire `1`
and every public value and packed element is zero. -/
def oneUnitTransfer : Assignment SampleField where
  val v := if v ∈ [0, 968, 1032, 1545, 1612, 1679] then 1 else
    if v ∈ [1, 1547, 1613, 1614] then 5 else 0
  val_ONE := rfl

private theorem oneUnitTransfer_isBool {v : ℕ} (hv : v ∉ [1, 1547, 1613, 1614]) :
    IsBool (oneUnitTransfer v) := by
  change IsBool (if v ∈ [0, 968, 1032, 1545, 1612, 1679] then 1 else
    if v ∈ [1, 1547, 1613, 1614] then 5 else 0)
  rw [if_neg hv]
  split_ifs
  · exact Or.inr rfl
  · exact Or.inl rfl

private theorem oneUnitTransfer_isBool_of_mem {n k v : ℕ} (h : 1 < n ∧ n + k ≤ 1547 ∨ 1614 < n)
    (hv : v ∈ List.range' n k) : IsBool (oneUnitTransfer v) := by
  have hbounds := mem_range'_1.mp hv
  refine oneUnitTransfer_isBool ?_
  simp only [mem_cons, not_mem_nil, or_false]
  omega

private theorem oneUnitTransfer_eq_zero {v : ℕ}
    (hv : v ∉ [0, 968, 1032, 1545, 1612, 1679] ++ [1, 1547, 1613, 1614]) :
    oneUnitTransfer v = 0 :=
  (if_neg fun h => hv (mem_append_left _ h)).trans
    (if_neg fun h => hv (mem_append_right _ h))

/-- Between the root and the total every wire is zero. -/
private theorem oneUnitTransfer_public {v : ℕ} (h : 1 < v ∧ v < 968) : oneUnitTransfer v = 0 := by
  refine oneUnitTransfer_eq_zero ?_
  simp only [mem_append, mem_cons, not_mem_nil, or_false]
  omega

private theorem transfer_packs {vs ps : List ℕ} (hvs : ∀ v ∈ vs, 1 < v ∧ v < 968)
    (hps : ∀ v ∈ ps, 1 < v ∧ v < 968) :
    Satisfies oneUnitTransfer (Gadgetlib.standard.multipacking vs ps 88 true) := by
  refine Gadgetlib.standard_multipacking_satisfies (fun v hv => ?_) fun t ht => ?_
  · exact Or.inl (oneUnitTransfer_public (hvs v hv))
  · rw [oneUnitTransfer_public (hps t.1 (fst_mem_of_mem_zipIdx ht))]
    refine (littleEndian_eq_zero fun x hx => ?_).symm
    obtain ⟨v, hv, rfl⟩ := mem_map.mp hx
    exact oneUnitTransfer_public (hvs v (mem_of_mem_drop (mem_of_mem_take hv)))

/-- Everything that is packed stands between the root and the total. -/
private theorem transfer_packers {t : List Var × List Var}
    (ht : t ∈ (new 1 1 1 (HashGadget.copyLast (F := SampleField) 0)
      (TreeHashGadget.sum (F := SampleField)) 88 1).1.packers 88) :
    ∀ v ∈ t.1 ++ t.2, 1 < v ∧ v < 968 := by
  have hrange : ∀ n k v : ℕ, 1 < n ∧ n + k ≤ 968 → v ∈ (List.range' n k).reverse →
      1 < v ∧ v < 968 := by
    intro n k v hn hv
    have hbounds := mem_range'_1.mp (mem_reverse.mp hv)
    omega
  have hpackers : t ∈ [([], [3]), (elementBits 88 (List.range' 265 256), [4]), ([], [5]),
      ((List.range' 841 64).reverse ++ (List.range' 777 64).reverse ++
        residualBits 88 (List.range' 265 256), [6, 7])] := ht
  simp only [mem_cons, not_mem_nil, or_false] at hpackers
  intro v hv
  rcases hpackers with rfl | rfl | rfl | rfl <;> rcases mem_append.mp hv with hv | hv
  · cases hv
  · exact hrange 3 1 v (by norm_num) hv
  · exact hrange 265 256 v (by norm_num) (mem_of_mem_take hv)
  · exact hrange 4 1 v (by norm_num) hv
  · cases hv
  · exact hrange 5 1 v (by norm_num) hv
  · rcases mem_append.mp hv with hv | hv
    · rcases mem_append.mp hv with hv | hv
      · exact hrange 841 64 v (by norm_num) hv
      · exact hrange 777 64 v (by norm_num) hv
    · exact hrange 265 256 v (by norm_num) (mem_of_mem_drop hv)
  · exact hrange 6 2 v (by norm_num) (mem_reverse.mpr hv)

/-- An array of 64 wires of which only the last is set packs to one. -/
private theorem packed_last_bit {n : ℕ} (hlast : oneUnitTransfer (n + 63) = 1)
    (hrest : ∀ v : ℕ, n ≤ v → v < n + 63 → oneUnitTransfer v = 0) :
    (Gadgetlib.standard.packedAddition (List.range' n 64)).eval oneUnitTransfer = 1 := by
  have hrev : (List.range' n 64).reverse = (n + 63) :: (List.range' n 63).reverse := by
    rw [List.range'_concat, reverse_append, mul_comm]
    rfl
  have hzero : littleEndian ((List.range' n 63).reverse.map oneUnitTransfer) = 0 := by
    refine littleEndian_eq_zero fun x hx => ?_
    obtain ⟨v, hv, rfl⟩ := mem_map.mp hx
    obtain ⟨hle, hlt⟩ := mem_range'_1.mp (mem_reverse.mp hv)
    exact hrest v hle hlt
  rw [Gadgetlib.packedAddition, Gadgetlib.eval_packingSum, hrev, map_cons, littleEndian,
    hlast, hzero, mul_zero, add_zero]

/-- A public value of the transfer is zero. -/
private theorem packed_public {n : ℕ} (hn : 1 < n ∧ n + 64 ≤ 968) :
    (Gadgetlib.standard.packedAddition (List.range' n 64)).eval oneUnitTransfer = 0 := by
  rw [Gadgetlib.packedAddition, Gadgetlib.eval_packingSum]
  refine littleEndian_eq_zero fun x hx => ?_
  obtain ⟨v, hv, rfl⟩ := mem_map.mp hx
  have hbounds := mem_range'_1.mp (mem_reverse.mp hv)
  exact oneUnitTransfer_public (by omega)

theorem oneUnitTransfer_satisfies :
    Satisfies oneUnitTransfer ((new 1 1 1 (HashGadget.copyLast (F := SampleField) 0)
      (TreeHashGadget.sum (F := SampleField)) 88 1).1.constraints Gadgetlib.standard
      (HashGadget.copyLast 0) TreeHashGadget.sum 88) := by
  simp only [constraints, satisfies_append]
  refine ⟨⟨⟨⟨⟨⟨?_, ?_⟩, ?_⟩, ?_⟩, ?_⟩, ?_⟩, ?_⟩
  · refine satisfies_flatMap.mpr fun t ht => ?_
    exact transfer_packs (fun v hv => transfer_packers ht v (mem_append_left _ hv))
      fun v hv => transfer_packers ht v (mem_append_right _ hv)
  · rw [Gadgetlib.digest_satisfies]
    exact fun v => oneUnitTransfer_isBool_of_mem (n := 9) (k := 256) (by norm_num)
  · refine satisfies_flatMap.mpr fun aSk haSk => ?_
    obtain rfl := mem_singleton.mp haSk
    rw [Gadgetlib.digest_satisfies]
    exact fun v => oneUnitTransfer_isBool_of_mem (n := 521) (k := 256) (by norm_num)
  · refine satisfies_cons.mpr ⟨?_, satisfies_nil⟩
    rw [Gadgetlib.equalsConst_holds]
    rfl
  · refine satisfies_flatMap.mpr fun t ht => ?_
    obtain rfl := mem_singleton.mp ht
    refine satisfies_append.mpr ⟨?_, satisfies_nil⟩
    refine InputNoteGadget.satisfies_sum_level (σ := oneUnitTransfer) 969 (fun v hv => ?_) rfl rfl
      rfl rfl rfl rfl rfl
    exact oneUnitTransfer_isBool_of_mem (by norm_num) hv
  · refine satisfies_flatMap.mpr fun t ht => ?_
    obtain rfl := mem_singleton.mp ht
    refine satisfies_append.mpr ⟨satisfies_nil, ?_⟩
    simp only [OutputNoteGadget.constraints, NoteGadget.constraints, satisfies_append,
      Gadgetlib.satisfies_booleans, Gadgetlib.digest_satisfies]
    refine ⟨⟨⟨?_, ?_⟩, fun v hv => absurd hv not_mem_nil⟩, ?_⟩
    · exact fun v => oneUnitTransfer_isBool_of_mem (n := 1616) (k := 64) (by norm_num)
    · exact fun v => oneUnitTransfer_isBool_of_mem (n := 1680) (k := 256) (by norm_num)
    · refine satisfies_append.mpr ⟨satisfies_nil, ?_⟩
      exact (Gadgetlib.packing_satisfies _ _ _ _).mpr
        ⟨fun v hv => absurd hv not_mem_nil, rfl⟩
  · have hbit : ∀ n v : ℕ, n ∈ [905, 969, 1616] → n ≤ v → v < n + 63 → oneUnitTransfer v = 0 := by
      intro n v hn hle hlt
      refine oneUnitTransfer_eq_zero ?_
      simp only [mem_append, mem_cons, not_mem_nil, or_false] at hn ⊢
      omega
    have htotal := packed_last_bit (n := 905) rfl fun v => hbit 905 v (by decide)
    have hspent := packed_last_bit (n := 969) rfl fun v => hbit 969 v (by decide)
    have hcreated := packed_last_bit (n := 1616) rfl fun v => hbit 1616 v (by decide)
    have hside : ∀ n m : ℕ, 1 < n ∧ n + 64 ≤ 968 →
        (Gadgetlib.standard.packedAddition (List.range' m 64)).eval oneUnitTransfer = 1 →
        (Gadgetlib.standard.packedAddition (List.range' n 64) +
          Gadgetlib.standard.packedAddition (List.range' m 64)).eval oneUnitTransfer = 1 := by
      intro n m hn hm
      rw [LinearCombination.eval_add, packed_public hn, hm, zero_add]
    simp only [balanceConstraints, satisfies_append, satisfies_cons, satisfies_nil, and_true,
      Gadgetlib.satisfies_booleans, Constraint.Holds, LinearCombination.eval_const, one_mul]
    have hleft := hside 777 969 (by norm_num) hspent
    refine ⟨⟨?_, ?_⟩, hleft.trans htotal.symm⟩
    · exact hleft.trans (hside 841 1616 (by norm_num) hcreated).symm
    · exact fun v => oneUnitTransfer_isBool_of_mem (n := 905) (k := 64) (by norm_num)

/-- The transfer of one unit is balanced. -/
theorem conserves_value_one_unit_transfer :
    let g := (new 1 1 1 (HashGadget.copyLast (F := SampleField) 0)
      (TreeHashGadget.sum (F := SampleField)) 88 1).1
    oneUnitTransfer 1032 = 1 ∧ oneUnitTransfer 1679 = 1 ∧
      numberOf oneUnitTransfer g.zkVpubIn.toList +
          (g.inputNotes.toList.map fun note => numberOf oneUnitTransfer note.value.toList).sum =
        numberOf oneUnitTransfer g.zkVpubOut.toList +
          (g.outputNotes.toList.map fun note =>
            numberOf oneUnitTransfer note.value.toList).sum := by
  have hp : 2 ^ 64 * (2 + 1 + 1) < mersenne 89 := by norm_num [mersenne]
  have h := conserves_value hp Gadgetlib.standard (HashGadget.copyLast 0) TreeHashGadget.sum 88 1
    oneUnitTransfer oneUnitTransfer_satisfies
  refine ⟨rfl, rfl, ?_⟩
  convert h.1

end JoinsplitGadget

end Zeth.Circuit
