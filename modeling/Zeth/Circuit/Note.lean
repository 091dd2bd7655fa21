import Mathlib.Algebra.Field.ZMod
import Zeth.Circuit.Commitment
import Zeth.Circuit.MerklePath

/-!
# The note gadgets

A joinsplit spends input notes and creates output notes. `input_note_gadget` derives the owner and
the nullifier of a note from its spending key, commits to the note and checks that the commitment
is in the tree unless the value is zero. `output_note_gadget` commits to a new note.

## Main definitions

* `Zeth.Circuit.PrfGadget.new`: the pseudorandom functions, one hash gadget each, on tagged blocks.
* `Zeth.Circuit.NoteGadget`, `Zeth.Circuit.InputNoteGadget`, `Zeth.Circuit.OutputNoteGadget`.

## Main results

* `Zeth.Circuit.InputNoteGadget.mem_tree_of_value_ne_zero`: the commitment of a spent note of
  non-zero value folds with its path to the Merkle root.
-/

namespace Zeth.Circuit

open R1CS LinearCombination

variable {F : Type} [Field F]

/-- `ZETH_RHO_SIZE` -/
abbrev zethRhoSize : ℕ := 256

/-- `ZETH_R_SIZE` -/
abbrev zethRSize : ℕ := 256

/-! ### Pseudorandom functions -/

namespace PrfGadget

/-- `PRF_gadget`: hashes the block `x || y`. -/
def new (H : HashGadget F) (x y result : List Var) : Alloc Hasher := H.new (x ++ y) result

/-- The output is checked to be bits. -/
def constraints (H : HashGadget F) (g : Hasher) : List (Constraint F) := H.rows g true

/-- A four-bit tag before the first 252 bits of a key. -/
def tagged (tag key : List Var) : List Var := tag ++ key.take 252

/-- `get_tag_addr` -/
def getTagAddr (ZERO : Var) (aSk : List Var) : List Var := tagged [ONE, ONE, ZERO, ZERO] aSk

/-- `get_tag_nf` -/
def getTagNf (ZERO : Var) (aSk : List Var) : List Var := tagged [ONE, ONE, ONE, ZERO] aSk

/-- `get_tag_pk` -/
def getTagPk (ZERO : Var) (aSk : List Var) (index : ℕ) : List Var :=
  tagged [ZERO, if index = 0 then ZERO else ONE, ZERO, ZERO] aSk

/-- `get_tag_rho` -/
def getTagRho (ZERO : Var) (phi : List Var) (index : ℕ) : List Var :=
  tagged [ZERO, if index = 0 then ZERO else ONE, ONE, ZERO] phi

/-- `gen_256_zeroes`: half a block. -/
def gen256Zeroes (H : HashGadget F) (ZERO : Var) : List Var :=
  List.replicate (H.blockLen / 2) ZERO

/-- Wires `ONE` and `ZERO` carry the bits of a tag. -/
theorem carries_tag {σ : Assignment F} {ZERO : Var} (hzero : σ ZERO = 0) (tag : List Bool) :
    Carries σ (tag.map fun b => if b then ONE else ZERO) tag := by
  rw [Carries, List.map_map]
  refine List.map_congr_left fun b _ => ?_
  cases b
  · exact hzero
  · exact σ.val_ONE

/-- `PRF_addr_a_pk_gadget` -/
def addrAPk (H : HashGadget F) (ZERO : Var) (aSk result : List Var) : Alloc Hasher :=
  new H (getTagAddr ZERO aSk) (gen256Zeroes H ZERO) result

/-- `PRF_nf_gadget` -/
def nf (H : HashGadget F) (ZERO : Var) (aSk rho result : List Var) : Alloc Hasher :=
  new H (getTagNf ZERO aSk) rho result

/-- `PRF_pk_gadget` -/
def pk (H : HashGadget F) (ZERO : Var) (aSk hSig : List Var) (index : ℕ) (result : List Var) :
    Alloc Hasher :=
  new H (getTagPk ZERO aSk index) hSig result

/-- `PRF_rho_gadget` -/
def rho (H : HashGadget F) (ZERO : Var) (phi hSig : List Var) (index : ℕ) (result : List Var) :
    Alloc Hasher :=
  new H (getTagRho ZERO phi index) hSig result

end PrfGadget

/-! ### Notes -/

/-- `note_gadget`: the value and the trapdoor of a note. -/
structure NoteGadget where
  value : List.Vector Var zethVSize
  r : List.Vector Var zethRSize

namespace NoteGadget

def new : Alloc NoteGadget := do
  let value ← allocateArray zethVSize
  let r ← allocateArray zethRSize
  return ⟨value, r⟩

def constraints (L : Gadgetlib F) (g : NoteGadget) : List (Constraint F) :=
  L.booleans g.value.toList ++ L.booleans g.r.toList

theorem value_isBool {L : Gadgetlib F} {g : NoteGadget} {σ : Assignment F}
    (h : Satisfies σ (g.constraints L)) : ∀ v ∈ g.value.toList, IsBool (σ v) :=
  L.satisfies_booleans.mp (satisfies_append.mp h).1

end NoteGadget

/-! ### Input notes -/

/-- `input_note_gadget` -/
structure InputNoteGadget (depth : ℕ) extends NoteGadget where
  rho : List.Vector Var zethRhoSize
  addressBits : List.Vector Var depth
  aPk : List Var
  commitment : Var
  authPath : List.Vector Var depth
  spendAuthority : Hasher
  exposeNullifiers : Hasher
  commitToInputsCm : CommCmGadget
  valueEnforce : Var
  checkMembership : MerklePathAuthenticator depth

namespace InputNoteGadget

variable {depth : ℕ} (L : Gadgetlib F) (H : HashGadget F) (T : TreeHashGadget F)

variable (depth) in
def new (ZERO : Var) (aSk nullifier : List Var) (rt : Var) : Alloc (InputNoteGadget depth) := do
  let note ← NoteGadget.new
  let rho ← allocateArray zethRhoSize
  let addressBits ← allocateArray depth
  let aPk ← allocateArray H.digestLen
  let commitment ← allocate
  let authPath ← allocateArray depth
  let spendAuthority ← PrfGadget.addrAPk H ZERO aSk aPk.toList
  let exposeNullifiers ← PrfGadget.nf H ZERO aSk rho.toList nullifier
  let commitToInputsCm ← CommCmGadget.new H aPk.toList rho.toList note.r.toList note.value.toList
    commitment
  let valueEnforce ← allocate
  let checkMembership ← MerklePathAuthenticator.new T addressBits commitment rt authPath
    valueEnforce
  return { note with
    rho, addressBits, aPk := aPk.toList, commitment, authPath, spendAuthority, exposeNullifiers,
    commitToInputsCm, valueEnforce, checkMembership }

/-- The membership rows compare with the root only where `value_enforce` is set, and a non-zero
value forces it to be set. -/
def constraints [NeZero depth] (g : InputNoteGadget depth) : List (Constraint F) :=
  g.toNoteGadget.constraints L ++ L.booleans g.rho.toList ++
    PrfGadget.constraints H g.spendAuthority ++ PrfGadget.constraints H g.exposeNullifiers ++
    g.commitToInputsCm.constraints L H ++ [L.boolean g.valueEnforce] ++
    [⟨L.packedAddition g.value.toList, .const 1 - .var g.valueEnforce, 0⟩] ++
    g.checkMembership.constraints T

variable {L H T} {hash : F → F → F} {ZERO rt : Var} {aSk nullifier : List Var} {start : ℕ}
  {σ : Assignment F}

/-- The parts of the rows that concern value and membership. -/
theorem membership_of_satisfies [NeZero depth] {g : InputNoteGadget depth}
    (h : Satisfies σ (g.constraints L H T)) :
    (∀ v ∈ g.value.toList, IsBool (σ v)) ∧
      (L.packedAddition g.value.toList).eval σ * (1 - σ g.valueEnforce) = 0 ∧
      Satisfies σ (g.checkMembership.constraints T) := by
  simp only [constraints, satisfies_append] at h
  obtain ⟨⟨⟨⟨⟨⟨⟨hnote, -⟩, -⟩, -⟩, -⟩, -⟩, hdummy⟩, hmembership⟩ := h
  simp only [satisfies_cons, satisfies_nil, and_true, Constraint.Holds,
    eval_sub, eval_const, eval_var,
    eval_zero] at hdummy
  exact ⟨NoteGadget.value_isBool hnote, hdummy, hmembership⟩

/-- The commitment of a spent note of non-zero value folds with its path to the Merkle root. -/
theorem mem_tree_of_value_ne_zero {p : ℕ} [Fact p.Prime] (hp : 2 ^ 64 < p) [NeZero depth]
    (L : Gadgetlib (ZMod p)) (H : HashGadget (ZMod p)) (T : TreeHashGadget (ZMod p))
    (hash : ZMod p → ZMod p → ZMod p) (hT : T.Sound hash) (ZERO : Var) (aSk nullifier : List Var)
    (rt : Var) (start : ℕ) (σ : Assignment (ZMod p)) :
    let g := (new depth H T ZERO aSk nullifier rt start).1
    Satisfies σ (g.constraints L H T) → (∃ v ∈ g.value.toList, σ v ≠ 0) →
      (∀ v ∈ g.addressBits.toList, IsBool (σ v)) ∧
        PerfectTree.foldPath hash (σ g.commitment)
          (MerklePathCompute.pathValues σ g.addressBits g.authPath) = σ rt := by
  intro g h hvalue
  obtain ⟨hbool, hdummy, hmembership⟩ := membership_of_satisfies h
  obtain ⟨hbits, hroot⟩ := MerklePathAuthenticator.sound hT hmembership
  refine ⟨hbits, hroot ?_⟩
  -- A non-zero string of 64 bits is a non-zero number below the characteristic.
  rw [L.eval_packedAddition_numberOf hbool] at hdummy
  have hlt : numberOf σ g.value.toList < p := by
    refine (numberOf_lt _).trans ?_
    rwa [List.Vector.toList_length]
  have hpos : numberOf σ g.value.toList ≠ 0 := by
    rw [Ne, numberOf, natOfBits_eq_zero_iff]
    intro hzero
    obtain ⟨v, hv, hne⟩ := hvalue
    rcases hbool v hv with h0 | h1
    · exact hne h0
    · have hbit := hzero (decide (σ v = 1)) (List.mem_map_of_mem hv)
      exact absurd h1 (of_decide_eq_false hbit)
  have hcast : (numberOf σ g.value.toList : ZMod p) ≠ 0 := by
    intro hzero
    refine hpos (natCast_inj_of_lt (F := ZMod p) p hlt (Nat.pos_of_ne_zero (NeZero.ne p)) ?_)
    rw [hzero, Nat.cast_zero]
  have henforce : σ g.valueEnforce = 1 :=
    (sub_eq_zero.mp ((mul_eq_zero.mp hdummy).resolve_left hcast)).symm
  change σ g.valueEnforce ≠ 0
  rw [henforce]
  exact one_ne_zero

/-- A note gadget without a digest, in a tree of depth one with the sum as tree hash, is satisfied
by a right leaf of zero whose sibling is the root. -/
theorem satisfies_sum_level {σ : Assignment SampleField} {ZERO rt : Var} {aSk : List Var}
    (start : ℕ) (hbits : ∀ v ∈ List.range' start 576, IsBool (σ v))
    (haddress : σ (start + 576) = 1) (hcommitment : σ (start + 577) = 0)
    (hswitch : σ (start + 643) = 1) (hdigest : σ (start + 644) = σ rt)
    (hleft : σ (start + 645) = σ (start + 578)) (hright : σ (start + 646) = 0)
    (hroot : σ rt = σ (start + 578)) :
    Satisfies σ ((new 1 (HashGadget.copyLast (F := SampleField) 0)
      (TreeHashGadget.sum (F := SampleField)) ZERO aSk [] rt start).1.constraints
      Gadgetlib.standard (HashGadget.copyLast 0) TreeHashGadget.sum) := by
  have hbool : ∀ n k v : ℕ, n + k ≤ 576 → v ∈ List.range' (start + n) k → IsBool (σ v) := by
    intro n k v hk hv
    rw [List.mem_range'_1] at hv
    exact hbits v (List.mem_range'_1.mpr (by omega))
  simp only [constraints, satisfies_append]
  refine ⟨⟨⟨⟨⟨⟨⟨?_, ?_⟩, ?_⟩, ?_⟩, ?_⟩, ?_⟩, ?_⟩, ?_⟩
  · rw [NoteGadget.constraints, satisfies_append, Gadgetlib.satisfies_booleans,
      Gadgetlib.satisfies_booleans]
    exact ⟨fun v => hbool 0 64 v (by norm_num), fun v => hbool 64 256 v (by norm_num)⟩
  · rw [Gadgetlib.satisfies_booleans]
    exact fun v => hbool 320 256 v (by norm_num)
  · exact satisfies_nil
  · exact satisfies_nil
  · refine satisfies_append.mpr ⟨satisfies_nil, ?_⟩
    refine (Gadgetlib.packing_satisfies _ _ _ _).mpr ⟨fun w hw => ?_, hcommitment⟩
    cases hw
  · refine satisfies_cons.mpr ⟨?_, satisfies_nil⟩
    rw [Gadgetlib.boolean_holds]
    exact Or.inr hswitch
  · refine satisfies_cons.mpr ⟨?_, satisfies_nil⟩
    rw [Constraint.Holds, eval_sub, eval_const,
      eval_var, eval_zero]
    change _ * (1 - σ (start + 643)) = 0
    rw [hswitch, sub_self, mul_zero]
  · refine satisfies_append.mpr ⟨satisfies_flatMap.mpr fun l hl => ?_, ?_⟩
    · obtain rfl := List.mem_singleton.mp hl
      have hselect : Satisfies σ (MerklePathSelector.constraints SampleField
          ⟨start + 577, start + 578, start + 576, start + 645, start + 646⟩) := by
        simp [MerklePathSelector.constraints, Constraint.Holds, haddress, hcommitment, hleft,
          hright]
      have hsum : Satisfies σ (TreeHashGadget.sum.constraints (start + 647) (start + 645)
          (start + 646) (start + 644)) := by
        refine TreeHashGadget.sum_holds_iff.mpr ?_
        rw [hleft, hright, hdigest, hroot, add_zero]
      exact satisfies_append.mpr ⟨hselect, hsum⟩
    · refine satisfies_cons.mpr ⟨?_, satisfies_nil⟩
      rw [Constraint.Holds, eval_sub, eval_var,
        eval_var, eval_zero]
      change (σ (start + 644) - σ rt) * _ = 0
      rw [hdigest, sub_self, zero_mul]

/-- A note of value one whose sibling in a tree of depth one is five, with the sum as tree hash:
wire `1` is zero, wire `2` the root, wire `66` the last bit of the value, wire `579` the address
bit, wire `581` the path, wire `646` the switch and wires `647` to `649` the digest and the two hash
inputs. -/
def oneUnitNote : Assignment SampleField where
  val v := if v ∈ [0, 66, 579, 646] then 1 else if v ∈ [2, 581, 647, 648] then 5 else 0
  val_ONE := rfl

theorem oneUnitNote_satisfies :
    Satisfies oneUnitNote ((new 1 (HashGadget.copyLast (F := SampleField) 0)
      (TreeHashGadget.sum (F := SampleField)) 1 [] [] 2 3).1.constraints
      Gadgetlib.standard (HashGadget.copyLast 0) TreeHashGadget.sum) := by
  refine satisfies_sum_level 3 (fun v hv => ?_) rfl rfl rfl rfl rfl rfl rfl
  rw [List.mem_range'_1] at hv
  have hv5 : v ∉ [2, 581, 647, 648] := by
    simp only [List.mem_cons, List.not_mem_nil, or_false]
    omega
  change IsBool (if v ∈ [0, 66, 579, 646] then 1 else if v ∈ [2, 581, 647, 648] then 5 else 0)
  rw [if_neg hv5]
  split_ifs
  · exact Or.inr rfl
  · exact Or.inl rfl

/-- The note of one unit is in the tree. -/
theorem mem_tree_of_value_ne_zero_one_unit :
    (∃ v ∈ (new 1 (HashGadget.copyLast (F := SampleField) 0)
        (TreeHashGadget.sum (F := SampleField)) 1 [] [] 2 3).1.value.toList, oneUnitNote v ≠ 0) ∧
      PerfectTree.foldPath (· + ·) (0 : SampleField) [(true, 5)] = 5 := by
  have hvalue : ∃ v ∈ (new 1 (HashGadget.copyLast (F := SampleField) 0)
      (TreeHashGadget.sum (F := SampleField)) 1 [] [] 2 3).1.value.toList, oneUnitNote v ≠ 0 :=
    ⟨66, List.mem_range'_1.mpr ⟨by norm_num, by norm_num⟩, one_ne_zero⟩
  refine ⟨hvalue, ?_⟩
  exact (mem_tree_of_value_ne_zero (by norm_num [mersenne]) Gadgetlib.standard
    (HashGadget.copyLast 0) TreeHashGadget.sum (· + ·) TreeHashGadget.sum_sound 1 [] [] 2 3
    oneUnitNote oneUnitNote_satisfies hvalue).2

end InputNoteGadget

/-! ### Output notes -/

/-- `output_note_gadget` -/
structure OutputNoteGadget extends NoteGadget where
  aPk : List Var
  commitToOutputsCm : CommCmGadget

namespace OutputNoteGadget

variable (L : Gadgetlib F) (H : HashGadget F)

def new (rho : List Var) (commitment : Var) : Alloc OutputNoteGadget := do
  let note ← NoteGadget.new
  let aPk ← allocateArray H.digestLen
  let commitToOutputsCm ← CommCmGadget.new H aPk.toList rho note.r.toList note.value.toList
    commitment
  return { note with aPk := aPk.toList, commitToOutputsCm }

def constraints (g : OutputNoteGadget) : List (Constraint F) :=
  g.toNoteGadget.constraints L ++ L.digest g.aPk ++ g.commitToOutputsCm.constraints L H

variable {L H} in
theorem value_isBool {g : OutputNoteGadget} {σ : Assignment F}
    (h : Satisfies σ (g.constraints L H)) : ∀ v ∈ g.value.toList, IsBool (σ v) :=
  NoteGadget.value_isBool (satisfies_append.mp (satisfies_append.mp h).1).1

end OutputNoteGadget

end Zeth.Circuit
