import Mathlib.Algebra.Field.ZMod
import Zeth.Circuit.MerklePath
import Zeth.Client.MerkleTreeRounding

/-!
# Authentication paths made by the client

`compute_merkle_path` (`client/zeth/core/merkle_tree.py`) reads the siblings of the nodes above an
address. The strings it returns become field elements in the prover server, which checks the path in
the circuit with the bits of the address.

Nodes are read only when no leaf has been inserted since the last `recompute_root`: `get_node`
asserts it. Then, for as many leaves as floating point numbers can count, the path of an address
authenticates the leaf at that address, and with any other value for the leaf it gives the root of
the tree with that value (`MerkleTree.pathsAuthenticate_iff`). With one leaf more, the parents of the
leaves are one too many: their number is computed by a division of floating point numbers, and the
last of them is not a hash. The paths that meet it do not belong to the tree of the leaves
(`MerkleTree.not_pathsAuthenticate`).

## Main definitions

* `computeMerklePath`.
* `Circuit.fromSizeT`: the bits of an address.
* `MerkleTree.Operation`, `MerkleTree.runHistory`.
* `MerkleTree.PathsAuthenticate`.

## Main results

* `MerkleTree.pathsAuthenticate_iff`, `MerkleTree.not_pathsAuthenticate`.
-/

namespace Zeth

open List

open Except (ok_bind bind_eq_ok)

namespace Circuit

/-! ### Addresses -/

/-- The loops of `bits::from_size_t`: bits until the address is zero, least significant first, and
zeros for the rest. -/
def sizeTBits : ℕ → BitVec 64 → List Bool
  | 0, _ => []
  | n + 1, address =>
    if address = 0#64 then List.replicate (n + 1) false
    else (address &&& 1#64 != 0#64) :: sizeTBits n (address >>> 1)

/-- `bits::from_size_t`. -/
def fromSizeT (numBits : ℕ) (address : BitVec 64) : Except String (List Bool) :=
  if numBits < 64 ∧ address ≥ 1#64 <<< numBits then .error "Address overflow"
  else .ok (sizeTBits numBits address)

theorem sizeTBits_eq (n : ℕ) (address : BitVec 64) :
    sizeTBits n address = (List.range n).map address.toNat.testBit := by
  induction n generalizing address with
  | zero => rfl
  | succ n ih =>
    rw [sizeTBits]
    split_ifs with hzero
    · rw [hzero]
      refine (eq_replicate_iff.mpr ⟨by simp, ?_⟩).symm
      simp
    · have hbit : (address &&& 1#64 != 0#64) = address.toNat.testBit 0 := by
        have hmod : (address &&& 1#64).toNat = address.toNat % 2 := by
          rw [BitVec.toNat_and, BitVec.toNat_one (by omega), Nat.and_one_is_mod]
        have hne : address &&& 1#64 ≠ 0#64 ↔ address.toNat % 2 = 1 := by
          rw [ne_eq, ← BitVec.toNat_inj, hmod, BitVec.toNat_zero]
          omega
        rw [Nat.testBit_zero, Bool.eq_iff_iff, bne_iff_ne, hne, decide_eq_true_iff]
      rw [ih, hbit, range_succ_eq_map, map_cons, map_map]
      congr 1
      refine map_congr_left fun k _ => ?_
      rw [Function.comp_apply, BitVec.testBit_toNat, BitVec.testBit_toNat,
        BitVec.getLsbD_ushiftRight, add_comm]

theorem fromSizeT_eq {d : ℕ} {address : BitVec 64} (h : address.toNat < 2 ^ d) :
    fromSizeT d address = .ok ((List.range d).map address.toNat.testBit) := by
  have hfits : ¬ (d < 64 ∧ address ≥ 1#64 <<< d) := by
    rintro ⟨hd, hge⟩
    have hshift : (1#64 <<< d).toNat = 2 ^ d := by
      rw [BitVec.toNat_shiftLeft, BitVec.toNat_ofNat, Nat.one_mod_two_pow (by omega),
        Nat.one_shiftLeft, Nat.mod_eq_of_lt (Nat.pow_lt_pow_right one_lt_two hd)]
    rw [ge_iff_le, BitVec.le_def, hshift] at hge
    omega
  rw [fromSizeT, if_neg hfits, sizeTBits_eq]

end Circuit

namespace Client

open ByteString Python PerfectTree R1CS Circuit

/-! ### Paths -/

/-- The loop of `compute_merkle_path` over the remaining layers. -/
def merklePathFrom (mkTree : MerkleTree) : ℕ → ℕ → ℕ → Except Exc (List String)
  | 0, _, _ => return []
  | n + 1, depth, address => do
    let node ←
      if address &&& 1 ≠ 0 then mkTree.getNode depth (address - 1)
      else mkTree.getNode depth (address + 1)
    let merklePath ← merklePathFrom mkTree n (depth + 1) (address >>> 1)
    return hex node :: merklePath

/-- `compute_merkle_path`, for an address that is `-1` or not negative. -/
def computeMerklePath (address : ℤ) (mkTree : MerkleTree) : Except Exc (List String) :=
  if address = -1 then return [] else merklePathFrom mkTree mkTree.depth 0 address.toNat

theorem computeMerklePath_natCast (a : ℕ) (t : MerkleTree) :
    computeMerklePath a t = merklePathFrom t t.depth 0 a := by
  rw [computeMerklePath, if_neg (by omega), Int.toNat_natCast]

/-- The node that the loop reads is the sibling. -/
theorem merklePathFrom_succ (t : MerkleTree) (n depth a : ℕ) :
    merklePathFrom t (n + 1) depth a = (do
      let node ← t.getNode depth (sibling a)
      let merklePath ← merklePathFrom t n (depth + 1) (a / 2)
      return hex node :: merklePath) := by
  rw [merklePathFrom, Nat.shiftRight_one, Nat.and_one_is_mod]
  by_cases hodd : a % 2 = 1
  · rw [sibling, if_pos hodd, if_pos (by omega)]
  · rw [sibling, if_neg hodd, if_neg (by omega)]

/-- When all siblings can be read, they are the path. -/
theorem merklePathFrom_eq {t : MerkleTree} {f : ℕ → Bytes} {n depth a : ℕ}
    (hf : ∀ k < n, t.getNode (depth + k) (sibling (a / 2 ^ k)) = .ok (f k)) :
    merklePathFrom t n depth a = .ok ((List.range n).map fun k => hex (f k)) := by
  induction n generalizing depth a f with
  | zero => rfl
  | succ n ih =>
    have hnode := hf 0 (Nat.succ_pos n)
    rw [Nat.add_zero, pow_zero, Nat.div_one] at hnode
    have hrest := @ih (fun k => f (k + 1)) (depth + 1) (a / 2) fun k hk => by
      rw [← hf (k + 1) (by omega), Nat.div_div_eq_div_mul, ← pow_succ', Nat.add_right_comm,
        Nat.add_assoc]
    rw [merklePathFrom_succ, hnode, ok_bind, hrest, ok_bind,
      range_succ_eq_map, map_cons, map_map]
    rfl

/-! ### Field elements -/

section Elements

variable {r : ℕ}

/-- The canonical bytes of a field element. -/
def elementBytes (x : ZMod r) : Bytes := toBig 32 x.val

/-- `base_field_element_from_hex`, over `bigint_from_hex` of libff. -/
def baseFieldElementFromHex (bigintFromHex : String → ℕ) (hex : String) : ZMod r :=
  (bigintFromHex hex : ℕ)

theorem elementBytes_zero : elementBytes (0 : ZMod r) = zeroEntry := by
  rw [elementBytes, ZMod.val_zero]
  rfl

theorem fromBig_elementBytes [NeZero r] (hr : r ≤ 2 ^ 256) (x : ZMod r) :
    ((fromBig (elementBytes x) : ℕ) : ZMod r) = x := by
  have hval : x.val < 256 ^ 32 := (ZMod.val_lt x).trans_le (hr.trans (by norm_num))
  rw [elementBytes, fromBig_toBig, Nat.mod_eq_of_lt hval, ZMod.natCast_zmod_val]

/-- The prover reads a node back as the field element that it stands for. -/
theorem baseFieldElementFromHex_hex [NeZero r] (hr : r ≤ 2 ^ 256) {bigintFromHex : String → ℕ}
    (hhex : ∀ bs : Bytes, bs.length = 32 → bigintFromHex (hex bs) = fromBig bs) (x : ZMod r) :
    baseFieldElementFromHex bigintFromHex (hex (elementBytes x)) = x := by
  have hlen : (elementBytes x).length = 32 := length_toBig 32 x.val
  rw [baseFieldElementFromHex, hhex _ hlen, fromBig_elementBytes hr]

end Elements

namespace MerkleTree

variable (hash : Bytes → Bytes → Bytes)

/-! ### Histories -/

/-- The calls that change a tree. -/
inductive Operation where
  | insert (value : Bytes)
  | recomputeRoot

/-- The tree after a call. -/
def applyOperation (t : MerkleTree) : Operation → Except Exc MerkleTree
  | .insert value => t.insert value
  | .recomputeRoot => (t.recomputeRoot hash).map Prod.fst

/-- Calls one after the other. -/
def runOperations (t : MerkleTree) : List Operation → Except Exc MerkleTree
  | [] => return t
  | op :: ops => do runOperations (← applyOperation hash t op) ops

/-- Calls on a new tree. -/
def runHistory (d : ℕ) (ops : List Operation) : Except Exc MerkleTree := do
  runOperations hash (← emptyWithDepth hash d) ops

/-- The leaves inserted by some calls. -/
def inserted : List Operation → List Bytes
  | [] => []
  | .insert value :: ops => value :: inserted ops
  | .recomputeRoot :: ops => inserted ops

variable {hash} {d : ℕ}

/-- A full tree takes no leaf. -/
theorem insert_full {old new : List Bytes} (h1 : 1 ≤ d) (hfull : ¬ (old ++ new).length < 2 ^ d)
    (value : Bytes) :
    insert (pending hash d old new) value = .error (.assertionError "") := by
  have hleaves : (mixedLayers hash d old new 0)[d]? = some (old ++ new) := by
    refine (getElem?_mixedLayers old new 0 (Nat.zero_le d)).trans ?_
    rw [if_pos le_rfl, layerAt_zero h1]
  rw [insert, pending, index_of_getElem? hleaves, ok_bind, decide_eq_false hfull,
    assert_false, Except.error_bind]

/-- A call that returns keeps the form of the tree and adds its leaf. -/
theorem applyOperation_pending {old new : List Bytes} {t : MerkleTree} (h1 : 1 ≤ d)
    (op : Operation) (hle : (old ++ new).length ≤ 2 ^ d)
    (hfloat : (old ++ new).length ≤ 2 ^ 53 + 1)
    (hop : applyOperation hash (pending hash d old new) op = .ok t) :
    ∃ old' new', t = pending hash d old' new' ∧ (old' ++ new').length ≤ 2 ^ d ∧
      old' ++ new' = old ++ new ++ inserted [op] := by
  cases op with
  | insert value =>
    rw [applyOperation] at hop
    by_cases hlt : (old ++ new).length < 2 ^ d
    · rw [insert_pending h1 hlt, Except.ok.injEq] at hop
      refine ⟨old, new ++ [value], hop.symm, ?_, (append_assoc _ _ _).symm⟩
      rw [← append_assoc, length_append, length_singleton]
      exact hlt
    · rw [insert_full h1 hlt] at hop
      cases hop
  | recomputeRoot =>
    obtain ⟨⟨t', root⟩, hroot, rfl⟩ := Except.map_eq_ok.mp hop
    by_cases hd : d ≤ 1024 ∨ new = []
    · rw [recomputeRoot_pending h1 hd hle hfloat, Except.ok.injEq, Prod.mk.injEq,
        ← pending_nil] at hroot
      refine ⟨old ++ new, [], hroot.1.symm, ?_, rfl⟩
      rwa [append_nil]
    · rw [not_or, not_le] at hd
      rw [recomputeRoot_overflow hd.2 hd.1 hle hfloat] at hroot
      cases hroot

theorem inserted_cons (op : Operation) (ops : List Operation) :
    inserted (op :: ops) = inserted [op] ++ inserted ops := by
  cases op <;> rfl

/-- A history that returns ends in a tree over the leaves that it inserted, some of which may be
pending. -/
theorem runOperations_pending {old new : List Bytes} {t : MerkleTree} (h1 : 1 ≤ d)
    (ops : List Operation) (hle : (old ++ new).length ≤ 2 ^ d)
    (hfloat : (old ++ new ++ inserted ops).length ≤ 2 ^ 53 + 1)
    (hrun : runOperations hash (pending hash d old new) ops = .ok t) :
    ∃ old' new', t = pending hash d old' new' ∧ old' ++ new' = old ++ new ++ inserted ops := by
  induction ops generalizing old new with
  | nil =>
    rw [runOperations] at hrun
    cases hrun
    exact ⟨old, new, rfl, (append_nil _).symm⟩
  | cons op ops ih =>
    rw [inserted_cons, ← append_assoc] at hfloat ⊢
    obtain ⟨t', hop, hrest⟩ := bind_eq_ok.mp hrun
    obtain ⟨old', new', rfl, hle', hleaves⟩ :=
      applyOperation_pending h1 op hle (by simp only [length_append] at hfloat ⊢; omega) hop
    rw [← hleaves] at hfloat ⊢
    exact ih hle' hfloat hrest

theorem runHistory_pending {t : MerkleTree} (h1 : 1 ≤ d) (ops : List Operation)
    (hfloat : (inserted ops).length ≤ 2 ^ 53 + 1) (hrun : runHistory hash d ops = .ok t) :
    ∃ old new, t = pending hash d old new ∧ old ++ new = inserted ops := by
  rw [runHistory, emptyWithDepth_eq, ok_bind, ← pending_nil] at hrun
  exact runOperations_pending h1 ops (Nat.zero_le _) hfloat hrun

theorem runOperations_inserts (t : MerkleTree) (values : List Bytes) (ops : List Operation) :
    runOperations hash t (values.map .insert ++ ops) =
      (do runOperations hash (← insertAll t values) ops) := by
  induction values generalizing t with
  | nil => rfl
  | cons value values ih =>
    rw [map_cons, cons_append, runOperations, applyOperation, insertAll, bind_assoc]
    exact bind_congr fun t' => ih t'

theorem inserted_inserts (values : List Bytes) (ops : List Operation) :
    inserted (values.map .insert ++ ops) = values ++ inserted ops := by
  induction values with
  | nil => rfl
  | cons value values ih => rw [map_cons, cons_append, inserted, ih, cons_append]

/-- Leaves and a recomputation take the tree of some leaves to the tree of all. -/
theorem runOperations_perfect {leaves : List Bytes} (h1 : 1 ≤ d) (hd : d ≤ 1024)
    (values : List Bytes) (hle : (leaves ++ values).length ≤ 2 ^ d)
    (hfloat : (leaves ++ values).length ≤ 2 ^ 53 + 1) (ops : List Operation) :
    runOperations hash (perfect hash d leaves) (values.map .insert ++ .recomputeRoot :: ops) =
      runOperations hash (perfect hash d (leaves ++ values)) ops := by
  rw [runOperations_inserts, ← pending_nil, insertAll_pending h1 _ (by rwa [append_nil]),
    nil_append, ok_bind, runOperations, applyOperation,
    recomputeRoot_pending h1 (.inl hd) hle hfloat]
  rfl

/-! ### Paths of a tree over its leaves -/

/-- The siblings read from the tree of a list of leaves are those of the perfect tree. -/
theorem computeMerklePath_perfect {leaves : List Bytes} {a : ℕ} (ha : a < 2 ^ d) :
    computeMerklePath a (perfect hash d leaves) =
      .ok ((List.range d).map fun k =>
        hex (node hash (padded zeroEntry leaves) k (sibling (a / 2 ^ k)))) := by
  rw [computeMerklePath_natCast, perfect_depth]
  refine merklePathFrom_eq fun k hk => ?_
  have hidx : a / 2 ^ k < 2 ^ (d - k) := by
    rw [Nat.div_lt_iff_lt_mul (by positivity), ← pow_add, Nat.sub_add_cancel hk.le]
    exact ha
  rw [Nat.zero_add, getNode_perfect hk.le (sibling_lt (by omega) hidx)]

theorem getLeaf_perfect (h1 : 1 ≤ d) (leaves : List Bytes) (a : ℕ) :
    getLeaf (perfect hash d leaves) a = .ok (padded zeroEntry leaves a) := by
  have hleaves : (mixedLayers hash d leaves [] d)[d]? = some leaves := by
    refine (getElem?_mixedLayers leaves [] d (Nat.zero_le d)).trans ?_
    rw [append_nil, ite_self, layerAt_zero h1]
  rw [getLeaf, perfect, index_of_getElem? hleaves, ok_bind, padded]
  split_ifs with ha
  · rw [index_of_getElem? (List.getElem?_eq_getElem ha), getD_eq_getElem _ _ ha]
  · rw [getD_eq_default _ _ (not_lt.mp ha)]
    rfl

/-- While a leaf is pending no path can be computed. -/
theorem computeMerklePath_of_numNewLeaves_ne_zero {t : MerkleTree} (hdepth : 1 ≤ t.depth)
    (hpending : t.numNewLeaves ≠ 0) (a : ℕ) :
    computeMerklePath a t = .error (.assertionError "") := by
  obtain ⟨n, hn⟩ : ∃ n, t.depth = n + 1 := ⟨t.depth - 1, by omega⟩
  have hnode : t.getNode 0 (sibling a) = .error (.assertionError "") := by
    rw [getNode, assert_decide (Nat.zero_le _), ok_bind, beq_eq_false_iff_ne.mpr hpending,
      assert_false, Except.error_bind]
  rw [computeMerklePath_natCast, hn, merklePathFrom_succ, hnode, Except.error_bind]

section Authentication

variable {r : ℕ} [Fact r.Prime]

/-- The path of an address, put into `merkle_path_compute` with the bits of the address and the leaf
at the address, gives the root: on every assignment that satisfies the rows, and on the assignment
that the witness generator makes. -/
def CircuitComputesRoot (hashF : ZMod r → ZMod r → ZMod r) (bigintFromHex : String → ℕ) (d : ℕ)
    [NeZero d] (t : MerkleTree) (address : BitVec 64) (path : List String) : Prop :=
  ∃ bits leafValue,
    fromSizeT d address = .ok bits ∧
    t.getLeaf address.toNat = .ok leafValue ∧
    ∀ (T : TreeHashGadget (ZMod r)) (addressBits pathWires : List.Vector Var d) (leaf : Var)
      (start : ℕ) (σ : Assignment (ZMod r)),
      let g := (MerklePathCompute.new T addressBits leaf pathWires start).1
      Carries σ addressBits.toList bits →
      σ leaf = baseFieldElementFromHex bigintFromHex (hex leafValue) →
      pathWires.toList.map σ = path.map (baseFieldElementFromHex bigintFromHex) →
        (T.Sound hashF → Satisfies σ (g.constraints T) →
          t.getRoot = .ok (elementBytes (σ g.result))) ∧
        (T.Computes hashF → leaf < start → (∀ v ∈ addressBits.toList, v < start) →
          (∀ v ∈ pathWires.toList, v < start) →
            t.getRoot = .ok (elementBytes (g.witness T σ g.result)))

variable (hash) in
/-- The path of every address has one node for each level, the circuit computes the root from it, and
it takes any value for the leaf to the root of the tree over the given leaves with that value at the
address. -/
def PathsAuthenticate (hashF : ZMod r → ZMod r → ZMod r) (bigintFromHex : String → ℕ) (d : ℕ)
    [NeZero d] (leaves : List Bytes) (t : MerkleTree) : Prop :=
  ∀ a : ℕ, a < 2 ^ d → ∃ path siblings,
    computeMerklePath a t = .ok path ∧ path.length = d ∧ path.mapM fromhex = .ok siblings ∧
    (∀ address : BitVec 64, address.toNat = a →
      CircuitComputesRoot hashF bigintFromHex d t address path) ∧
    ∀ x, foldPath hash x (((List.range d).map a.testBit).zip siblings) =
      node hash (Function.update (padded zeroEntry leaves) a x) d 0

variable {hashF : ZMod r → ZMod r → ZMod r} {bigintFromHex : String → ℕ}

/-- Canonical leaves are the bytes of field elements, the padding being zero. -/
theorem exists_padded_eq {leaves : List Bytes}
    (hleaves : ∀ value ∈ leaves, ∃ x : ZMod r, value = elementBytes x) :
    ∃ leaf : ℕ → ZMod r, padded zeroEntry leaves = fun j => elementBytes (leaf j) := by
  have hall : ∀ j, ∃ x : ZMod r, padded zeroEntry leaves j = elementBytes x := by
    intro j
    by_cases hj : j < leaves.length
    · rw [padded, getD_eq_getElem _ _ hj]
      exact hleaves _ (getElem_mem hj)
    · exact ⟨0, by rw [elementBytes_zero, padded_of_length_le _ (not_lt.mp hj)]⟩
  choose leaf hleaf using hall
  exact ⟨leaf, funext hleaf⟩

/-- Wires that carry the bits of the address and the siblings carry the path. -/
theorem pathValues_eq_authPath {leaf : ℕ → ZMod r} {a : ℕ} {σ : Assignment (ZMod r)}
    {addressBits path : List.Vector Var d}
    (hbits : Carries σ addressBits.toList ((List.range d).map a.testBit))
    (hpath : path.toList.map σ =
      (List.range d).map fun k => node hashF leaf k (sibling (a / 2 ^ k))) :
    MerklePathCompute.pathValues σ addressBits path = authPath hashF leaf a d := by
  have hread : bitsOf σ addressBits.toList = (List.range d).map a.testBit :=
    (carries_bitsOf hbits.isBool).injective hbits
  rw [MerklePathCompute.pathValues, hread, hpath, zip_map', authPath]

section Canonical

variable (hr : r ≤ 2 ^ 256)
  (hhash : ∀ x y : ZMod r, hash (elementBytes x) (elementBytes y) = elementBytes (hashF x y))
  (hhex : ∀ bs : Bytes, bs.length = 32 → bigintFromHex (hex bs) = fromBig bs)

include hr hhash hhex

/-- The circuit computes the root from the paths of a tree over canonical leaves. -/
theorem circuitComputesRoot_perfect [NeZero d] {leaves : List Bytes}
    (hleaves : ∀ value ∈ leaves, ∃ x : ZMod r, value = elementBytes x) {address : BitVec 64}
    (ha : address.toNat < 2 ^ d) :
    CircuitComputesRoot hashF bigintFromHex d (perfect hash d leaves) address
      ((List.range d).map fun k =>
        hex (node hash (padded zeroEntry leaves) k (sibling (address.toNat / 2 ^ k)))) := by
  obtain ⟨leafF, hpadded⟩ := exists_padded_eq hleaves
  have hnode (k i : ℕ) : node hash (padded zeroEntry leaves) k i =
      elementBytes (node hashF leafF k i) := by
    rw [hpadded, node_map hhash]
  refine ⟨_, _, fromSizeT_eq ha, getLeaf_perfect NeZero.one_le leaves address.toNat, ?_⟩
  intro T addressBits pathWires leaf start σ g hbits hleaf hpath
  have hpath' : pathWires.toList.map σ =
      (List.range d).map fun k => node hashF leafF k (sibling (address.toNat / 2 ^ k)) := by
    rw [hpath, map_map]
    refine map_congr_left fun k _ => ?_
    rw [Function.comp_apply, hnode, baseFieldElementFromHex_hex hr hhex]
  have hleaf' : σ leaf = leafF address.toNat := by
    rw [hleaf, hpadded, baseFieldElementFromHex_hex hr hhex]
  have hfold : foldPath hashF (σ leaf)
      (MerklePathCompute.pathValues σ addressBits pathWires) = node hashF leafF d 0 := by
    rw [pathValues_eq_authPath hbits hpath', hleaf', foldPath_authPath_self hashF leafF ha]
  rw [getRoot_perfect, PerfectTree.root, hnode]
  refine ⟨fun hT hrows => ?_, fun hT hstart haddress hwires => ?_⟩
  · rw [(MerklePathCompute.sound hT hrows).2, hfold]
  · rw [MerklePathCompute.witness_result hT hstart haddress hwires hbits.isBool, hfold]

/-- The paths of a tree over canonical leaves belong to it. -/
theorem pathsAuthenticate_perfect [NeZero d] {leaves : List Bytes}
    (hleaves : ∀ value ∈ leaves, ∃ x : ZMod r, value = elementBytes x) :
    PathsAuthenticate hash hashF bigintFromHex d leaves (perfect hash d leaves) := by
  intro a ha
  refine ⟨_, (List.range d).map fun k =>
      node hash (padded zeroEntry leaves) k (sibling (a / 2 ^ k)),
    computeMerklePath_perfect ha, by simp, ?_, ?_, fun x => ?_⟩
  · rw [Except.mapM_map_eq_ok fun k => fromhex_hex _]
  · rintro address rfl
    exact circuitComputesRoot_perfect hr hhash hhex hleaves ha
  · rw [zip_map']
    refine (foldPath_authPath hash (padded zeroEntry leaves) a d x).trans ?_
    rw [Nat.div_eq_of_lt ha]

end Canonical

/-- **Client paths satisfy the circuit.** For every depth, every field with a hash that is the
client's on canonical bytes, and every history of insertions of canonical leaves and of
recomputations, with no more leaves than floating point numbers can halve: the paths of the tree
authenticate its leaves exactly when the root has been recomputed since the last insertion. -/
theorem pathsAuthenticate_iff (hr : r ≤ 2 ^ 256)
    (hhash : ∀ x y : ZMod r, hash (elementBytes x) (elementBytes y) = elementBytes (hashF x y))
    (hhex : ∀ bs : Bytes, bs.length = 32 → bigintFromHex (hex bs) = fromBig bs) (d : ℕ)
    [NeZero d] (ops : List Operation)
    (hleaves : ∀ value ∈ inserted ops, ∃ x : ZMod r, value = elementBytes x)
    (hfloat : (inserted ops).length ≤ 2 ^ 53 + 1) {t : MerkleTree}
    (hrun : runHistory hash d ops = .ok t) :
    PathsAuthenticate hash hashF bigintFromHex d (inserted ops) t ↔ t.numNewLeaves = 0 := by
  obtain ⟨old, new, rfl, hinserted⟩ := runHistory_pending NeZero.one_le ops hfloat hrun
  constructor
  · intro h
    by_contra hpending
    obtain ⟨path, -, hpath, -⟩ := h 0 (by positivity)
    have hdepth : 1 ≤ (pending hash d old new).depth := NeZero.one_le (n := d)
    rw [computeMerklePath_of_numNewLeaves_ne_zero hdepth hpending 0] at hpath
    cases hpath
  · intro hnone
    obtain rfl : new = [] := length_eq_zero_iff.mp hnone
    rw [append_nil] at hinserted
    rw [pending_nil, hinserted]
    exact pathsAuthenticate_perfect hr hhash hhex hleaves

/-! ### Fields with three elements -/

/-- The hash on bytes of a hash on field elements. -/
def bytesHash (hashF : ZMod r → ZMod r → ZMod r) (x y : Bytes) : Bytes :=
  elementBytes (hashF (fromBig x : ℕ) (fromBig y : ℕ))

/-- Hexadecimal digits read as a number. -/
def readHex (s : String) : ℕ := (intHex s).toOption.getD 0

theorem bytesHash_elementBytes (hr : r ≤ 2 ^ 256) (hashF : ZMod r → ZMod r → ZMod r)
    (x y : ZMod r) :
    bytesHash hashF (elementBytes x) (elementBytes y) = elementBytes (hashF x y) := by
  rw [bytesHash, fromBig_elementBytes hr, fromBig_elementBytes hr]

theorem readHex_hex (bs : Bytes) (hbs : bs.length = 32) : readHex (hex bs) = fromBig bs := by
  have hne : bs ≠ [] := by
    rintro rfl
    cases hbs
  rw [readHex, intHex_hex hne]
  rfl

end Authentication

/-- One leaf and then another in a tree of depth two over the field with three elements, the hash of
which is the sum. -/
theorem pathsAuthenticate_two_leaves :
    TreeHashGadget.sum.Sound (F := ZMod 3) (· + ·) ∧
    TreeHashGadget.sum.Computes (F := ZMod 3) (· + ·) ∧
    ∃ t, runHistory (bytesHash (r := 3) (· + ·)) 2
        [.insert (elementBytes (1 : ZMod 3)), .recomputeRoot,
          .insert (elementBytes (2 : ZMod 3)), .recomputeRoot] = .ok t ∧
      PathsAuthenticate (bytesHash (r := 3) (· + ·)) (r := 3) (· + ·) readHex 2
        [elementBytes (1 : ZMod 3), elementBytes (2 : ZMod 3)] t := by
  have hrun : runHistory (bytesHash (r := 3) (· + ·)) 2
      [.insert (elementBytes (1 : ZMod 3)), .recomputeRoot,
        .insert (elementBytes (2 : ZMod 3)), .recomputeRoot] =
      .ok (perfect (bytesHash (r := 3) (· + ·)) 2
        [elementBytes (1 : ZMod 3), elementBytes (2 : ZMod 3)]) := by
    rw [runHistory, emptyWithDepth_eq, ok_bind]
    exact (runOperations_perfect (by decide) (by decide) [_] (by decide) (by decide) _).trans
      (runOperations_perfect (by decide) (by decide) [_] (by decide) (by decide) [])
  refine ⟨TreeHashGadget.sum_sound, TreeHashGadget.sum_computes, _, hrun, ?_⟩
  refine (pathsAuthenticate_iff (by norm_num) (bytesHash_elementBytes (by norm_num) _) readHex_hex 2
    _ (fun value hvalue => ?_) (by decide) hrun).mpr rfl
  rcases mem_pair.mp hvalue with rfl | rfl
  · exact ⟨1, rfl⟩
  · exact ⟨2, rfl⟩

/-! ### A tree whose layers were rounded -/

/-- A hash that gives `1` to every pair of equal children `0` or `1`, and marks with `2` the nodes
above all others. -/
def markHash (x y : ZMod 3) : ZMod 3 := if x = y ∧ x ≠ 2 then 1 else 2

/-- Above an even number of leaves `1` there is no mark. -/
theorem node_markHash_leaves {e : ℕ} (heven : e % 2 = 0) (h i : ℕ) :
    node markHash (fun j => if j < e then 1 else 0) (h + 1) i = 1 := by
  induction h generalizing i with
  | zero =>
    rw [node_succ, node_zero, node_zero]
    by_cases hi : 2 * i < e
    · rw [if_pos hi, if_pos (by omega)]
      rfl
    · rw [if_neg hi, if_neg (by omega)]
      rfl
  | succ h ih =>
    rw [node_succ, ih, ih]
    rfl

/-- A mark is not lost on a path. -/
theorem foldPath_markHash (path : List (Bool × Bytes)) :
    foldPath (bytesHash markHash) (elementBytes (2 : ZMod 3)) path = elementBytes (2 : ZMod 3) := by
  have hleft (y : ZMod 3) : markHash 2 y = 2 := if_neg fun h => h.2 rfl
  have hright (x : ZMod 3) : markHash x 2 = 2 := if_neg fun h => h.2 h.1
  have htwo : ((fromBig (elementBytes (2 : ZMod 3)) : ℕ) : ZMod 3) = 2 :=
    fromBig_elementBytes (by norm_num) 2
  induction path with
  | nil => rfl
  | cons p path ih =>
    have hparent : parent (bytesHash markHash) (elementBytes (2 : ZMod 3)) p =
        elementBytes (2 : ZMod 3) := by
      rw [parent]
      split_ifs
      · rw [bytesHash, htwo, hright]
      · rw [bytesHash, htwo, hleft]
    rw [foldPath, foldl_cons, hparent]
    exact ih

/-- The root of the tree over the leaves has no mark. -/
theorem node_rounded_leaves {e a : ℕ} (ha : a < e) (heven : e % 2 = 0) (h : ℕ) :
    node (bytesHash markHash) (Function.update
        (padded zeroEntry (List.replicate e (elementBytes (1 : ZMod 3)))) a
        (elementBytes (1 : ZMod 3))) (h + 1) 0 =
      elementBytes (1 : ZMod 3) := by
  have hpadded : padded zeroEntry (List.replicate e (elementBytes (1 : ZMod 3))) =
      fun j => elementBytes (if j < e then (1 : ZMod 3) else 0) := by
    funext j
    by_cases hj : j < e
    · rw [if_pos hj, padded, getD_eq_getElem _ _ (by rwa [length_replicate]),
        getElem_replicate]
    · rw [if_neg hj, elementBytes_zero,
        padded_of_length_le _ (by rw [length_replicate]; omega)]
  have hself : padded zeroEntry (List.replicate e (elementBytes (1 : ZMod 3))) a =
      elementBytes (1 : ZMod 3) := by
    rw [hpadded]
    simp only [if_pos ha]
  rw [Function.update_eq_self_iff.mpr hself.symm, hpadded,
    node_map (bytesHash_elementBytes (show 3 ≤ 2 ^ 256 by norm_num) markHash),
    node_markHash_leaves heven]

/-- When the parents of the leaves are rounded up, the path of the last leaf but one has the entry
that is not a hash, and does not belong to the tree of the leaves. -/
theorem not_pathsAuthenticate_of_rounded {m : ℕ} (hm : 1 ≤ m) (hm' : m < 53)
    (hround : intHalf (2 ^ (m + 1) + 2 + 1) = .ok ((2 ^ (m + 1) + 2) / 2 + 1)) :
    ∃ t, runHistory (bytesHash markHash) (m + 2)
        ((List.replicate (2 ^ (m + 1) + 2) (elementBytes (1 : ZMod 3))).map .insert ++
          [.recomputeRoot]) = .ok t ∧
      t.numNewLeaves = 0 ∧
      ¬ PathsAuthenticate (bytesHash markHash) markHash readHex (m + 2)
        (inserted ((List.replicate (2 ^ (m + 1) + 2) (elementBytes (1 : ZMod 3))).map .insert ++
          [.recomputeRoot])) t := by
  obtain ⟨e, he⟩ : ∃ e, e = 2 ^ (m + 1) + 2 := ⟨_, rfl⟩
  have hpow : 2 ^ (m + 1) = 2 * 2 ^ m := pow_succ' 2 m
  have hpow' : 2 ^ (m + 2) = 2 * 2 ^ (m + 1) := pow_succ' 2 (m + 1)
  have hhalf : e / 2 = 2 ^ m + 1 := by omega
  have htwo : 2 ^ 1 ≤ 2 ^ m := Nat.pow_le_pow_right two_pos hm
  have heven : 2 ^ m % 2 = 0 := by
    obtain ⟨k, rfl⟩ := Nat.exists_eq_add_of_le' hm
    rw [pow_succ', Nat.mul_mod_right]
  have hfloat : 2 ^ m + 1 ≤ 2 ^ 53 := by
    have := Nat.pow_le_pow_right two_pos (show m + 1 ≤ 53 by omega)
    omega
  rw [← he] at hround ⊢
  obtain ⟨t, root, hroot, hdepth, hnone, hleaf, hentry⟩ :=
    @recomputeRoot_rounded (bytesHash markHash) e (m + 1) (by omega) (by omega) hround
      (by omega) (by omega) (by omega) (by omega) (elementBytes (1 : ZMod 3))
  refine ⟨t, ?_, hnone, fun h => ?_⟩
  · rw [runHistory, emptyWithDepth_eq, ok_bind, runOperations_inserts, ← pending_nil,
      insertAll_pending (by omega) _ ?_, ok_bind, nil_append, runOperations,
      applyOperation, hroot]
    · rfl
    · rw [append_nil, nil_append, length_replicate]
      omega
  · obtain ⟨path, siblings, hpath, -, hsiblings, -, hfold⟩ := h (2 ^ (m + 1)) (by omega)
    have hfirst : sibling (2 ^ (m + 1)) = e - 1 := by
      rw [sibling, if_neg (by omega)]
      omega
    have hsecond : sibling (2 ^ (m + 1) / 2) = e / 2 := by
      rw [sibling, if_neg (by omega)]
      omega
    rw [computeMerklePath_natCast, hdepth, merklePathFrom_succ, hfirst, hleaf, ok_bind,
      merklePathFrom_succ, hsecond, hentry, ok_bind] at hpath
    obtain ⟨_, hpath, heq⟩ := bind_eq_ok.mp hpath
    obtain ⟨rest, -, heq'⟩ := bind_eq_ok.mp hpath
    cases heq
    cases heq'
    simp only [mapM_cons, fromhex_hex, ok_bind] at hsiblings
    obtain ⟨_, hsiblings, heq⟩ := bind_eq_ok.mp hsiblings
    obtain ⟨siblings, -, heq'⟩ := bind_eq_ok.mp hsiblings
    cases heq
    cases heq'
    -- the two lowest bits of the address are zero
    have hbits : (List.range (m + 2)).map (2 ^ (m + 1)).testBit =
        false :: false :: (List.range m).map fun i => (2 ^ (m + 1)).testBit (i + 2) := by
      rw [range_succ_eq_map, range_succ_eq_map, map_cons, map_cons,
        map_cons, map_map, map_map, Nat.testBit_two_pow_of_ne (by omega),
        Nat.testBit_two_pow_of_ne (by omega)]
      rfl
    have hmark : bytesHash markHash (bytesHash markHash (elementBytes (1 : ZMod 3))
        (elementBytes (1 : ZMod 3))) zeroEntry = elementBytes (2 : ZMod 3) := by
      rw [← elementBytes_zero (r := 3), bytesHash_elementBytes (by norm_num),
        bytesHash_elementBytes (by norm_num)]
      rfl
    have hroots := hfold (elementBytes (1 : ZMod 3))
    rw [hbits, zip_cons_cons, zip_cons_cons, foldPath, foldl_cons, foldl_cons,
      parent, parent, if_neg Bool.false_ne_true, if_neg Bool.false_ne_true, hmark, ← foldPath,
      foldPath_markHash, inserted_inserts, inserted, inserted, append_nil,
      node_rounded_leaves (by omega) (by omega)] at hroots
    exact absurd hroots (by decide)

/-- After `2 ^ 53 + 2` insertions and a recomputation in a tree of depth `54` no leaf is pending, and
the path of the last leaf but one does not belong to the tree of the leaves. The bytes of the leaves
are canonical, the two hashes agree and hexadecimal strings read back. -/
theorem not_pathsAuthenticate :
    (∀ x y : ZMod 3,
      bytesHash markHash (elementBytes x) (elementBytes y) = elementBytes (markHash x y)) ∧
    (∀ bs : Bytes, bs.length = 32 → readHex (hex bs) = fromBig bs) ∧
    ∃ t, runHistory (bytesHash markHash) 54
        ((List.replicate (2 ^ 53 + 2) (elementBytes (1 : ZMod 3))).map .insert ++
          [.recomputeRoot]) = .ok t ∧
      t.numNewLeaves = 0 ∧
      ¬ PathsAuthenticate (bytesHash markHash) markHash readHex 54
        (inserted ((List.replicate (2 ^ 53 + 2) (elementBytes (1 : ZMod 3))).map .insert ++
          [.recomputeRoot])) t :=
  ⟨bytesHash_elementBytes (by norm_num) markHash, readHex_hex,
    not_pathsAuthenticate_of_rounded (m := 52) (by decide) (by decide) intHalf_rounded⟩

end MerkleTree

end Client

end Zeth
