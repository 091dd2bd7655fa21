import Mathlib.Logic.Function.Basic
import Zeth.Foundation.Except
import Zeth.Foundation.PerfectTree

/-!
# The Merkle tree of the mixer contract

The contract keeps all nodes of its tree in one array (`AbstractMerkleTree.sol`): the root at index
`0`, the children of the node at index `i` at `2 * i + 1` and `2 * i + 2`, and so the `2 ^ k` nodes
of the layer `k` at the indices from `2 ^ k - 1` on. The last entry of each layer starts out as the
default value of that layer and is overwritten when the layer fills up. Leaves are appended by
`insert`, and `_recomputeRoot` then recomputes, layer by layer and from right to left, the nodes
above the leaves that were appended since the last call.

The depth, the type of the nodes, the hash and the default leaf are parameters; the contract has
depth `32` and `bytes32` nodes. Indices are natural numbers: below depth `255` no index leaves the
range of `uint256`, and from there on the constants of the contract do not fit a word.

The field `trace` is not storage. It records the writes of leaves and inner nodes and the reads of
the last entry of a layer in the place of a missing right sibling, the latest access first.

## Main definitions

* `AbstractMerkleTree.Tree`, `AbstractMerkleTree.initializeTree`, `AbstractMerkleTree.insert`,
  `AbstractMerkleTree.recomputeParentLayer`, `AbstractMerkleTree.recomputeRoot`.
-/

namespace Zeth.AbstractMerkleTree

open List

variable {α : Type*} (hash : α → α → α) (zero : α) (d : ℕ)

/-! ### Storage -/

/-- An access to the array of nodes that matters for the last entry of a layer. -/
inductive Access where
  /-- A leaf or an inner node is stored at the index. -/
  | write (idx : ℕ)
  /-- The entry is read as the default value of its layer. -/
  | readDefault (idx : ℕ)
  deriving DecidableEq, Repr

/-- The storage of the tree, with the record of its accesses. -/
structure Tree (α : Type*) where
  /-- `_nodes`. -/
  nodes : ℕ → α
  /-- `_numLeaves`. -/
  numLeaves : ℕ
  /-- The accesses so far, the latest first. -/
  trace : List Access

/-- `_nodes[idx] = value`, for a leaf or an inner node. -/
def Tree.store (t : Tree α) (idx : ℕ) (value : α) : Tree α :=
  { t with nodes := Function.update t.nodes idx value, trace := .write idx :: t.trace }

/-- The record of a read of `_nodes[idx]` as the default value of its layer. -/
def Tree.noteDefault (t : Tree α) (idx : ℕ) : Tree α :=
  { t with trace := .readDefault idx :: t.trace }

/-- The leaves at the addresses below `_numLeaves`. -/
def Tree.leaves (t : Tree α) : List α :=
  (List.range t.numLeaves).map fun i => t.nodes (2 ^ d - 1 + i)

@[simp] theorem Tree.store_nodes (t : Tree α) (idx : ℕ) (value : α) :
    (t.store idx value).nodes = Function.update t.nodes idx value := rfl

@[simp] theorem Tree.store_numLeaves (t : Tree α) (idx : ℕ) (value : α) :
    (t.store idx value).numLeaves = t.numLeaves := rfl

@[simp] theorem Tree.store_trace (t : Tree α) (idx : ℕ) (value : α) :
    (t.store idx value).trace = .write idx :: t.trace := rfl

@[simp] theorem Tree.noteDefault_nodes (t : Tree α) (idx : ℕ) :
    (t.noteDefault idx).nodes = t.nodes := rfl

@[simp] theorem Tree.noteDefault_numLeaves (t : Tree α) (idx : ℕ) :
    (t.noteDefault idx).numLeaves = t.numLeaves := rfl

@[simp] theorem Tree.noteDefault_trace (t : Tree α) (idx : ℕ) :
    (t.noteDefault idx).trace = .readDefault idx :: t.trace := rfl

/-! ### Initialisation -/

/-- The loop of `_initializeTree` over the layers above the leaves. -/
def initializeLayers (nodes : ℕ → α) (defaultValue : α) (layerSize : ℕ) : ℕ → α :=
  if 0 < layerSize then
    let defaultValue := hash defaultValue defaultValue
    initializeLayers (Function.update nodes (2 * layerSize - 2) defaultValue) defaultValue
      (layerSize / 2)
  else nodes
termination_by layerSize

/-- `_initializeTree`, on the zeroed storage of a new contract. -/
def initializeTree : Tree α where
  nodes := initializeLayers hash (Function.update (fun _ => zero) (2 * 2 ^ d - 2) zero) zero
    (2 ^ d / 2)
  numLeaves := 0
  trace := []

/-! ### Appending leaves -/

/-- `insert`. -/
def insert (t : Tree α) (commitment : α) : Except String (Tree α) :=
  if t.numLeaves < 2 ^ d then
    .ok { t.store (2 ^ d - 1 + t.numLeaves) commitment with numLeaves := t.numLeaves + 1 }
  else .error "Merkle tree full: Cannot append anymore"

/-- Calls of `insert` one after the other. -/
def insertAll (t : Tree α) : List α → Except String (Tree α)
  | [] => .ok t
  | c :: cs => do insertAll (← insert d t c) cs

/-! ### Recomputing the root -/

/-- `x & _MASK_LS_BIT`, the mask being `~uint256(1)` (`maskLsBit_eq_and`). -/
def maskLsBit (x : ℕ) : ℕ := x - x % 2

/-- The loop of `_recomputeParentLayer` over the populated pairs, from right to left. -/
def recomputePairs (t : Tree α) (childLeftIdx childLeftIdxRend : ℕ) : Tree α :=
  if childLeftIdx > childLeftIdxRend then
    let childLeftIdx := childLeftIdx - 2
    recomputePairs
      (t.store ((childLeftIdx - 1) / 2)
        (hash (t.nodes childLeftIdx) (t.nodes (childLeftIdx + 1))))
      childLeftIdx childLeftIdxRend
  else t
termination_by childLeftIdx

/-- `_recomputeParentLayer`: the nodes above the entries `[childStartIdx, childEndIdx[` of a layer
are recomputed, and the range of the recomputed nodes in their layer is returned. -/
def recomputeParentLayer (t : Tree α) (childLayerSize childStartIdx childEndIdx : ℕ) :
    Tree α × ℕ × ℕ :=
  let childLayerStart := childLayerSize - 1
  let childLeftIdxRend := childLayerStart + maskLsBit childStartIdx
  let (t, childLeftIdx) :=
    if childEndIdx &&& 1 ≠ 0 then
      -- the right sibling is missing: the last entry of the layer stands in for it
      let childLeftIdx := childLayerStart + childEndIdx - 1
      ((t.noteDefault (2 * childLayerStart)).store ((childLeftIdx - 1) / 2)
        (hash (t.nodes childLeftIdx) (t.nodes (2 * childLayerStart))), childLeftIdx)
    else (t, childLayerStart + childEndIdx)
  (recomputePairs hash t childLeftIdx childLeftIdxRend, childStartIdx / 2, (childEndIdx + 1) / 2)

/-- The loop of `_recomputeRoot` over the layers. -/
def recomputeLayers (t : Tree α) (layerSize startIdx endIdx : ℕ) : Tree α :=
  if layerSize > 1 then
    let (t, startIdx, endIdx) := recomputeParentLayer hash t layerSize startIdx endIdx
    recomputeLayers t (layerSize / 2) startIdx endIdx
  else t
termination_by layerSize

/-- `_recomputeRoot`. The checked subtraction `_numLeaves - numNewLeaves` reverts on underflow. -/
def recomputeRoot (t : Tree α) (numNewLeaves : ℕ) : Except String (Tree α × α) :=
  if numNewLeaves ≤ t.numLeaves then
    let endIdx := t.numLeaves
    let startIdx := t.numLeaves - numNewLeaves
    let t := recomputeLayers hash t (2 ^ d) startIdx endIdx
    .ok (t, t.nodes 0)
  else .error "Panic(0x11)"

/-! ### What one step does -/

/-- On words, `maskLsBit` is the bitwise conjunction of the source. -/
theorem maskLsBit_eq_and {x : ℕ} (hx : x < 2 ^ 256) : maskLsBit x = x &&& (2 ^ 256 - 2) := by
  have hmask : (2 ^ 256 - 2 : ℕ) = 2 * (2 ^ 255 - 1) := by norm_num
  refine Nat.eq_of_testBit_eq fun i => ?_
  rw [Nat.testBit_and, hmask]
  have hx2 : maskLsBit x = 2 * (x / 2) := by
    unfold maskLsBit
    omega
  rw [hx2]
  cases i with
  | zero => simp
  | succ i =>
    simp only [Nat.testBit_succ, Nat.mul_div_cancel_left _ two_pos, Nat.testBit_two_pow_sub_one]
    by_cases hi : i < 255
    · simp [hi]
    · have : x / 2 < 2 ^ i := by
        calc x / 2 < 2 ^ 255 := by omega
          _ ≤ 2 ^ i := Nat.pow_le_pow_right two_pos (by omega)
      simp [Nat.testBit_lt_two_pow this]

theorem insert_ok {t : Tree α} (ht : t.numLeaves < 2 ^ d) (c : α) :
    insert d t c =
      .ok { t.store (2 ^ d - 1 + t.numLeaves) c with numLeaves := t.numLeaves + 1 } :=
  if_pos ht

/-- The loop over the populated pairs hashes the children of every node of `[lo, hi[`. The nodes
are written from right to left and lie to the left of all children read, as `hi ≤ 2 * lo + 1`. -/
theorem recomputePairs_spec (t : Tree α) {lo hi : ℕ} (hle : lo ≤ hi) (hhi : hi ≤ 2 * lo + 1) :
    recomputePairs hash t (2 * hi + 1) (2 * lo + 1) =
      { t with
        nodes := fun i =>
          if lo ≤ i ∧ i < hi then hash (t.nodes (2 * i + 1)) (t.nodes (2 * i + 2)) else t.nodes i
        trace := (List.range' lo (hi - lo)).map .write ++ t.trace } := by
  induction hn : hi - lo generalizing t hi with
  | zero =>
    have hlo : hi = lo := by omega
    have hempty : ∀ i, ¬ (lo ≤ i ∧ i < hi) := by omega
    rw [recomputePairs, if_neg (by omega)]
    simp only [hempty, if_false, List.range'_zero, map_nil, nil_append]
  | succ n ih =>
    obtain ⟨m, rfl⟩ : ∃ m, hi = m + 1 := ⟨hi - 1, by omega⟩
    have hleft : 2 * (m + 1) + 1 - 2 = 2 * m + 1 := by omega
    have hidx : (2 * m + 1 - 1) / 2 = m := by omega
    rw [recomputePairs, if_pos (by omega)]
    simp only [hleft, hidx]
    rw [ih _ (by omega) (by omega) (by omega)]
    simp only [Tree.store_nodes, Tree.store_numLeaves, Tree.store_trace, Tree.mk.injEq, true_and]
    constructor
    · funext i
      by_cases him : i = m
      · subst him
        rw [if_neg (by omega), if_pos (by omega), Function.update_self]
      · by_cases hi : lo ≤ i ∧ i < m
        · rw [if_pos hi, if_pos (by omega), Function.update_of_ne (by omega),
            Function.update_of_ne (by omega)]
        · rw [if_neg hi, if_neg (by omega), Function.update_of_ne him]
    · have hm : lo + n = m := by omega
      rw [List.range'_concat, map_append, append_assoc, one_mul, hm]
      rfl

/-- The value that stands at the index `i` after the layer of the array that starts at `ps` has been
recomputed from its child layer: the nodes above the entries `[startIdx, endIdx[` are rehashed. -/
def parentLayerNodes (nodes : ℕ → α) (ps startIdx endIdx i : ℕ) : α :=
  if ps + startIdx / 2 ≤ i ∧ i < ps + (endIdx + 1) / 2 then
    hash (nodes (2 * i + 1))
      (if 2 * i + 2 < 2 * ps + 1 + endIdx then nodes (2 * i + 2) else nodes (4 * ps + 2))
  else nodes i

theorem parentLayerNodes_of_lt {nodes : ℕ → α} {ps startIdx endIdx i : ℕ}
    (hi : i < ps + startIdx / 2) : parentLayerNodes hash nodes ps startIdx endIdx i = nodes i :=
  if_neg (by omega)

theorem parentLayerNodes_of_le {nodes : ℕ → α} {ps startIdx endIdx i : ℕ}
    (hi : ps + (endIdx + 1) / 2 ≤ i) : parentLayerNodes hash nodes ps startIdx endIdx i = nodes i :=
  if_neg (by omega)

/-- The accesses of `_recomputeParentLayer`, the latest first. -/
def parentLayerTrace (ps startIdx endIdx : ℕ) : List Access :=
  (List.range' (ps + startIdx / 2) ((endIdx + 1) / 2 - startIdx / 2)).map .write ++
    if endIdx % 2 = 1 then [.readDefault (4 * ps + 2)] else []

/-- What `_recomputeParentLayer` does to the tree. The parent layer starts at the index `ps`, so the
child layer has `2 * ps + 2` entries. -/
theorem recomputeParentLayer_spec (t : Tree α) {ps startIdx endIdx : ℕ} (hse : startIdx ≤ endIdx)
    (hend : endIdx ≤ 2 * ps + 2) :
    recomputeParentLayer hash t (2 * ps + 2) startIdx endIdx =
      ({ t with
          nodes := parentLayerNodes hash t.nodes ps startIdx endIdx
          trace := parentLayerTrace ps startIdx endIdx ++ t.trace },
        startIdx / 2, (endIdx + 1) / 2) := by
  have hrend : 2 * ps + 2 - 1 + maskLsBit startIdx = 2 * (ps + startIdx / 2) + 1 := by
    unfold maskLsBit
    omega
  unfold recomputeParentLayer
  simp only [Nat.and_one_is_mod, hrend]
  by_cases hodd : endIdx % 2 = 1
  · -- the last node is written first, from its left child and the last entry of the child layer
    have hleft : 2 * ps + 2 - 1 + endIdx - 1 = 2 * (ps + endIdx / 2) + 1 := by omega
    have hidx : (2 * (ps + endIdx / 2) + 1 - 1) / 2 = ps + endIdx / 2 := by omega
    have hlast : 2 * (2 * ps + 2 - 1) = 4 * ps + 2 := by omega
    rw [if_pos (by omega)]
    simp only [hleft, hidx, hlast]
    rw [recomputePairs_spec hash _ (by omega) (by omega)]
    simp only [Tree.store_nodes, Tree.store_numLeaves, Tree.store_trace, Tree.noteDefault_nodes,
      Tree.noteDefault_numLeaves, Tree.noteDefault_trace, Prod.mk.injEq, Tree.mk.injEq, true_and,
      and_true]
    constructor
    · funext i
      simp only [parentLayerNodes]
      by_cases hi : i = ps + endIdx / 2
      · subst hi
        rw [if_neg (by omega), if_pos (by omega), if_neg (by omega), Function.update_self]
      · by_cases hr : ps + startIdx / 2 ≤ i ∧ i < ps + endIdx / 2
        · rw [if_pos hr, if_pos (by omega), if_pos (by omega), Function.update_of_ne (by omega),
            Function.update_of_ne (by omega)]
        · rw [if_neg hr, if_neg (by omega), Function.update_of_ne hi]
    · have hlen : (endIdx + 1) / 2 - startIdx / 2 =
          ps + endIdx / 2 - (ps + startIdx / 2) + 1 := by omega
      have hm : ps + startIdx / 2 + (ps + endIdx / 2 - (ps + startIdx / 2)) = ps + endIdx / 2 := by
        omega
      rw [parentLayerTrace, if_pos hodd, hlen, List.range'_concat, one_mul, hm]
      simp
  · have hleft : 2 * ps + 2 - 1 + endIdx = 2 * (ps + endIdx / 2) + 1 := by omega
    rw [if_neg (by omega)]
    simp only [hleft]
    rw [recomputePairs_spec hash _ (by omega) (by omega)]
    simp only [Prod.mk.injEq, Tree.mk.injEq, true_and, and_true]
    constructor
    · funext i
      simp only [parentLayerNodes]
      by_cases hr : ps + startIdx / 2 ≤ i ∧ i < ps + endIdx / 2
      · rw [if_pos hr, if_pos (by omega), if_pos (by omega)]
      · rw [if_neg hr, if_neg (by omega)]
    · have hlen : (endIdx + 1) / 2 - startIdx / 2 = ps + endIdx / 2 - (ps + startIdx / 2) := by
        omega
      rw [parentLayerTrace, if_neg hodd, hlen, append_nil]

/-! ### What stays as it is -/

/-- `insert` appends to the leaves. -/
theorem insert_leaves {t t' : Tree α} {c : α} (h : insert d t c = .ok t') :
    t'.leaves d = t.leaves d ++ [c] ∧ t'.numLeaves = t.numLeaves + 1 ∧ t'.numLeaves ≤ 2 ^ d := by
  unfold insert at h
  split_ifs at h with hlt
  cases h
  refine ⟨?_, rfl, hlt⟩
  simp only [Tree.leaves, Tree.store_nodes, range_succ, map_append, map_cons,
    map_nil, Function.update_self, append_cancel_right_eq]
  refine map_congr_left fun i hi => ?_
  have hi' : i < t.numLeaves := mem_range.mp hi
  rw [Function.update_of_ne (by omega)]

/-- Leaves that fit are appended. -/
theorem insertAll_ok {t : Tree α} {cs : List α} (ht : t.numLeaves + cs.length ≤ 2 ^ d) :
    ∃ t', insertAll d t cs = .ok t' := by
  induction cs generalizing t with
  | nil => exact ⟨t, rfl⟩
  | cons c cs ih =>
    rw [length_cons] at ht
    rw [insertAll, insert_ok d (by omega), Except.ok_bind]
    refine ih ?_
    simp only
    omega

theorem insertAll_leaves {t t' : Tree α} {cs : List α} (ht : t.numLeaves ≤ 2 ^ d)
    (h : insertAll d t cs = .ok t') :
    t'.leaves d = t.leaves d ++ cs ∧ t'.numLeaves = t.numLeaves + cs.length ∧
      t'.numLeaves ≤ 2 ^ d := by
  induction cs generalizing t with
  | nil =>
    cases h
    simp [ht]
  | cons c cs ih =>
    obtain ⟨t₁, hinsert, hrest⟩ := Except.bind_eq_ok.mp h
    obtain ⟨hleaves₁, hnum₁, hle₁⟩ := insert_leaves d hinsert
    obtain ⟨hleaves, hnum, hle⟩ := ih hle₁ hrest
    refine ⟨?_, ?_, hle⟩
    · rw [hleaves, hleaves₁, append_assoc, singleton_append]
    · rw [hnum, hnum₁, length_cons]
      omega

/-- The layers above the leaves are stored before them, so recomputing them leaves the leaves as
they are, whatever the nodes were before. -/
theorem recomputeLayers_frame (t : Tree α) {k startIdx endIdx : ℕ} (hse : startIdx ≤ endIdx)
    (hend : endIdx ≤ 2 ^ k) :
    (recomputeLayers hash t (2 ^ k) startIdx endIdx).numLeaves = t.numLeaves ∧
      ∀ i, 2 ^ k - 1 ≤ i →
        (recomputeLayers hash t (2 ^ k) startIdx endIdx).nodes i = t.nodes i := by
  induction k generalizing t startIdx endIdx with
  | zero =>
    rw [recomputeLayers, if_neg (by simp)]
    exact ⟨rfl, fun _ _ => rfl⟩
  | succ k ih =>
    have hpos : 0 < 2 ^ k := by positivity
    have hsize : 2 ^ (k + 1) = 2 * (2 ^ k - 1) + 2 := by
      rw [pow_succ]
      omega
    have hhalf : (2 * (2 ^ k - 1) + 2) / 2 = 2 ^ k := by omega
    rw [hsize] at hend ⊢
    rw [recomputeLayers, if_pos (by omega), recomputeParentLayer_spec hash t hse hend, hhalf]
    obtain ⟨hnum, hnodes⟩ := ih
      { t with
        nodes := parentLayerNodes hash t.nodes (2 ^ k - 1) startIdx endIdx
        trace := parentLayerTrace (2 ^ k - 1) startIdx endIdx ++ t.trace }
      (show startIdx / 2 ≤ (endIdx + 1) / 2 by omega) (by omega)
    refine ⟨hnum, fun i hi => ?_⟩
    rw [hnodes i (by omega)]
    exact parentLayerNodes_of_le hash (by omega)

theorem recomputeRoot_frame {t t' : Tree α} {n : ℕ} {root : α} (ht : t.numLeaves ≤ 2 ^ d)
    (h : recomputeRoot hash d t n = .ok (t', root)) :
    t'.leaves d = t.leaves d ∧ t'.numLeaves = t.numLeaves ∧ root = t'.nodes 0 := by
  unfold recomputeRoot at h
  split_ifs at h
  cases h
  obtain ⟨hnum, hnodes⟩ := recomputeLayers_frame hash t (show t.numLeaves - n ≤ t.numLeaves by
    omega) ht
  refine ⟨?_, hnum, rfl⟩
  simp only [Tree.leaves, hnum]
  refine map_congr_left fun i _ => hnodes _ ?_
  omega

end Zeth.AbstractMerkleTree
