import Zeth.Contract.MerkleTree

/-!
# The root kept by the contract

After any history of batches, each inserting leaves and recomputing the root above them, the
contract's array holds the perfect tree over all leaves padded with the default leaf. The array
shares the last entry of each layer between the default value of the layer and its last node, and
only the nodes above new leaves are recomputed, so the invariant speaks of partly recomputed trees:
`Consistent d hash zero t leaves s h` says that the layers of height at most `h` are those of the
perfect tree over `leaves`, that in every layer the nodes above the leaves before `s` are, that the
last entry of a layer which is not full is its default, and that no default was read after a node
had been stored over it.

## Main definitions

* `AbstractMerkleTree.slot`: the index of a node in the array.
* `AbstractMerkleTree.DefaultsFresh`: no default is read after having been overwritten.
* `AbstractMerkleTree.Consistent`, `AbstractMerkleTree.Complete`.
* `AbstractMerkleTree.addBatch`, `AbstractMerkleTree.runBatches`.

## Main results

* `AbstractMerkleTree.complete_initializeTree`, `AbstractMerkleTree.Consistent.insert`,
  `AbstractMerkleTree.Consistent.recomputeParentLayer`.
* `AbstractMerkleTree.Complete.addBatch`: one batch.
* `AbstractMerkleTree.runBatches_root`: every history of batches.
-/

namespace Zeth.AbstractMerkleTree

open PerfectTree List

variable {α : Type*} (hash : α → α → α) (zero : α) (d : ℕ)

/-! ### Indices of the array -/

/-- The index in the array of the node `i` of the layer with `2 ^ k` nodes. -/
def slot (k i : ℕ) : ℕ := 2 ^ k - 1 + i

theorem slot_inj {k i k' i' : ℕ} (hi : i < 2 ^ k) (hi' : i' < 2 ^ k')
    (h : slot k i = slot k' i') : k = k' ∧ i = i' := by
  unfold slot at h
  rcases lt_trichotomy k k' with hk | rfl | hk
  · have : 2 ^ (k + 1) ≤ 2 ^ k' := Nat.pow_le_pow_right two_pos hk
    rw [pow_succ] at this
    omega
  · exact ⟨rfl, by omega⟩
  · have : 2 ^ (k' + 1) ≤ 2 ^ k := Nat.pow_le_pow_right two_pos hk
    rw [pow_succ] at this
    omega

/-- The layers follow each other in the array, the smaller first. -/
theorem slot_lt_of_lt {k i k' : ℕ} (hi : i < 2 ^ k) (hk : k < k') (i' : ℕ) :
    slot k i < slot k' i' := by
  have : 2 ^ (k + 1) ≤ 2 ^ k' := Nat.pow_le_pow_right two_pos hk
  rw [pow_succ] at this
  unfold slot
  omega

theorem slot_left (k i : ℕ) : 2 * slot k i + 1 = slot (k + 1) (2 * i) := by
  have : 0 < 2 ^ k := by positivity
  unfold slot
  rw [pow_succ]
  omega

theorem slot_right (k i : ℕ) : 2 * slot k i + 2 = slot (k + 1) (2 * i + 1) := by
  have : 0 < 2 ^ k := by positivity
  unfold slot
  rw [pow_succ]
  omega

/-! ### Partly recomputed trees -/

/-- No entry is read as the default of its layer after a node has been stored over it. The latest
access comes first. -/
def DefaultsFresh (trace : List Access) : Prop :=
  trace.Pairwise fun later earlier => ∀ idx, later = .readDefault idx → earlier ≠ .write idx

/-- The layers up to height `h` are recomputed for `leaves`, and the others were for the first `s`
of them. -/
structure Consistent (t : Tree α) (leaves : List α) (s h : ℕ) : Prop where
  numLeaves_eq : t.numLeaves = leaves.length
  length_le : leaves.length ≤ 2 ^ d
  start_le : s ≤ leaves.length
  /-- The layers up to height `h` are those of the perfect tree. -/
  done : ∀ j ≤ h, j ≤ d → ∀ i < populated leaves.length j,
    t.nodes (slot (d - j) i) = node hash (padded zero leaves) j i
  /-- The nodes above leaves before `s` are those of the perfect tree. -/
  kept : ∀ j ≤ d, ∀ i < s / 2 ^ j,
    t.nodes (slot (d - j) i) = node hash (padded zero leaves) j i
  /-- A layer that is not full ends with its default. -/
  last : ∀ j ≤ d, populated leaves.length j < 2 ^ (d - j) →
    t.nodes (slot (d - j) (2 ^ (d - j) - 1)) = PerfectTree.default hash zero j
  /-- Only populated nodes have been stored. -/
  written : ∀ idx, .write idx ∈ t.trace →
    ∃ j ≤ d, ∃ i < populated leaves.length j, idx = slot (d - j) i
  fresh : DefaultsFresh t.trace

/-- All layers are recomputed for `leaves`. -/
def Complete (t : Tree α) (leaves : List α) : Prop :=
  Consistent hash zero d t leaves leaves.length d

variable {hash zero d}

namespace Consistent

variable {t : Tree α} {leaves : List α} {s h : ℕ}

theorem populated_le (hc : Consistent hash zero d t leaves s h) {j : ℕ} (hj : j ≤ d) :
    populated leaves.length j ≤ 2 ^ (d - j) :=
  PerfectTree.populated_le hc.length_le hj

theorem div_le (hc : Consistent hash zero d t leaves s h) {j : ℕ} (hj : j ≤ d) :
    s / 2 ^ j ≤ 2 ^ (d - j) :=
  (Nat.div_le_div_right hc.start_le).trans
    ((div_pow_le_populated _ _).trans (hc.populated_le hj))

/-- The last entry of a layer that is not full has not been written. -/
theorem write_last_notMem (hc : Consistent hash zero d t leaves s h) {j : ℕ} (hj : j ≤ d)
    (hlt : populated leaves.length j < 2 ^ (d - j)) :
    Access.write (slot (d - j) (2 ^ (d - j) - 1)) ∉ t.trace := by
  intro hmem
  obtain ⟨j', hj', i, hi, heq⟩ := hc.written _ hmem
  obtain ⟨hk, hi'⟩ := slot_inj (by omega) (hi.trans_le (hc.populated_le hj')) heq
  have : j = j' := by omega
  subst this
  omega

/-- The range handed to the next layer by `_recomputeParentLayer` is the one of that layer. -/
theorem range_le (hc : Consistent hash zero d t leaves s h) (hh : h ≤ d) :
    s / 2 ^ h ≤ populated leaves.length h ∧ populated leaves.length h ≤ 2 ^ (d - h) :=
  ⟨(Nat.div_le_div_right hc.start_le).trans (div_pow_le_populated _ _), hc.populated_le hh⟩

/-- Appending a leaf leaves the layers above stale and nothing else. -/
theorem insert (hc : Consistent hash zero d t leaves s 0) (hlt : leaves.length < 2 ^ d) (c : α) :
    Consistent hash zero d
      { t.store (2 ^ d - 1 + t.numLeaves) c with numLeaves := t.numLeaves + 1 }
      (leaves ++ [c]) s 0 := by
  have hslot : 2 ^ d - 1 + t.numLeaves = slot d leaves.length := by
    rw [hc.numLeaves_eq, slot]
  have hmono (j : ℕ) : populated leaves.length j ≤ populated (leaves ++ [c]).length j :=
    populated_mono (by simp) j
  have hoff {j i : ℕ} (hj : j ≤ d) (hi : i < 2 ^ (d - j)) (hne : j ≠ 0 ∨ i ≠ leaves.length) :
      slot (d - j) i ≠ slot d leaves.length := by
    intro heq
    obtain ⟨hk, hi'⟩ := slot_inj hi hlt heq
    omega
  simp only [hslot]
  refine ⟨by simp [hc.numLeaves_eq], by rw [length_append]; exact hlt, ?_, ?_, ?_, ?_, ?_, ?_⟩
  · have := hc.start_le
    rw [length_append]
    omega
  · intro j hj hjd i hi
    obtain rfl : j = 0 := by omega
    simp only [populated_zero, length_append, length_singleton] at hi
    by_cases hil : i = leaves.length
    · subst hil
      simp [padded]
    · have hi' : i < leaves.length := by omega
      rw [Tree.store_nodes, Function.update_of_ne (hoff hjd (by simpa using by omega) (.inr hil)),
        hc.done 0 le_rfl hjd i hi', node_zero, node_zero, padded_append_of_lt _ _ _ hi']
  · intro j hj i hi
    have hi' : (i + 1) * 2 ^ j ≤ leaves.length :=
      ((Nat.le_div_iff_mul_le (by positivity)).mp hi).trans hc.start_le
    rw [Tree.store_nodes, Function.update_of_ne (hoff hj (hi.trans_le (hc.div_le hj)) ?_),
      hc.kept j hj i hi, node_padded_append_of_lt _ _ _ _ hi']
    rcases Nat.eq_zero_or_pos j with rfl | hj0
    · rw [pow_zero] at hi'
      omega
    · omega
  · intro j hj hlast
    have hpos : 0 < 2 ^ (d - j) := by positivity
    rw [Tree.store_nodes, Function.update_of_ne (hoff hj (by omega) ?_),
      hc.last j hj ((hmono j).trans_lt hlast)]
    rcases Nat.eq_zero_or_pos j with rfl | hj0
    · simp only [populated_zero, length_append, length_singleton] at hlast
      omega
    · omega
  · intro idx hidx
    rcases mem_cons.mp hidx with heq | hmem
    · exact ⟨0, by omega, leaves.length, by simp, by simpa using heq⟩
    · obtain ⟨j, hj, i, hi, rfl⟩ := hc.written idx hmem
      exact ⟨j, hj, i, hi.trans_le (hmono j), rfl⟩
  · exact List.Pairwise.cons (fun _ _ _ h => by cases h) hc.fresh

/-- Leaves appended one after the other. -/
theorem insertAll (hc : Consistent hash zero d t leaves s 0) (new : List α)
    (hle : leaves.length + new.length ≤ 2 ^ d) :
    ∃ t', insertAll d t new = .ok t' ∧ Consistent hash zero d t' (leaves ++ new) s 0 := by
  induction new generalizing t leaves with
  | nil => exact ⟨t, rfl, by rwa [append_nil]⟩
  | cons c new ih =>
    rw [length_cons] at hle
    have hlt : leaves.length < 2 ^ d := by omega
    obtain ⟨t', hrun, hc'⟩ := ih (hc.insert hlt c)
      (by rw [length_append, length_singleton]; omega)
    refine ⟨t', ?_, by rwa [append_assoc] at hc'⟩
    rw [AbstractMerkleTree.insertAll, insert_ok d (by rwa [hc.numLeaves_eq])]
    exact hrun

section ParentLayer

/-! The step from the height `h` to `h + 1`, the layer written having `2 ^ k` nodes. -/

variable {k : ℕ} (hk : d = h + 1 + k)

include hk in
private theorem layerSize_eq : 2 ^ (d - h) = 2 * (2 ^ k - 1) + 2 := by
  have hkh : d - h = k + 1 := by omega
  have : 0 < 2 ^ k := by positivity
  rw [hkh, pow_succ]
  omega

include hk in
/-- The layers below are to the right of the nodes written. -/
private theorem nodes_below (hc : Consistent hash zero d t leaves s h) {j : ℕ} (hj : j ≤ h)
    (i : ℕ) :
    parentLayerNodes hash t.nodes (2 ^ k - 1) (s / 2 ^ h) (populated leaves.length h)
      (slot (d - j) i) = t.nodes (slot (d - j) i) := by
  have hle : 2 ^ (d - h) ≤ 2 ^ (d - j) := Nat.pow_le_pow_right two_pos (by omega)
  have hpop := hc.populated_le (j := h) (by omega)
  rw [layerSize_eq hk] at hle hpop
  refine parentLayerNodes_of_le hash ?_
  unfold slot
  omega

include hk in
/-- The layers above are to the left of the nodes written. -/
private theorem nodes_above {j : ℕ} (hj : h + 1 < j) (hjd : j ≤ d) {i : ℕ}
    (hi : i < 2 ^ (d - j)) :
    parentLayerNodes hash t.nodes (2 ^ k - 1) (s / 2 ^ h) (populated leaves.length h)
      (slot (d - j) i) = t.nodes (slot (d - j) i) := by
  have hlt := slot_lt_of_lt hi (show d - j < k by omega) 0
  exact parentLayerNodes_of_lt hash (hlt.trans_le (Nat.le_add_right _ _))

/-- In the layer written, the nodes above leaves before `s` stay. -/
private theorem nodes_kept {i : ℕ} (hi : i < s / 2 ^ (h + 1)) :
    parentLayerNodes hash t.nodes (2 ^ k - 1) (s / 2 ^ h) (populated leaves.length h) (slot k i) =
      t.nodes (slot k i) := by
  rw [pow_succ, ← Nat.div_div_eq_div_mul] at hi
  exact parentLayerNodes_of_lt hash (Nat.add_lt_add_left hi _)

include hk in
/-- In the layer written, the other populated nodes are rehashed. Only the last of them can miss
its right child, and then the layer below is not full and ends with its default. -/
private theorem nodes_rehashed (hc : Consistent hash zero d t leaves s h) {i : ℕ}
    (hi : i < populated leaves.length (h + 1)) (hs : s / 2 ^ (h + 1) ≤ i) :
    parentLayerNodes hash t.nodes (2 ^ k - 1) (s / 2 ^ h) (populated leaves.length h) (slot k i) =
      node hash (padded zero leaves) (h + 1) i := by
  have hh : h ≤ d := by omega
  have hdh : k + 1 = d - h := by omega
  have hsize := layerSize_eq hk
  rw [pow_succ, ← Nat.div_div_eq_div_mul] at hs
  rw [populated_succ] at hi
  have hin : 2 ^ k - 1 + s / 2 ^ h / 2 ≤ slot k i ∧
      slot k i < 2 ^ k - 1 + (populated leaves.length h + 1) / 2 := by
    unfold slot
    omega
  rw [parentLayerNodes, if_pos hin, node_succ, slot_left, hdh, hc.done h le_rfl hh _ (by omega)]
  congr 1
  by_cases hr : 2 * i + 1 < populated leaves.length h
  · rw [if_pos (by unfold slot; omega), slot_right, hdh, hc.done h le_rfl hh _ hr]
  · have hlast : 4 * (2 ^ k - 1) + 2 = slot (d - h) (2 ^ (d - h) - 1) := by
      unfold slot
      omega
    have hmul : leaves.length ≤ (2 * i + 1) * 2 ^ h :=
      (le_populated_mul _ h).trans (Nat.mul_le_mul_right _ (by omega))
    rw [if_neg (by unfold slot; omega), hlast, node_padded_of_length_le _ _ hmul]
    refine hc.last h hh ?_
    have := hc.populated_le hh
    omega

include hk in
/-- The accesses of the step keep the defaults fresh: the entry read ends a layer that is not
full. -/
private theorem fresh_parentLayer (hc : Consistent hash zero d t leaves s h) :
    DefaultsFresh
      (parentLayerTrace (2 ^ k - 1) (s / 2 ^ h) (populated leaves.length h) ++ t.trace) := by
  have hsize := layerSize_eq hk
  have hpop := hc.populated_le (j := h) (by omega)
  have hwrite (a : ℕ) (earlier : Access) (idx : ℕ) :
      Access.write a = .readDefault idx → earlier ≠ .write idx := fun h => by cases h
  unfold DefaultsFresh parentLayerTrace
  rw [append_assoc, pairwise_append]
  refine ⟨pairwise_map.mpr (pairwise_of_forall fun a b => hwrite a (.write b)), ?_, ?_⟩
  · split_ifs with hodd
    · refine List.Pairwise.cons (fun earlier hmem idx hidx hw => ?_) hc.fresh
      obtain rfl : 4 * (2 ^ k - 1) + 2 = idx := by simpa using hidx
      refine hc.write_last_notMem (j := h) (by omega) (by omega) ?_
      have hlast : slot (d - h) (2 ^ (d - h) - 1) = 4 * (2 ^ k - 1) + 2 := by
        unfold slot
        omega
      rwa [hlast, ← hw]
    · exact hc.fresh
  · intro later hl earlier _
    obtain ⟨a, -, rfl⟩ := mem_map.mp hl
    exact hwrite a earlier

/-- `_recomputeParentLayer` brings one more layer up to date. -/
theorem recomputeParentLayer (hc : Consistent hash zero d t leaves s h) (hh : h < d) :
    Consistent hash zero d
      (recomputeParentLayer hash t (2 ^ (d - h)) (s / 2 ^ h) (populated leaves.length h)).1
      leaves s (h + 1) := by
  obtain ⟨k, hk⟩ : ∃ k, d = h + 1 + k := ⟨d - h - 1, by omega⟩
  have hsize := layerSize_eq hk
  have hdk : d - (h + 1) = k := by omega
  obtain ⟨hse, hend⟩ := hc.range_le hh.le
  rw [hsize] at hend
  rw [hsize, recomputeParentLayer_spec hash t hse hend]
  refine ⟨hc.numLeaves_eq, hc.length_le, hc.start_le, ?_, ?_, ?_, ?_, fresh_parentLayer hk hc⟩
  · intro j hj hjd i hi
    dsimp only
    rcases Nat.lt_or_eq_of_le hj with hj | rfl
    · rw [nodes_below hk hc (by omega), hc.done j (by omega) hjd i hi]
    · rw [hdk]
      by_cases hs : s / 2 ^ (h + 1) ≤ i
      · exact nodes_rehashed hk hc hi hs
      · rw [nodes_kept (by omega), ← hdk, hc.kept (h + 1) hjd i (by omega)]
  · intro j hj i hi
    dsimp only
    rcases lt_trichotomy j (h + 1) with hjh | rfl | hjh
    · rw [nodes_below hk hc (by omega), hc.kept j hj i hi]
    · rw [hdk, nodes_kept hi, ← hdk, hc.kept (h + 1) hj i hi]
    · rw [nodes_above hk hjh hj (hi.trans_le (hc.div_le hj)), hc.kept j hj i hi]
  · intro j hj hlast
    dsimp only
    have hpos : 0 < 2 ^ (d - j) := by positivity
    rw [← hc.last j hj hlast]
    rcases lt_trichotomy j (h + 1) with hjh | rfl | hjh
    · exact nodes_below hk hc (by omega) _
    · rw [hdk, populated_succ] at *
      refine parentLayerNodes_of_le hash ?_
      unfold slot
      omega
    · exact nodes_above hk hjh hj (by omega)
  · intro idx hidx
    simp only [parentLayerTrace, mem_append, mem_map, mem_range'_1] at hidx
    rcases hidx with (⟨a, ha, heq⟩ | hmem) | hmem
    · obtain rfl : a = idx := by simpa using heq
      have hnonneg := Nat.zero_le (s / 2 ^ h)
      refine ⟨h + 1, hh, a - (2 ^ k - 1), ?_, ?_⟩
      · rw [populated_succ]
        omega
      · rw [hdk]
        unfold slot
        omega
    · split_ifs at hmem <;> simp at hmem
    · exact hc.written idx hmem

end ParentLayer

/-- The loop of `_recomputeRoot` brings the remaining layers up to date. -/
theorem recomputeLayers {k : ℕ} (hk : h + k = d) (hc : Consistent hash zero d t leaves s h) :
    Consistent hash zero d
      (recomputeLayers hash t (2 ^ k) (s / 2 ^ h) (populated leaves.length h)) leaves s d := by
  induction k generalizing t h with
  | zero =>
    obtain rfl : h = d := by omega
    rwa [AbstractMerkleTree.recomputeLayers, if_neg (by simp)]
  | succ k ih =>
    have hdh : d - h = k + 1 := by omega
    have hgt : 2 ^ (k + 1) > 1 := Nat.one_lt_two_pow (by omega)
    have hhalf : 2 ^ (k + 1) / 2 = 2 ^ k := by
      rw [pow_succ]
      omega
    have hstep := hc.recomputeParentLayer (by omega)
    rw [hdh] at hstep
    have hstart : s / 2 ^ h / 2 = s / 2 ^ (h + 1) := by rw [Nat.div_div_eq_div_mul, pow_succ]
    rw [AbstractMerkleTree.recomputeLayers, if_pos hgt, hhalf]
    have hrec := ih (by omega) hstep
    rwa [← hstart] at hrec

end Consistent

/-! ### Complete trees -/

/-- The loop of `_initializeTree` writes the defaults of the layers at their last entries and leaves
the layers below alone. -/
theorem initializeLayers_spec (nodes : ℕ → α) (h k : ℕ) :
    (∀ j ≤ k, initializeLayers hash nodes (PerfectTree.default hash zero h) (2 ^ k)
        (slot j (2 ^ j - 1)) = PerfectTree.default hash zero (h + 1 + (k - j))) ∧
      ∀ idx, slot k (2 ^ k - 1) < idx →
        initializeLayers hash nodes (PerfectTree.default hash zero h) (2 ^ k) idx = nodes idx := by
  induction k generalizing nodes h with
  | zero =>
    have hstop (nodes : ℕ → α) (v : α) : initializeLayers hash nodes v 0 = nodes := by
      rw [initializeLayers, if_neg (by omega)]
    rw [initializeLayers, if_pos (by simp)]
    simp only [pow_zero, Nat.reduceMul, Nat.reduceSub, Nat.reduceDiv, hstop]
    refine ⟨fun j hj => ?_, fun idx hidx => Function.update_of_ne ?_ _ _⟩
    · obtain rfl : j = 0 := by omega
      exact Function.update_self ..
    · simp only [slot, pow_zero] at hidx
      omega
  | succ k ih =>
    have hhalf : 2 ^ (k + 1) / 2 = 2 ^ k := by
      rw [pow_succ]
      omega
    have hidx : 2 * 2 ^ (k + 1) - 2 = slot (k + 1) (2 ^ (k + 1) - 1) := by
      unfold slot
      omega
    have hlt := slot_lt_of_lt (k := k) (i := 2 ^ k - 1) (by have := Nat.two_pow_pos k; omega)
      (Nat.lt_succ_self k) (2 ^ (k + 1) - 1)
    obtain ⟨hlast, hrest⟩ := ih (Function.update nodes (2 * 2 ^ (k + 1) - 2)
      (PerfectTree.default hash zero (h + 1))) (h + 1)
    rw [initializeLayers, if_pos (by positivity), ← default_succ hash zero h, hhalf]
    refine ⟨fun j hj => ?_, fun idx hi => ?_⟩
    · rcases Nat.lt_or_eq_of_le hj with hj | rfl
      · rw [hlast j (by omega)]
        congr 1
        omega
      · rw [hrest _ hlt, ← hidx, Function.update_self, Nat.sub_self]
    · rw [hrest idx (hlt.trans hi), Function.update_of_ne (by omega)]

/-- A new tree is complete, with no leaves. -/
theorem complete_initializeTree : Complete hash zero d (initializeTree hash zero d) [] := by
  refine ⟨rfl, by simp, le_rfl, ?_, ?_, ?_, ?_, List.Pairwise.nil⟩
  · intro j _ _ i hi
    rw [length_nil, populated_zero_left] at hi
    omega
  · intro j _ i hi
    rw [length_nil, Nat.zero_div] at hi
    omega
  · intro j hj _
    cases d with
    | zero =>
      obtain rfl : j = 0 := by omega
      rw [initializeTree, initializeLayers, if_neg (by simp)]
      rfl
    | succ k =>
      have hhalf : 2 ^ (k + 1) / 2 = 2 ^ k := by
        rw [pow_succ]
        omega
      have hspec := @initializeLayers_spec α hash zero
        (Function.update (fun _ => zero) (2 * 2 ^ (k + 1) - 2) zero) 0 k
      rw [initializeTree, hhalf]
      rcases Nat.eq_zero_or_pos j with rfl | hj0
      · refine (hspec.2 _ (slot_lt_of_lt ?_ (Nat.lt_succ_self k) _)).trans ?_
        · have := Nat.two_pow_pos k
          omega
        · simp [Function.update_apply]
      · refine (hspec.1 (k + 1 - j) (by omega)).trans ?_
        congr 1
        omega
  · intro idx hidx
    cases hidx

namespace Complete

variable {t : Tree α} {leaves : List α}

/-- The first entry of the array of a complete tree is the root. -/
theorem nodes_zero (hc : Complete hash zero d t leaves) :
    t.nodes 0 = PerfectTree.root hash zero d leaves := by
  have hslot : slot (d - d) 0 = 0 := by simp [slot]
  rw [← hslot]
  rcases Nat.eq_zero_or_pos (populated leaves.length d) with h0 | hpos
  · have hlast := hc.last d le_rfl (by rw [h0]; positivity)
    have hnil : leaves.length ≤ 0 * 2 ^ d := by
      have := le_populated_mul leaves.length d
      rwa [h0] at this
    rw [PerfectTree.root, node_padded_of_length_le _ _ hnil, ← hlast]
    simp
  · exact hc.done d le_rfl le_rfl 0 hpos

/-- The array of a complete tree holds the leaves it is complete for. -/
theorem leaves_eq (hc : Complete hash zero d t leaves) : t.leaves d = leaves := by
  refine ext_getElem (by simp [Tree.leaves, hc.numLeaves_eq]) fun i h1 h2 => ?_
  have hdone := hc.done 0 (Nat.zero_le _) (Nat.zero_le _) i h2
  simp only [Tree.leaves, getElem_map, getElem_range]
  rw [node_zero, padded, getD_eq_getElem _ _ h2] at hdone
  exact hdone

/-- Leaves appended to a complete tree leave the layers above them to be recomputed. -/
theorem insertAll (hc : Complete hash zero d t leaves) (new : List α)
    (hle : leaves.length + new.length ≤ 2 ^ d) :
    ∃ t', insertAll d t new = .ok t' ∧
      Consistent hash zero d t' (leaves ++ new) leaves.length 0 :=
  Consistent.insertAll { hc with done := fun j hj => hc.done j (by omega) } new hle

end Complete

/-! ### Histories of batches -/

variable (hash d) in
/-- A batch: leaves are inserted and the root is recomputed above them. -/
def addBatch (t : Tree α) (new : List α) : Except String (Tree α × α) := do
  recomputeRoot hash d (← insertAll d t new) new.length

variable (hash d) in
/-- Batches one after the other, with the roots returned for them. -/
def runBatches (t : Tree α) : List (List α) → Except String (Tree α × List α)
  | [] => .ok (t, [])
  | new :: batches => do
    let (t, root) ← addBatch hash d t new
    let (t, roots) ← runBatches t batches
    return (t, root :: roots)

/-- A batch appends its leaves and keeps the others, also in a tree with stale nodes. -/
theorem addBatch_leaves {t t' : Tree α} {new : List α} {root : α} (ht : t.numLeaves ≤ 2 ^ d)
    (h : addBatch hash d t new = .ok (t', root)) :
    t'.leaves d = t.leaves d ++ new ∧ t'.numLeaves = t.numLeaves + new.length ∧
      t'.numLeaves ≤ 2 ^ d := by
  obtain ⟨t₁, hinsert, hroot⟩ := Except.bind_eq_ok.mp h
  obtain ⟨hleaves₁, hnum₁, hle₁⟩ := insertAll_leaves d ht hinsert
  obtain ⟨hleaves, hnum, -⟩ := recomputeRoot_frame hash d hle₁ hroot
  exact ⟨hleaves.trans hleaves₁, hnum.trans hnum₁, by rwa [hnum]⟩

/-- A batch keeps the tree complete and returns its root. -/
theorem Complete.addBatch {t : Tree α} {leaves : List α} (hc : Complete hash zero d t leaves)
    (new : List α) (hle : leaves.length + new.length ≤ 2 ^ d) :
    ∃ t', addBatch hash d t new = .ok (t', PerfectTree.root hash zero d (leaves ++ new)) ∧
      Complete hash zero d t' (leaves ++ new) := by
  obtain ⟨t', hrun, hc'⟩ := hc.insertAll new hle
  have hlen : t'.numLeaves = leaves.length + new.length := by
    rw [hc'.numLeaves_eq, length_append]
  have hrec := hc'.recomputeLayers (k := d) (by omega)
  rw [pow_zero, Nat.div_one, populated_zero, length_append] at hrec
  have hcomplete : Complete hash zero d
      (recomputeLayers hash t' (2 ^ d) leaves.length (leaves.length + new.length))
      (leaves ++ new) :=
    { hrec with
      start_le := le_rfl
      kept := fun j hj i hi => hrec.done j hj hj i (hi.trans_le (div_pow_le_populated _ _)) }
  refine ⟨_, ?_, hcomplete⟩
  rw [← hcomplete.nodes_zero]
  simp only [AbstractMerkleTree.addBatch, hrun, bind, Except.bind, recomputeRoot, hlen]
  rw [if_pos (by omega), Nat.add_sub_cancel]

theorem Complete.runBatches {t : Tree α} {leaves : List α} (hc : Complete hash zero d t leaves)
    (batches : List (List α)) (hle : leaves.length + batches.flatten.length ≤ 2 ^ d) :
    ∃ t' roots, runBatches hash d t batches = .ok (t', roots) ∧
      Complete hash zero d t' (leaves ++ batches.flatten) ∧ roots.length = batches.length ∧
      ∀ n < batches.length, roots[n]? =
        some (PerfectTree.root hash zero d (leaves ++ (batches.take (n + 1)).flatten)) := by
  induction batches generalizing t leaves with
  | nil => exact ⟨t, [], rfl, by simpa using hc, rfl, fun n hn => by simp at hn⟩
  | cons new batches ih =>
    rw [flatten_cons, length_append] at hle
    obtain ⟨t₁, hrun, hc₁⟩ := hc.addBatch new (by omega)
    obtain ⟨t', roots, hrun', hc', hlen, hroots⟩ := ih hc₁ (by rw [length_append]; omega)
    refine ⟨t', PerfectTree.root hash zero d (leaves ++ new) :: roots, ?_, ?_, by simp [hlen], ?_⟩
    · rw [AbstractMerkleTree.runBatches, hrun]
      simp only [bind, Except.bind, hrun']
      rfl
    · rwa [flatten_cons, ← append_assoc]
    · intro n hn
      cases n with
      | zero => simp
      | succ n =>
        rw [List.getElem?_cons_succ, hroots n (by simpa using hn), take_succ_cons,
          flatten_cons, append_assoc]

/-- **The root of the contract after any history.** From a new tree of depth `d`, every sequence of
batches that fits is accepted; each batch returns the root of the perfect tree over all leaves
inserted so far, the first entry of the array is that root at the end, and no default was read
after a node had been stored over it. -/
theorem runBatches_root (hash : α → α → α) (zero : α) (d : ℕ) (batches : List (List α))
    (hle : batches.flatten.length ≤ 2 ^ d) :
    ∃ t roots, runBatches hash d (initializeTree hash zero d) batches = .ok (t, roots) ∧
      roots.length = batches.length ∧
      (∀ n < batches.length, roots[n]? =
        some (PerfectTree.root hash zero d (batches.take (n + 1)).flatten)) ∧
      t.nodes 0 = PerfectTree.root hash zero d batches.flatten ∧
      t.numLeaves = batches.flatten.length ∧ DefaultsFresh t.trace := by
  obtain ⟨t, roots, hrun, hc, hlen, hroots⟩ :=
    (@complete_initializeTree α hash zero d).runBatches batches
      (by simpa using hle)
  exact ⟨t, roots, hrun, hlen, hroots, hc.nodes_zero, hc.numLeaves_eq, hc.fresh⟩

/-- Four batches fill a tree of depth two, one of them at an odd address and one empty. -/
theorem runBatches_root_four_batches :
    ([[5], [6, 7], [], [8]] : List (List ℕ)).flatten.length ≤ 2 ^ 2 ∧
      ∃ t roots, runBatches (fun l r => 3 * l + r) 2 (initializeTree (fun l r => 3 * l + r) 1 2)
          [[5], [6, 7], [], [8]] = .ok (t, roots) ∧
        t.nodes 0 = 92 ∧ DefaultsFresh t.trace := by
  obtain ⟨t, roots, hrun, -, -, hroot, -, hfresh⟩ :=
    runBatches_root (fun l r => 3 * l + r) 1 2 [[5], [6, 7], [], [8]] (by decide)
  exact ⟨by decide, t, roots, hrun, hroot.trans (by decide), hfresh⟩

end Zeth.AbstractMerkleTree
