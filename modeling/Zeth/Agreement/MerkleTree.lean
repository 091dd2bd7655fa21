import Zeth.Contract.MerkleTreeRoot
import Zeth.Core.MerkleTreeField

/-!
# Trees in C++ and in the contract

The contract appends leaves in batches, the C++ library sets the leaves of a sparse tree in any
order and more than once. Over the same leaves they have the same root.

## Main results

* `Agreement.trees_agree`.
-/

namespace Zeth.Agreement

open AbstractMerkleTree Core.MerkleTreeField

/-- **The trees agree.** Calls of `set_value` that end with the leaves of some batches give a tree
with the root that the contract has after the batches, and the path of every leaf gives this root.
-/
theorem trees_agree {α : Type*} [Zero α] (hash : α → α → α) {d : ℕ} (hd : d < 64)
    {batches : List (List α)} (hle : batches.flatten.length ≤ 2 ^ d) {calls : List (ℕ × α)}
    (hcalls : ∀ call ∈ calls, call.1 < 2 ^ d)
    (hlast : ∀ a < 2 ^ d, lastValue calls a = batches.flatten.getD a 0) :
    ∃ t roots c, runBatches hash d (initializeTree hash 0 d) batches = .ok (t, roots) ∧
      (new hash d).bind (setValues hash · calls) = some c ∧ c.getRoot = t.nodes 0 ∧
      ∀ a < 2 ^ d, ∃ path, c.getPath a = some path ∧
        foldPath hash a (batches.flatten.getD a 0) path = t.nodes 0 := by
  obtain ⟨t, roots, hrun, hcomplete, -⟩ :=
    (@complete_initializeTree α hash 0 d).runBatches batches (by rwa [List.length_nil, zero_add])
  obtain ⟨c, hset, hrepr⟩ := exists_setValues hash hd hcalls
  have hroot : c.getRoot = t.nodes 0 := by
    rw [hrepr.getRoot, hcomplete.nodes_zero]
    refine PerfectTree.node_congr hash d 0 fun a _ ha => hlast a ?_
    rwa [zero_add, one_mul] at ha
  refine ⟨t, roots, c, hrun, hset, hroot, fun a ha => ?_⟩
  obtain ⟨path, hpath, hfold⟩ := hrepr.foldPath ha
  exact ⟨path, hpath, by rw [← hlast a ha, hfold, hroot]⟩

theorem trees_agree_overwritten :
    ∃ t roots c, runBatches (3 * · + ·) 1 (initializeTree (3 * · + ·) 0 1) [[5], [6]] =
        .ok (t, roots) ∧ (new (3 * · + ·) 1).bind
          (setValues (3 * · + ·) · [(1, 7), (0, 5), (1, 6)]) = some c ∧ c.getRoot = t.nodes 0 := by
  obtain ⟨t, roots, c, hrun, hset, hroot, -⟩ := @trees_agree ℕ _ (3 * · + ·) 1 (by decide)
    [[5], [6]] (by decide) [(1, 7), (0, 5), (1, 6)] (by decide) (by decide)
  exact ⟨t, roots, c, hrun, hset, hroot⟩

end Zeth.Agreement
