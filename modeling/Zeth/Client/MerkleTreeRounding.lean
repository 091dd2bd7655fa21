import Zeth.Client.MerkleTreeRoot

/-!
# Layers of the client's tree when a number of nodes is rounded

`_recompute_layer` computes the number of parents as `int((child_end_idx + 1) / 2)`. For `2 ^ 53 + 2`
children this is one more than there are: the floating point number nearest to the half of
`2 ^ 53 + 3` is the integer above. The parent layer is extended with one entry that no hash is
written to, and the layers above are computed from it.

## Main definitions

* `MerkleTree.roundedLayer`.

## Main results

* `MerkleTree.recomputeLayers_keeps`: the layers above any one layer are computed.
* `MerkleTree.recomputeRoot_rounded`: the tree over leaves whose parents are rounded up.
-/

namespace Zeth.Client.MerkleTree

open ByteString Python PerfectTree List

variable {hash : Bytes → Bytes → Bytes} {d : ℕ}

/-! ### Layers above a layer -/

/-- The loop of `recompute_root` started at a layer of any content returns, and it keeps the layers
from there down. -/
theorem recomputeLayers_keeps {defaults : List Bytes} {k : ℕ} {layers : List (List Bytes)}
    {layer : List Bytes} (hdefaults : k ≤ defaults.length) (hlayers : k ≤ layers.length)
    (hk : k ≤ 1024) (hpos : 0 < layer.length) (hfloat : layer.length ≤ 2 ^ 53 + 1)
    (hle : layer.length ≤ 2 ^ k) (hold : ∀ i < k, ∀ l, layers[i]? = some l → l.length ≤ 1)
    (layerDefault : Bytes) :
    ∃ layers' top, recomputeLayers hash defaults k layers layerDefault layer 0 layer.length (2 ^ k) =
        .ok (layers', top, 1) ∧ top.length = 1 ∧ ∀ i, k ≤ i → layers'[i]? = layers[i]? := by
  induction k generalizing layers layer layerDefault with
  | zero => exact ⟨layers, layer, rfl, by omega, fun _ _ => rfl⟩
  | succ k ih =>
    have hlayer := List.getElem?_eq_getElem (show k < layers.length by omega)
    have hparent := hold k (Nat.lt_succ_self k) _ hlayer
    obtain ⟨parent, hrun, hlen, -⟩ := recomputeLayer_spec hash (Nat.zero_le layer.length) hfloat
      (c := fun i => layer.getD i [])
      (fun i hi => by rw [getD_eq_getElem _ _ hi, List.getElem?_eq_getElem hi])
      layerDefault (show layers[k].length ≤ (layer.length + 1) / 2 by omega)
    have hdouble : 2 ^ (k + 1) = 2 * 2 ^ k := pow_succ' 2 k
    -- the rest of the loop starts from the parents
    obtain ⟨layers', top, hrest, htop, hkept⟩ := @ih (layers.set k parent) parent (by omega)
      (by rw [length_set]; omega) (by omega) (by omega) (by omega) (by omega)
      (fun i hi l hl => hold i (by omega) l (by rwa [List.getElem?_set_ne hi.ne'] at hl))
      (defaults[k])
    refine ⟨layers', top, ?_, htop, fun i hi => ?_⟩
    · rw [recomputeLayers, index_of_getElem? (List.getElem?_eq_getElem (show k < _ by omega)),
        index_of_getElem? hlayer, ← hrest, hlen]
      simp only [Except.ok_bind, hrun, setItem_of_lt (show k < layers.length by omega),
        intHalf_two_pow (show 1 ≤ k + 1 by omega) hk, Nat.add_sub_cancel, Nat.zero_div]
    · rw [hkept i (by omega), List.getElem?_set_ne (by omega)]

/-! ### The first number of leaves that is rounded -/

variable (hash) in
/-- The first layer above `e` leaves of one value when the number of parents is rounded up: the
parents and one more entry. -/
def roundedLayer (e : ℕ) (leaf : Bytes) : List Bytes :=
  List.replicate (e / 2) (hash leaf leaf) ++ [zeroEntry]

theorem length_roundedLayer (e : ℕ) (leaf : Bytes) :
    (roundedLayer hash e leaf).length = e / 2 + 1 := by
  rw [roundedLayer, length_append, length_replicate, length_singleton]

/-- No hash is written to the entry that stands for no pair of leaves. -/
theorem recomputeLayer_rounded {e : ℕ} (heven : e % 2 = 0)
    (hround : intHalf (e + 1) = .ok (e / 2 + 1)) (leaf : Bytes) :
    recomputeLayer hash (List.replicate e leaf) 0 e zeroEntry [] =
      .ok (roundedLayer hash e leaf, 0, e / 2 + 1) := by
  have htwice : 2 * (e / 2) = e := by omega
  obtain ⟨parent', hrun, hlen, hget⟩ := @recomputePairs_spec hash
    (List.replicate e leaf) (fun _ => leaf) 0 (e / 2) (Nat.zero_le _)
    (fun i hi => List.getElem?_replicate_of_lt (by omega))
    (List.replicate (e / 2 + 1) zeroEntry) (by rw [length_replicate]; omega)
  have hparent : parent' = roundedLayer hash e leaf := by
    refine ext_getElem? fun i => ?_
    rw [hget, roundedLayer]
    by_cases hi : i < e / 2
    · rw [if_pos ⟨Nat.zero_le i, hi⟩,
        List.getElem?_append_left (by rwa [length_replicate]),
        List.getElem?_replicate_of_lt hi]
    · rw [if_neg fun h => hi h.2,
        List.getElem?_append_right (by rw [length_replicate]; omega), length_replicate]
      by_cases hlast : i = e / 2
      · rw [hlast, Nat.sub_self, List.getElem?_replicate_of_lt (Nat.lt_succ_self _)]
        rfl
      · rw [List.getElem?_eq_none (by rw [length_replicate]; omega),
          List.getElem?_eq_none (by rw [length_singleton]; omega)]
  rw [htwice, hparent] at hrun
  rw [recomputeLayer, hround, intHalf_eq_div (Nat.zero_le _), Nat.and_one_is_mod, heven]
  simp only [Except.ok_bind, ne_eq, not_true_eq_false, if_false, length_nil, Nat.sub_zero,
    nil_append, Nat.zero_div, pure_bind, hrun]
  rfl

/-- A node that is stored can be read. -/
theorem getNode_of_getElem? {maxNumLeaves : ℕ} {data : MerkleTreeData} {h i : ℕ} {l : List Bytes}
    {value : Bytes} (hl : data.layers[d - h]? = some l) (hvalue : l[i]? = some value)
    (hh : h ≤ d) : getNode ⟨maxNumLeaves, d, data, 0⟩ h i = .ok value := by
  have hi : i < l.length := (List.getElem?_eq_some_iff.mp hvalue).1
  rw [getNode, assert_decide hh, Except.ok_bind, beq_self_eq_true, assert_true, Except.ok_bind]
  simp only [index_of_getElem? hl, Except.ok_bind, if_pos hi, index_of_getElem? hvalue]

/-- The tree over leaves of one value whose parents are rounded up: one node above the leaves is not a
hash. -/
theorem recomputeRoot_rounded {e n : ℕ} (hpos : 0 < e) (heven : e % 2 = 0)
    (hround : intHalf (e + 1) = .ok (e / 2 + 1)) (hfloat : e / 2 ≤ 2 ^ 53) (hn : 1 ≤ n)
    (hd : n < 1024) (hle : e / 2 + 1 ≤ 2 ^ n) (leaf : Bytes) :
    ∃ t root, recomputeRoot hash (pending hash (n + 1) [] (List.replicate e leaf)) =
        .ok (t, root) ∧
      t.depth = n + 1 ∧ t.numNewLeaves = 0 ∧ t.getNode 0 (e - 1) = .ok leaf ∧
      t.getNode 1 (e / 2) = .ok zeroEntry := by
  set layers := mixedLayers hash (n + 1) [] (List.replicate e leaf) 0 with hlayers
  have hlen : layers.length = n + 2 := by
    rw [hlayers, mixedLayers, length_map, length_range]
  have hdefaults : (defaultsFrom hash (n + 1)).length = n + 2 := by
    rw [defaultsFrom, length_map, length_range]
  have hleaves : layers[n + 1]? = some (List.replicate e leaf) := by
    have h : layers[n + 1 - 0]? = _ := getElem?_mixedLayers _ _ 0 (Nat.zero_le _)
    rwa [if_pos le_rfl, nil_append, layerAt_zero (by omega)] at h
  -- the layers above the leaves are those of no leaf
  have habove {j : ℕ} (hj : 0 < j) (hjn : j ≤ n + 1) :
      layers[n + 1 - j]? = some (layerAt hash (n + 1) [] j) := by
    rw [hlayers, getElem?_mixedLayers _ _ _ hjn, if_neg (not_le.mpr hj)]
  have hempty : layers[n]? = some [] := by
    have h := habove Nat.one_pos (Nat.succ_le_succ (Nat.zero_le n))
    rw [layerAt, width_of_lt (by omega), length_nil, populated_zero_left] at h
    exact h
  have hold (i : ℕ) (hi : i < n) (l : List Bytes) (hl : layers[i]? = some l) : l.length ≤ 1 := by
    have h := habove (show 0 < n + 1 - i by omega) (by omega)
    rw [show n + 1 - (n + 1 - i) = i by omega, hl, Option.some.injEq] at h
    rw [h, length_layerAt, length_nil, width, populated_zero_left]
    split_ifs <;> omega
  obtain ⟨layers', top, hrun, htop, hkept⟩ := @recomputeLayers_keeps hash (defaultsFrom hash (n + 1))
    n (layers.set n (roundedLayer hash e leaf)) (roundedLayer hash e leaf) (by omega)
    (by rw [length_set]; omega) hd.le (by rw [length_roundedLayer]; omega)
    (by rw [length_roundedLayer]; omega) (by rw [length_roundedLayer]; exact hle)
    (fun i hi l hl => hold i hi l (by rwa [List.getElem?_set_ne hi.ne'] at hl))
    (PerfectTree.default hash zeroEntry 1)
  obtain ⟨root, hroot⟩ : ∃ root, top[0]? = some root := ⟨_, List.getElem?_eq_getElem (by omega)⟩
  have hloop : recomputeLayers hash (defaultsFrom hash (n + 1)) (n + 1) layers
      (PerfectTree.default hash zeroEntry 0) (List.replicate e leaf) 0 e (2 ^ (n + 1)) =
        .ok (layers', top, 1) := by
    have hdefault : (defaultsFrom hash (n + 1))[n]? = some (PerfectTree.default hash zeroEntry 1) :=
      getElem?_defaultsFrom (show 1 ≤ n + 1 by omega)
    rw [recomputeLayers, index_of_getElem? hdefault, index_of_getElem? hempty, ← hrun,
      length_roundedLayer]
    simp only [Except.ok_bind, PerfectTree.default_zero, recomputeLayer_rounded heven hround,
      setItem_of_lt (show n < layers.length by omega),
      intHalf_two_pow (show 1 ≤ n + 1 by omega) (show n + 1 ≤ 1024 by omega), Nat.add_sub_cancel]
  have hne : List.replicate e leaf ≠ [] := by
    rw [← length_pos_iff, length_replicate]
    exact hpos
  have hlast : (roundedLayer hash e leaf)[e / 2]? = some zeroEntry := by
    rw [roundedLayer, List.getElem?_append_right (by rw [length_replicate]),
      length_replicate, Nat.sub_self]
    rfl
  refine ⟨⟨2 ^ (n + 1), n + 1, ⟨n + 1, defaultsFrom hash (n + 1), layers'⟩, 0⟩, root, ?_, rfl, rfl,
    getNode_of_getElem? (l := List.replicate e leaf) ?_ ?_ (Nat.zero_le _),
    getNode_of_getElem? (l := roundedLayer hash e leaf) ?_ hlast (by omega)⟩
  · rw [recomputeRoot_eq (by omega) hne, nil_append, layerAt_zero (by omega),
      length_replicate, length_nil, hloop]
    simp only [Except.ok_bind, htop, beq_self_eq_true, assert_true, index_of_getElem? hroot]
    rfl
  · exact (hkept (n + 1) (Nat.le_succ n)).trans (by rw [List.getElem?_set_ne (by omega), hleaves])
  · exact List.getElem?_replicate_of_lt (by omega)
  · rw [Nat.add_sub_cancel, hkept n le_rfl, List.getElem?_set_self (by omega)]

/-- The least number of leaves whose parents are rounded up. -/
theorem intHalf_rounded : intHalf (2 ^ 53 + 2 + 1) = .ok ((2 ^ 53 + 2) / 2 + 1) := by
  decide +kernel

end Zeth.Client.MerkleTree
