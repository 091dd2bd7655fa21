import Zeth.Client.MerkleTree
import Zeth.Contract.MerkleTreeRoot

/-!
# The root kept by the client

The data of the client's tree after any history of batches is a function of the leaves: `perfect d
leaves` lists, for each layer, the nodes of the perfect tree that meet a leaf. While the root is
being recomputed the layers up to a height are those of all leaves and the others those of the
leaves before the batch (`pending`). This holds as long as the halvings of the source that go
through floating point numbers are exact, which bounds the depth and the number of leaves: beyond
depth `1024` the first batch with a leaf raises, and from depth `1024` on no tree can be loaded.

The contract and the client return the same roots for the same batches, both being the roots of the
perfect tree.

## Main definitions

* `MerkleTree.layerAt`, `MerkleTree.perfect`, `MerkleTree.pending`.
* `MerkleTree.RefinesPerfectTree`: the client's run agrees with the perfect tree and the contract.

## Main results

* `MerkleTree.recomputeLayer_spec`, `MerkleTree.recomputeRoot_pending`,
  `MerkleTree.addBatch_perfect`.
* `MerkleTree.refinesPerfectTree_iff`: exactly the depths up to `1024` work, and up to `1023` where
  the tree is loaded.
-/

namespace Zeth.Client.MerkleTree

open ByteString Python PerfectTree List

open Except (ok_bind)

variable (hash : Bytes → Bytes → Bytes)

/-! ### One layer -/

/-- The loop over the populated pairs hashes the children of every node of `[lo, hi[`. -/
theorem recomputePairs_spec {child : List Bytes} {c : ℕ → Bytes} {lo hi : ℕ} (hle : lo ≤ hi)
    (hchild : ∀ i < 2 * hi, child[i]? = some (c i)) (parent : List Bytes)
    (hparent : hi ≤ parent.length) :
    ∃ parent', recomputePairs hash child parent (2 * hi) (2 * lo) = .ok parent' ∧
      parent'.length = parent.length ∧
      ∀ i, parent'[i]? =
        if lo ≤ i ∧ i < hi then some (hash (c (2 * i)) (c (2 * i + 1))) else parent[i]? := by
  induction hi, hle using Nat.le_induction generalizing parent with
  | base =>
    refine ⟨parent, ?_, rfl, fun i => ?_⟩
    · rw [recomputePairs, if_neg (lt_irrefl _)]
    · rw [if_neg (by omega)]
  | succ hi hle ih =>
    have hleft : 2 * (hi + 1) - 2 = 2 * hi := by omega
    have hidx : (2 * hi) >>> 1 = hi := by
      rw [Nat.shiftRight_one]
      omega
    obtain ⟨parent', hrun, hlen, hget⟩ :=
      ih (fun i hi' => hchild i (by omega))
        (parent.set hi (hash (c (2 * hi)) (c (2 * hi + 1)))) (by rw [length_set]; omega)
    refine ⟨parent', ?_, by rw [hlen, length_set], fun i => ?_⟩
    · rw [recomputePairs, if_pos (by omega)]
      simp only [hleft, hidx, index_of_getElem? (hchild (2 * hi) (by omega)),
        index_of_getElem? (hchild (2 * hi + 1) (by omega)), setItem_of_lt hparent, ok_bind]
      exact hrun
    · rw [hget i]
      by_cases hi' : i = hi
      · subst hi'
        rw [if_neg (by omega), if_pos (by omega), List.getElem?_set_self hparent]
      · by_cases hr : lo ≤ i ∧ i < hi
        · rw [if_pos hr, if_pos (by omega)]
        · rw [if_neg hr, if_neg (by omega), List.getElem?_set_ne (Ne.symm hi')]

/-- What `_recompute_layer` does to the parent layer while the halvings are exact: the nodes above
the entries `[s, e[` are rehashed, a missing right child being the default value. -/
theorem recomputeLayer_spec {child : List Bytes} {c : ℕ → Bytes} {s e : ℕ} (hse : s ≤ e)
    (he : e ≤ 2 ^ 53 + 1) (hchild : ∀ i < e, child[i]? = some (c i)) (defaultValue : Bytes)
    {parent : List Bytes} (hparent : parent.length ≤ (e + 1) / 2) :
    ∃ parent', recomputeLayer hash child s e defaultValue parent =
        .ok (parent', s / 2, (e + 1) / 2) ∧
      parent'.length = (e + 1) / 2 ∧
      (∀ i < s / 2, i < parent.length → parent'[i]? = parent[i]?) ∧
      ∀ i, s / 2 ≤ i → i < (e + 1) / 2 → parent'[i]? =
        some (hash (c (2 * i)) (if 2 * i + 1 < e then c (2 * i + 1) else defaultValue)) := by
  obtain ⟨extended, hext⟩ : ∃ extended, extended =
      parent ++ List.replicate ((e + 1) / 2 - parent.length) zeroEntry := ⟨_, rfl⟩
  have hlen : extended.length = (e + 1) / 2 := by
    rw [hext, length_append, length_replicate]
    omega
  have hold {i : ℕ} (hi : i < parent.length) : extended[i]? = parent[i]? := by
    rw [hext, List.getElem?_append_left hi]
  have hrun : recomputeLayer hash child s e defaultValue parent = (do
      let last ←
        if e &&& 1 ≠ 0 then do
          let left ← index child (e - 1)
          let parentLayer ← setItem extended ((e - 1) >>> 1) (hash left defaultValue)
          pure (parentLayer, e - 1)
        else pure (extended, e)
      let parentLayer ← recomputePairs hash child last.1 last.2 (2 * (s / 2))
      return (parentLayer, s / 2, (e + 1) / 2)) := by
    rw [recomputeLayer, intHalf_eq_div (show e + 1 ≤ 2 ^ 53 + 2 by omega),
      intHalf_eq_div (show s ≤ 2 ^ 53 + 2 by omega), hext, Nat.shiftRight_one]
    rfl
  rw [hrun, Nat.and_one_is_mod]
  by_cases hodd : e % 2 = 1
  · -- the last node is written first, from its left child and the default value
    have hidx : (e - 1) >>> 1 = e / 2 := by
      rw [Nat.shiftRight_one]
      omega
    have heven : e - 1 = 2 * (e / 2) := by omega
    obtain ⟨parent', hpairs, hlen', hget⟩ := recomputePairs_spec hash (c := c)
      (show s / 2 ≤ e / 2 by omega) (fun i hi => hchild i (by omega))
      (extended.set (e / 2) (hash (c (2 * (e / 2))) defaultValue))
      (by rw [length_set]; omega)
    refine ⟨parent', ?_, by rw [hlen', length_set, hlen], fun i hi hip => ?_,
      fun i hsi hi => ?_⟩
    · rw [if_pos (by omega), hidx, heven, index_of_getElem? (hchild _ (by omega))]
      simp only [ok_bind, pure, Except.pure,
        setItem_of_lt (show e / 2 < extended.length by omega), hpairs]
    · rw [hget, if_neg (by omega), List.getElem?_set_ne (by omega), hold hip]
    · rw [hget]
      by_cases hie : i = e / 2
      · subst hie
        rw [if_neg (by omega), List.getElem?_set_self (by omega), if_neg (by omega)]
      · rw [if_pos (by omega), if_pos (by omega)]
  · have heven : e = 2 * (e / 2) := by omega
    obtain ⟨parent', hpairs, hlen', hget⟩ := recomputePairs_spec hash (c := c)
      (show s / 2 ≤ e / 2 by omega) (fun i hi => hchild i (by omega)) extended (by omega)
    refine ⟨parent', ?_, by rw [hlen', hlen], fun i hi hip => ?_, fun i hsi hi => ?_⟩
    · rw [if_neg (by omega)]
      rw [← heven] at hpairs
      simp only [ok_bind, pure, Except.pure, hpairs]
    · rw [hget, if_neg (by omega), hold hip]
    · rw [hget, if_pos (by omega), if_pos (by omega)]

/-! ### Trees that represent a list of leaves -/

variable (d : ℕ)

/-- The number of nodes of height `j` that the client stores for `e` leaves. -/
def width (e j : ℕ) : ℕ := if j = d then 1 else populated e j

/-- The layer of height `j` for the given leaves. -/
def layerAt (leaves : List Bytes) (j : ℕ) : List Bytes :=
  (List.range (width d leaves.length j)).map (node hash (padded zeroEntry leaves) j)

/-- The default values of the layers, from the root down. -/
def defaultsFrom : List Bytes :=
  (List.range (d + 1)).map fun i => PerfectTree.default hash zeroEntry (d - i)

/-- The layers while the leaves `new` are being added to the leaves `old`: those of height at most
`h` are recomputed. -/
def mixedLayers (old new : List Bytes) (h : ℕ) : List (List Bytes) :=
  (List.range (d + 1)).map fun i =>
    layerAt hash d (if d - i ≤ h then old ++ new else old) (d - i)

/-- The tree that stands for `old` with the leaves `new` inserted and no root computed for them. -/
def pending (old new : List Bytes) : MerkleTree where
  maxNumLeaves := 2 ^ d
  depth := d
  treeData := ⟨d, defaultsFrom hash d, mixedLayers hash d old new 0⟩
  numNewLeaves := new.length

/-- The tree that stands for a list of leaves. -/
def perfect (leaves : List Bytes) : MerkleTree where
  maxNumLeaves := 2 ^ d
  depth := d
  treeData := ⟨d, defaultsFrom hash d, mixedLayers hash d leaves [] d⟩
  numNewLeaves := 0

variable {hash d}

theorem perfect_depth (leaves : List Bytes) : (perfect hash d leaves).depth = d := rfl

theorem width_of_lt {j : ℕ} (hj : j < d) (e : ℕ) : width d e j = populated e j :=
  if_neg hj.ne

/-- Above at least one leaf, every layer has exactly the nodes that meet a leaf. -/
theorem width_of_pos {e j : ℕ} (he : 0 < e) (hle : e ≤ 2 ^ d) (hj : j ≤ d) :
    width d e j = populated e j := by
  unfold width
  split_ifs with hjd
  · subst hjd
    have hub := populated_le hle (le_refl j)
    have hlb := le_populated_mul e j
    rcases Nat.eq_zero_or_pos (populated e j) with h0 | hpos
    · rw [h0] at hlb
      omega
    · rw [Nat.sub_self, pow_zero] at hub
      omega
  · rfl

theorem width_mono {e e' j : ℕ} (he : e ≤ e') : width d e j ≤ width d e' j := by
  unfold width
  split_ifs
  · exact le_rfl
  · exact populated_mono he j

theorem getElem?_layerAt {leaves : List Bytes} {i j : ℕ} (hi : i < width d leaves.length j) :
    (layerAt hash d leaves j)[i]? = some (node hash (padded zeroEntry leaves) j i) := by
  simp [layerAt, hi]

theorem length_layerAt (leaves : List Bytes) (j : ℕ) :
    (layerAt hash d leaves j).length = width d leaves.length j := by
  simp [layerAt]

theorem layerAt_zero (hd : 1 ≤ d) (leaves : List Bytes) : layerAt hash d leaves 0 = leaves := by
  refine ext_getElem? fun i => ?_
  have hw : width d leaves.length 0 = leaves.length := width_of_lt hd _
  by_cases hi : i < leaves.length
  · rw [getElem?_layerAt (by rwa [hw]), node_zero, padded, getD_eq_getElem _ _ hi,
      List.getElem?_eq_getElem hi]
  · rw [List.getElem?_eq_none (by rw [length_layerAt, hw]; omega),
      List.getElem?_eq_none (by omega)]

theorem getElem?_mixedLayers (old new : List Bytes) (h : ℕ) {j : ℕ} (hj : j ≤ d) :
    (mixedLayers hash d old new h)[d - j]? =
      some (layerAt hash d (if j ≤ h then old ++ new else old) j) := by
  have hsub : d - (d - j) = j := by omega
  rw [mixedLayers, List.getElem?_map, List.getElem?_range (by omega), Option.map_some, hsub]

theorem getElem?_defaultsFrom {j : ℕ} (hj : j ≤ d) :
    (defaultsFrom hash d)[d - j]? = some (PerfectTree.default hash zeroEntry j) := by
  have hsub : d - (d - j) = j := by omega
  rw [defaultsFrom, List.getElem?_map, List.getElem?_range (by omega), Option.map_some, hsub]

theorem length_mixedLayers (old new : List Bytes) (h : ℕ) :
    (mixedLayers hash d old new h).length = d + 1 := by
  simp [mixedLayers]

/-- Replacing the layer of the next height by the one of all leaves. -/
theorem set_mixedLayers (old new : List Bytes) {h : ℕ} (hh : h < d) :
    (mixedLayers hash d old new h).set (d - (h + 1)) (layerAt hash d (old ++ new) (h + 1)) =
      mixedLayers hash d old new (h + 1) := by
  rw [mixedLayers, set_map_range]
  refine map_congr_left fun i hi => ?_
  have hi' : i < d + 1 := mem_range.mp hi
  rw [Function.update_apply]
  by_cases hih : i = d - (h + 1)
  · have hsub : d - i = h + 1 := by omega
    rw [if_pos hih, hsub, if_pos le_rfl]
  · rw [if_neg hih]
    by_cases hle : d - i ≤ h
    · rw [if_pos hle, if_pos (by omega)]
    · rw [if_neg hle, if_neg (by omega)]

/-- With all layers recomputed, the leaves that were new no longer count apart. -/
theorem mixedLayers_top (old new : List Bytes) :
    mixedLayers hash d old new d = mixedLayers hash d (old ++ new) [] d := by
  simp only [mixedLayers, append_nil, ite_self]
  refine map_congr_left fun i _ => ?_
  rw [if_pos (Nat.sub_le d i)]

/-- With no new leaf, all layers are recomputed from the start. -/
theorem mixedLayers_nil (leaves : List Bytes) (h : ℕ) :
    mixedLayers hash d leaves [] h = mixedLayers hash d leaves [] d := by
  simp only [mixedLayers, append_nil, ite_self]

theorem pending_nil (leaves : List Bytes) : pending hash d leaves [] = perfect hash d leaves := by
  simp only [pending, perfect, mixedLayers_nil leaves 0, length_nil]

/-! ### Recomputing -/

section Recompute

variable {old new : List Bytes} (hnew : new ≠ []) (hle : (old ++ new).length ≤ 2 ^ d)
  (hfloat : (old ++ new).length ≤ 2 ^ 53 + 1)

include hnew hle hfloat

/-- `_recompute_layer` turns the layer of the old leaves into the layer of all leaves. -/
theorem recomputeLayer_layerAt {h : ℕ} (hh : h < d) :
    recomputeLayer hash (layerAt hash d (old ++ new) h) (old.length / 2 ^ h)
        (populated (old ++ new).length h) (PerfectTree.default hash zeroEntry h)
        (layerAt hash d old (h + 1)) =
      .ok (layerAt hash d (old ++ new) (h + 1), old.length / 2 ^ (h + 1),
        populated (old ++ new).length (h + 1)) := by
  have hpos : 0 < (old ++ new).length := by
    rw [length_append]
    have := length_pos_iff.mpr hnew
    omega
  have holdle : old.length ≤ (old ++ new).length := by simp
  have hwidth := width_of_pos hpos hle (show h + 1 ≤ d by omega)
  have hpop : populated (old ++ new).length h ≤ 2 ^ 53 + 1 :=
    (populated_le_self _ h).trans hfloat
  have hse : old.length / 2 ^ h ≤ populated (old ++ new).length h :=
    (Nat.div_le_div_right holdle).trans (div_pow_le_populated _ _)
  obtain ⟨parent', hrun, hlen, hkept, hnewNodes⟩ :=
    recomputeLayer_spec hash hse hpop
      (fun i hi => getElem?_layerAt (by rwa [width_of_lt hh]))
      (PerfectTree.default hash zeroEntry h)
      (show (layerAt hash d old (h + 1)).length ≤ (populated (old ++ new).length h + 1) / 2 by
        rw [length_layerAt, ← populated_succ, ← hwidth]
        exact width_mono holdle)
  have hdiv : old.length / 2 ^ h / 2 = old.length / 2 ^ (h + 1) := by
    rw [Nat.div_div_eq_div_mul, pow_succ]
  rw [hdiv] at hkept hnewNodes
  rw [hrun, hdiv, ← populated_succ]
  rw [← populated_succ] at hlen hnewNodes
  congr 2
  refine ext_getElem? fun i => ?_
  by_cases hi : i < populated (old ++ new).length (h + 1)
  · rw [getElem?_layerAt (by rwa [hwidth])]
    by_cases hs : i < old.length / 2 ^ (h + 1)
    · -- all leaves below the node were there before
      have hw : i < width d old.length (h + 1) := by
        rw [width_of_pos (by by_contra h0; simp_all) (holdle.trans hle) hh]
        exact hs.trans_le (div_pow_le_populated _ _)
      have hleaves : (i + 1) * 2 ^ (h + 1) ≤ old.length :=
        (Nat.le_div_iff_mul_le (by positivity)).mp hs
      rw [hkept i hs (by rwa [length_layerAt]), getElem?_layerAt hw,
        node_padded_append_of_lt _ _ _ _ hleaves]
    · rw [hnewNodes i (by omega) hi, node_succ]
      congr 2
      split_ifs with hr
      · rfl
      · refine (node_padded_of_length_le _ _ ?_).symm
        exact (le_populated_mul _ h).trans (Nat.mul_le_mul_right _ (by omega))
  · rw [List.getElem?_eq_none (by omega),
      List.getElem?_eq_none (by rw [length_layerAt, hwidth]; omega)]

/-- The loop of `recompute_root` recomputes the remaining layers. -/
theorem recomputeLayers_mixedLayers (hd : d ≤ 1024) {h k : ℕ} (hk : h + k = d) :
    recomputeLayers hash (defaultsFrom hash d) k (mixedLayers hash d old new h)
        (PerfectTree.default hash zeroEntry h) (layerAt hash d (old ++ new) h)
        (old.length / 2 ^ h) (populated (old ++ new).length h) (2 ^ k) =
      .ok (mixedLayers hash d old new d, layerAt hash d (old ++ new) d, 1) := by
  induction k generalizing h with
  | zero =>
    obtain rfl : h = d := by omega
    rw [recomputeLayers, pow_zero]
  | succ k ih =>
    have hidx : k = d - (h + 1) := by omega
    have hdefault : (defaultsFrom hash d)[k]? =
        some (PerfectTree.default hash zeroEntry (h + 1)) := by
      rw [hidx, getElem?_defaultsFrom (by omega)]
    have hparent : (mixedLayers hash d old new h)[k]? = some (layerAt hash d old (h + 1)) := by
      rw [hidx, getElem?_mixedLayers _ _ _ (by omega), if_neg (by omega)]
    have hset : (mixedLayers hash d old new h).set k (layerAt hash d (old ++ new) (h + 1)) =
        mixedLayers hash d old new (h + 1) := by
      rw [hidx, set_mixedLayers _ _ (by omega)]
    rw [recomputeLayers, index_of_getElem? hdefault, index_of_getElem? hparent,
      ← ih (show h + 1 + k = d by omega), ← hset]
    simp only [ok_bind, recomputeLayer_layerAt hnew hle hfloat (show h < d by omega),
      setItem_of_lt (show k < (mixedLayers hash d old new h).length by
        rw [length_mixedLayers]; omega),
      intHalf_two_pow (show 1 ≤ k + 1 by omega) (show k + 1 ≤ 1024 by omega), Nat.add_sub_cancel]

/-- For depths from `1025` on, the loop raises once it has left the layer of the leaves. -/
theorem recomputeLayers_overflow (hd : 1025 ≤ d) :
    recomputeLayers hash (defaultsFrom hash d) d (mixedLayers hash d old new 0)
        (PerfectTree.default hash zeroEntry 0) (layerAt hash d (old ++ new) 0)
        old.length (old ++ new).length (2 ^ d) =
      .error (.overflowError "integer division result too large for a float") := by
  obtain ⟨k, rfl⟩ : ∃ k, d = k + 1 := ⟨d - 1, by omega⟩
  have hdefault : (defaultsFrom hash (k + 1))[k]? =
      some (PerfectTree.default hash zeroEntry 1) :=
    getElem?_defaultsFrom (show 1 ≤ k + 1 by omega)
  have hparent : (mixedLayers hash (k + 1) old new 0)[k]? = some (layerAt hash (k + 1) old 1) :=
    getElem?_mixedLayers old new 0 (show 1 ≤ k + 1 by omega)
  have hlayer := @recomputeLayer_layerAt hash (k + 1) old new hnew hle hfloat 0 (by omega)
  rw [pow_zero, Nat.div_one, populated_zero] at hlayer
  rw [recomputeLayers, index_of_getElem? hdefault, index_of_getElem? hparent]
  simp only [ok_bind, hlayer, setItem_of_lt (show k <
      (mixedLayers hash (k + 1) old new 0).length by rw [length_mixedLayers]; omega),
    intHalf_two_pow_overflow hd, Except.error_bind]

end Recompute

/-- The layer of the root holds the root. -/
theorem index_layerAt_top (leaves : List Bytes) :
    index (layerAt hash d leaves d) 0 = .ok (PerfectTree.root hash zeroEntry d leaves) :=
  index_of_getElem? (getElem?_layerAt (by simp [width]))

theorem getRoot_perfect (leaves : List Bytes) :
    getRoot (perfect hash d leaves) = .ok (PerfectTree.root hash zeroEntry d leaves) := by
  have htop : (mixedLayers hash d leaves [] d)[0]? = some (layerAt hash d leaves d) := by
    rw [← Nat.sub_self d, getElem?_mixedLayers _ _ _ le_rfl, append_nil, ite_self]
  rw [getRoot, perfect, index_of_getElem? htop]
  exact index_layerAt_top leaves

/-- With new leaves, `recompute_root` is its loop and the checks after it. -/
theorem recomputeRoot_eq {old new : List Bytes} (h1 : 1 ≤ d) (hnew : new ≠ []) :
    recomputeRoot hash (pending hash d old new) = (do
      let (layers, layer, layerSize) ← recomputeLayers hash (defaultsFrom hash d) d
        (mixedLayers hash d old new 0) (PerfectTree.default hash zeroEntry 0)
        (layerAt hash d (old ++ new) 0) old.length (old ++ new).length (2 ^ d)
      assert (layer.length == 1) ""
      assert (layerSize == 1) ""
      let root ← index layer 0
      return (⟨2 ^ d, d, ⟨d, defaultsFrom hash d, layers⟩, 0⟩, root)) := by
  have hne : (new.length == 0) = false := by simpa using hnew
  have hdefault : (defaultsFrom hash d)[d]? = some (PerfectTree.default hash zeroEntry 0) :=
    getElem?_defaultsFrom (Nat.zero_le d)
  have hleaves : (mixedLayers hash d old new 0)[d]? = some (layerAt hash d (old ++ new) 0) :=
    getElem?_mixedLayers old new 0 (Nat.zero_le d)
  have hlen : (layerAt hash d (old ++ new) 0).length = (old ++ new).length := by
    rw [layerAt_zero h1]
  have hstart : (old ++ new).length - new.length = old.length := by
    rw [length_append, Nat.add_sub_cancel]
  rw [recomputeRoot, pending]
  simp only [hne, Bool.false_eq_true, if_false, index_of_getElem? hdefault,
    index_of_getElem? hleaves, ok_bind, hlen, hstart]

/-- `recompute_root` after leaves have been inserted. -/
theorem recomputeRoot_pending {old new : List Bytes} (h1 : 1 ≤ d) (hd : d ≤ 1024 ∨ new = [])
    (hle : (old ++ new).length ≤ 2 ^ d) (hfloat : (old ++ new).length ≤ 2 ^ 53 + 1) :
    recomputeRoot hash (pending hash d old new) =
      .ok (perfect hash d (old ++ new), PerfectTree.root hash zeroEntry d (old ++ new)) := by
  rcases eq_or_ne new [] with rfl | hnew
  · rw [pending_nil, append_nil, recomputeRoot, getRoot_perfect]
    rfl
  · have hlayers := @recomputeLayers_mixedLayers hash d old new hnew hle hfloat
      (hd.resolve_right hnew) 0 d (Nat.zero_add d)
    rw [pow_zero, Nat.div_one, populated_zero] at hlayers
    have hlen : (layerAt hash d (old ++ new) d).length = 1 := by
      rw [length_layerAt, width, if_pos rfl]
    rw [recomputeRoot_eq h1 hnew, hlayers, mixedLayers_top]
    simp only [ok_bind, hlen, beq_self_eq_true, assert_true, index_layerAt_top]
    rfl

/-- For depths from `1025` on, no root can be recomputed. -/
theorem recomputeRoot_overflow {old new : List Bytes} (hnew : new ≠ []) (hd : 1025 ≤ d)
    (hle : (old ++ new).length ≤ 2 ^ d) (hfloat : (old ++ new).length ≤ 2 ^ 53 + 1) :
    recomputeRoot hash (pending hash d old new) =
      .error (.overflowError "integer division result too large for a float") := by
  rw [recomputeRoot_eq (by omega) hnew, recomputeLayers_overflow hnew hle hfloat hd]
  rfl

/-! ### Batches -/

theorem insert_pending {old new : List Bytes} (h1 : 1 ≤ d) (hlt : (old ++ new).length < 2 ^ d)
    (value : Bytes) :
    insert (pending hash d old new) value = .ok (pending hash d old (new ++ [value])) := by
  have hleaves : (mixedLayers hash d old new 0)[d]? = some (old ++ new) := by
    refine (getElem?_mixedLayers old new 0 (Nat.zero_le d)).trans ?_
    rw [if_pos le_rfl, layerAt_zero h1]
  have hset : (mixedLayers hash d old new 0).set d (old ++ new ++ [value]) =
      mixedLayers hash d old (new ++ [value]) 0 := by
    rw [mixedLayers, set_map_range]
    refine map_congr_left fun i hi => ?_
    have hi' : i < d + 1 := mem_range.mp hi
    rw [Function.update_apply]
    by_cases hid : i = d
    · rw [if_pos hid, hid, Nat.sub_self, if_pos le_rfl, layerAt_zero h1, append_assoc]
    · rw [if_neg hid, if_neg (by omega), if_neg (by omega)]
  have hlength : d < (mixedLayers hash d old new 0).length := by
    rw [length_mixedLayers]
    omega
  rw [insert, pending, index_of_getElem? hleaves, ok_bind, assert_decide hlt,
    ok_bind, setItem_of_lt hlength, hset, pending]
  simp only [length_append, length_singleton]
  rfl

theorem insertAll_pending {old new : List Bytes} (h1 : 1 ≤ d) (values : List Bytes)
    (hle : (old ++ new ++ values).length ≤ 2 ^ d) :
    insertAll (pending hash d old new) values = .ok (pending hash d old (new ++ values)) := by
  induction values generalizing new with
  | nil => rw [append_nil, insertAll]
  | cons value values ih =>
    simp only [length_append, length_cons] at hle
    rw [insertAll, insert_pending h1 (by simp only [length_append]; omega), ok_bind,
      ih (by simp only [length_append, length_singleton]; omega), append_assoc,
      singleton_append]

theorem openFile_two_pow (hd : d < 1024) (file : Option MerkleTreeJson) :
    openFile hash file (2 ^ d) = do return new (← loadData hash d file) d := by
  rw [openFile, intLog2, Nat.log_pow one_lt_two, intPow2, if_pos hd]
  simp only [ok_bind, beq_self_eq_true, assert_true]

/-- A tree that is saved and loaded is the same tree. -/
theorem reload_perfect (hd : d < 1024) (leaves : List Bytes) :
    reload hash (perfect hash d leaves) = .ok (perfect hash d leaves) := by
  rw [reload, show (perfect hash d leaves).maxNumLeaves = 2 ^ d from rfl, openFile_two_pow hd,
    loadData, MerkleTreeData.fromJsonDict_toJsonDict, ok_bind, perfect, beq_self_eq_true,
    assert_true]
  rfl

/-- For depths from `1024` on, no tree can be loaded. -/
theorem reload_overflow (hd : 1024 ≤ d) (leaves : List Bytes) :
    reload hash (perfect hash d leaves) = .error (.overflowError "math range error") := by
  rw [reload, show (perfect hash d leaves).maxNumLeaves = 2 ^ d from rfl, openFile, intLog2,
    Nat.log_pow one_lt_two, intPow2, if_neg (not_lt.mpr hd)]
  rfl

/-- What a batch may do in a tree of some depth: insert leaves up to `1024`, and save and load the
tree up to `1023`. -/
def IsWithin (d : ℕ) (batch : List Bytes × Bool) : Prop :=
  (d ≤ 1024 ∨ batch.1 = []) ∧ (d < 1024 ∨ batch.2 = false)

/-- A batch takes the tree of the leaves to the tree of all leaves and returns its root. -/
theorem addBatch_perfect {leaves : List Bytes} (h1 : 1 ≤ d) {batch : List Bytes × Bool}
    (hd : IsWithin d batch) (hle : (leaves ++ batch.1).length ≤ 2 ^ d)
    (hfloat : (leaves ++ batch.1).length ≤ 2 ^ 53 + 1) :
    addBatch hash (perfect hash d leaves) batch =
      .ok (perfect hash d (leaves ++ batch.1),
        PerfectTree.root hash zeroEntry d (leaves ++ batch.1)) := by
  rw [addBatch, ← pending_nil, insertAll_pending h1 _ (by rwa [append_nil]), nil_append,
    ok_bind, recomputeRoot_pending h1 hd.1 hle hfloat, ok_bind]
  dsimp only
  split_ifs with hsave
  · rw [reload_perfect (hd.2.resolve_right (Bool.not_eq_false _ ▸ hsave))]
    rfl
  · rfl

/-- Any other batch raises. -/
theorem addBatch_raises {leaves : List Bytes} {batch : List Bytes × Bool} (hd : ¬ IsWithin d batch)
    (hle : (leaves ++ batch.1).length ≤ 2 ^ d) (hfloat : (leaves ++ batch.1).length ≤ 2 ^ 53 + 1) :
    ∃ message, addBatch hash (perfect hash d leaves) batch = .error (.overflowError message) := by
  have h1024 : 1024 ≤ d := by
    by_contra! hlt
    exact hd ⟨.inl hlt.le, .inl hlt⟩
  rw [addBatch, ← pending_nil, insertAll_pending (by omega) _ (by rwa [append_nil]),
    nil_append, ok_bind]
  by_cases hinsert : d ≤ 1024 ∨ batch.1 = []
  · have hsave : batch.2 = true := by
      by_contra hnot
      exact hd ⟨hinsert, .inr (Bool.not_eq_true _ ▸ hnot)⟩
    rw [recomputeRoot_pending (by omega) hinsert hle hfloat, ok_bind]
    dsimp only
    rw [if_pos hsave, reload_overflow h1024]
    exact ⟨_, rfl⟩
  · rw [not_or, not_le] at hinsert
    rw [recomputeRoot_overflow hinsert.2 hinsert.1 hle hfloat]
    exact ⟨_, rfl⟩

/-- The leaves of a history of batches. -/
def leavesOf (batches : List (List Bytes × Bool)) : List Bytes :=
  (batches.map Prod.fst).flatten

@[simp] theorem leavesOf_nil : leavesOf [] = [] := rfl

@[simp] theorem leavesOf_cons (batch : List Bytes × Bool) (batches : List (List Bytes × Bool)) :
    leavesOf (batch :: batches) = batch.1 ++ leavesOf batches := rfl

/-- A history of batches ends in the tree of all leaves and has returned the roots after each
batch. -/
theorem runBatches_perfect {leaves : List Bytes} (h1 : 1 ≤ d)
    {batches : List (List Bytes × Bool)} (hd : ∀ batch ∈ batches, IsWithin d batch)
    (hle : (leaves ++ leavesOf batches).length ≤ 2 ^ d)
    (hfloat : (leaves ++ leavesOf batches).length ≤ 2 ^ 53 + 1) :
    ∃ roots, runBatches hash (perfect hash d leaves) batches =
        .ok (perfect hash d (leaves ++ leavesOf batches), roots) ∧
      roots.length = batches.length ∧
      ∀ n < batches.length, roots[n]? =
        some (PerfectTree.root hash zeroEntry d (leaves ++ leavesOf (batches.take (n + 1)))) := by
  induction batches generalizing leaves with
  | nil => exact ⟨[], by simp [runBatches], rfl, fun n hn => absurd hn (Nat.not_lt_zero n)⟩
  | cons batch batches ih =>
    obtain ⟨hbatch, hbatches⟩ := forall_mem_cons.mp hd
    rw [leavesOf_cons, ← append_assoc] at hle hfloat
    have hsub : (leaves ++ batch.1).length ≤ (leaves ++ batch.1 ++ leavesOf batches).length := by
      simp
    obtain ⟨roots, hrun, hlen, hroots⟩ := ih hbatches hle hfloat
    refine ⟨PerfectTree.root hash zeroEntry d (leaves ++ batch.1) :: roots, ?_, by simp [hlen],
      fun n hn => ?_⟩
    · rw [runBatches, addBatch_perfect h1 hbatch (by omega) (by omega), ok_bind]
      dsimp only
      rw [hrun, ok_bind, leavesOf_cons, append_assoc]
      rfl
    · cases n with
      | zero => simp
      | succ n =>
        rw [List.getElem?_cons_succ, hroots n (by simpa using hn), take_succ_cons,
          leavesOf_cons, append_assoc]

/-- Any other history raises. -/
theorem runBatches_raises {leaves : List Bytes} (h1 : 1 ≤ d) {batches : List (List Bytes × Bool)}
    (hd : ¬ ∀ batch ∈ batches, IsWithin d batch)
    (hle : (leaves ++ leavesOf batches).length ≤ 2 ^ d)
    (hfloat : (leaves ++ leavesOf batches).length ≤ 2 ^ 53 + 1) :
    ∃ message, runBatches hash (perfect hash d leaves) batches =
      .error (.overflowError message) := by
  induction batches generalizing leaves with
  | nil => exact absurd (forall_mem_nil _) hd
  | cons batch batches ih =>
    rw [leavesOf_cons, ← append_assoc] at hle hfloat
    have hsub : (leaves ++ batch.1).length ≤ (leaves ++ batch.1 ++ leavesOf batches).length := by
      simp
    by_cases hbatch : IsWithin d batch
    · obtain ⟨message, hrun⟩ :=
        ih (fun hbatches => hd (forall_mem_cons.mpr ⟨hbatch, hbatches⟩)) hle hfloat
      refine ⟨message, ?_⟩
      rw [runBatches, addBatch_perfect h1 hbatch (by omega) (by omega), ok_bind]
      dsimp only
      rw [hrun, Except.error_bind]
    · obtain ⟨message, hrun⟩ :=
        @addBatch_raises hash d leaves batch hbatch (by omega) (by omega)
      exact ⟨message, by rw [runBatches, hrun, Except.error_bind]⟩

/-! ### New trees -/

/-- The loop of `_empty_data_with_depth` computes the default values of the layers above. -/
theorem fillDefaults_spec {i : ℕ} (hi : i ≤ d) :
    fillDefaults hash
        ((List.range (d + 1)).map fun k =>
          if i ≤ k then PerfectTree.default hash zeroEntry (d - k) else zeroEntry) i =
      .ok (defaultsFrom hash d) := by
  induction i with
  | zero =>
    rw [fillDefaults, defaultsFrom]
    simp only [Nat.zero_le, if_true]
  | succ i ih =>
    have hvalue : ((List.range (d + 1)).map fun k =>
        if i + 1 ≤ k then PerfectTree.default hash zeroEntry (d - k) else zeroEntry)[i + 1]? =
          some (PerfectTree.default hash zeroEntry (d - (i + 1))) := by
      rw [List.getElem?_map, List.getElem?_range (by omega), Option.map_some, if_pos le_rfl]
    have hsucc : d - i = d - (i + 1) + 1 := by omega
    rw [fillDefaults, index_of_getElem? hvalue, ok_bind, setItem_of_lt (by simp; omega),
      ok_bind, set_map_range, ← default_succ hash zeroEntry, ← hsucc, ← ih (by omega)]
    congr 1
    refine map_congr_left fun k _ => ?_
    rw [Function.update_apply]
    by_cases hk : k = i
    · rw [if_pos hk, if_pos hk.ge, hk]
    · rw [if_neg hk]
      by_cases hik : i + 1 ≤ k
      · rw [if_pos hik, if_pos (by omega)]
      · rw [if_neg hik, if_neg (by omega)]

/-- A tree with no leaves stores its root and nothing else. -/
theorem mixedLayers_empty :
    mixedLayers hash d [] [] d =
      [PerfectTree.default hash zeroEntry d] :: List.replicate d [] := by
  have hroot : layerAt hash d [] d = [PerfectTree.default hash zeroEntry d] := by
    rw [layerAt, width, if_pos rfl, ← root_nil]
    rfl
  simp only [mixedLayers, append_nil, ite_self, range_succ_eq_map, map_cons,
    map_map, Nat.sub_zero, hroot, List.cons.injEq, true_and]
  rw [eq_replicate_iff]
  refine ⟨by simp, fun layer hmem => ?_⟩
  obtain ⟨i, hi, rfl⟩ := mem_map.mp hmem
  have hlt : d - (i + 1) < d := by
    have := mem_range.mp hi
    omega
  rw [Function.comp_apply, layerAt, width_of_lt hlt, length_nil, populated_zero_left]
  rfl

/-- A new tree is the tree of no leaves. -/
theorem emptyWithDepth_eq : emptyWithDepth hash d = .ok (perfect hash d []) := by
  have hinit : List.replicate (d + 1) zeroEntry = (List.range (d + 1)).map fun k =>
      if d ≤ k then PerfectTree.default hash zeroEntry (d - k) else zeroEntry := by
    refine (eq_replicate_iff.mpr ⟨by simp, fun value hmem => ?_⟩).symm
    obtain ⟨k, hk, rfl⟩ := mem_map.mp hmem
    have hk' : k < d + 1 := mem_range.mp hk
    split_ifs with hdk
    · rw [Nat.sub_eq_zero_of_le hdk, default_zero]
    · rfl
  have hroot : (defaultsFrom hash d)[0]? = some (PerfectTree.default hash zeroEntry d) := by
    rw [← Nat.sub_self d, getElem?_defaultsFrom le_rfl]
  rw [emptyWithDepth, emptyDataWithDepth, hinit, fillDefaults_spec le_rfl, ok_bind,
    index_of_getElem? hroot, ok_bind, ← mixedLayers_empty]
  simp only [length_mixedLayers, beq_self_eq_true, assert_true]
  rfl

/-! ### Agreement with the perfect tree and with the contract -/

/-- The nodes read from the tree of a list of leaves are those of the perfect tree: the entries that
are not stored carry the default value. -/
theorem getNode_perfect {leaves : List Bytes} {layer idx : ℕ} (hlayer : layer ≤ d)
    (hidx : idx < 2 ^ (d - layer)) :
    getNode (perfect hash d leaves) layer idx =
      .ok (node hash (padded zeroEntry leaves) layer idx) := by
  have hnodes : (mixedLayers hash d leaves [] d)[d - layer]? =
      some (layerAt hash d leaves layer) := by
    rw [getElem?_mixedLayers _ _ _ hlayer, append_nil, ite_self]
  rw [getNode, perfect, assert_decide hlayer, ok_bind, beq_self_eq_true, assert_true,
    ok_bind]
  simp only [index_of_getElem? hnodes, ok_bind, length_layerAt]
  split_ifs with hlt
  · exact index_of_getElem? (getElem?_layerAt hlt)
  · rw [index_of_getElem? (getElem?_defaultsFrom hlayer),
      node_padded_of_length_le hash zeroEntry ?_]
    unfold width at hlt
    split_ifs at hlt with hd
    · rw [hd, Nat.sub_self, pow_zero] at hidx
      omega
    · exact (le_populated_mul _ layer).trans (Nat.mul_le_mul_right _ (by omega))

variable (hash d) in
/-- The client's run over the batches ends with every node that of the perfect tree over the leaves,
and returns the roots that the contract returns for the same batches. -/
def RefinesPerfectTree (batches : List (List Bytes × Bool)) : Prop :=
  ∃ t roots tc,
    runFromEmpty hash d batches = .ok (t, roots) ∧
    (∀ layer ≤ d, ∀ idx < 2 ^ (d - layer),
      getNode t layer idx = .ok (node hash (padded zeroEntry (leavesOf batches)) layer idx)) ∧
    AbstractMerkleTree.runBatches hash d (AbstractMerkleTree.initializeTree hash zeroEntry d)
      (batches.map Prod.fst) = .ok (tc, roots) ∧
    getRoot t = .ok (tc.nodes 0)

/-- **The client's tree refines the perfect tree and matches the contract.** For every depth, every
hash and every history of batches, whether or not the tree is saved and loaded between them, with
no more leaves than floating point numbers can halve: the run agrees with the perfect tree and with
the contract exactly when no leaf is inserted into a tree too deep for its number of leaves to be
halved, and no tree is loaded that is too deep for this number to be a floating point number. -/
theorem refinesPerfectTree_iff (hash : Bytes → Bytes → Bytes) (d : ℕ) (h1 : 1 ≤ d)
    (batches : List (List Bytes × Bool)) (hle : (leavesOf batches).length ≤ 2 ^ d)
    (hfloat : (leavesOf batches).length ≤ 2 ^ 53 + 1) :
    RefinesPerfectTree hash d batches ↔
      ∀ batch ∈ batches, (d ≤ 1024 ∨ batch.1 = []) ∧ (d < 1024 ∨ batch.2 = false) := by
  constructor
  · rintro ⟨t, roots, tc, hrun, -⟩
    by_contra hd
    obtain ⟨message, hraises⟩ := @runBatches_raises hash d [] h1 batches hd hle hfloat
    rw [runFromEmpty, emptyWithDepth_eq, ok_bind, hraises] at hrun
    cases hrun
  · intro hd
    obtain ⟨roots, hrun, hlen, hroots⟩ := @runBatches_perfect hash d [] h1 batches hd hle hfloat
    obtain ⟨tc, roots', hrun', hc, hlen', hroots'⟩ :=
      (@AbstractMerkleTree.complete_initializeTree Bytes hash zeroEntry d).runBatches
        (batches.map Prod.fst) (by rwa [length_nil, Nat.zero_add])
    have heq : roots' = roots := by
      refine ext_getElem? fun n => ?_
      by_cases hn : n < batches.length
      · rw [hroots n hn, hroots' n (by rwa [length_map]), ← map_take]
        rfl
      · rw [length_map] at hlen'
        rw [List.getElem?_eq_none (by omega), List.getElem?_eq_none (by omega)]
    subst heq
    refine ⟨_, _, tc, ?_, fun layer hlayer idx hidx => getNode_perfect hlayer hidx, hrun', ?_⟩
    · rw [runFromEmpty, emptyWithDepth_eq, ok_bind, hrun, nil_append]
    · rw [getRoot_perfect, hc.nodes_zero]
      rfl

/-- Two batches in a tree of depth two, saved and loaded in between. -/
theorem refinesPerfectTree_two_batches :
    RefinesPerfectTree (fun l r => l ++ r) 2 [([[1]], true), ([[2], [3]], false)] :=
  (refinesPerfectTree_iff (fun l r => l ++ r) 2 (by decide) [([[1]], true), ([[2], [3]], false)]
    (by decide) (by decide)).mpr fun batch _ => ⟨.inl (by decide), .inl (by decide)⟩

/-- In a tree of depth `1025` the first leaf makes `recompute_root` raise. -/
theorem runFromEmpty_depth_1025 :
    runFromEmpty (fun l r => l ++ r) 1025 [([[1]], false)] =
        .error (.overflowError "integer division result too large for a float") ∧
      ¬ RefinesPerfectTree (fun l r => l ++ r) 1025 [([[1]], false)] := by
  have hrun : runFromEmpty (fun l r => l ++ r) 1025 [([[1]], false)] =
      .error (.overflowError "integer division result too large for a float") := by
    have hroot : recomputeRoot (fun l r => l ++ r) (pending (fun l r => l ++ r) 1025 [] [[1]]) =
        .error (.overflowError "integer division result too large for a float") :=
      recomputeRoot_overflow (by simp) le_rfl Nat.one_le_two_pow (by decide)
    rw [runFromEmpty, emptyWithDepth_eq, ok_bind, runBatches, addBatch, ← pending_nil,
      insertAll_pending (by decide) _ Nat.one_le_two_pow, ok_bind, nil_append, hroot]
    rfl
  refine ⟨hrun, ?_⟩
  rintro ⟨t, roots, tc, hok, -⟩
  rw [hrun] at hok
  cases hok

end Zeth.Client.MerkleTree
