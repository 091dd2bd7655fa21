import Zeth.Foundation.Python

/-!
# The Merkle tree of the client

The client keeps its copy of the tree as one list for each layer, from the root down to the leaves
(`client/zeth/core/merkle_tree.py`). A layer holds only the nodes above a leaf, except that the
layer of the root always holds one entry. `MerkleTree.insert` appends a leaf, and
`MerkleTree.recompute_root` extends the layers above the leaves appended since the last call and
rehashes their nodes from right to left. The data of a tree is saved to and loaded from JSON with
its byte strings in hexadecimal.

The hash is a parameter of the functions rather than a field of the tree. A function that raises
returns no tree: nothing is said here about the lists it has changed before. Of the halvings of the
source some are written `x >> 1` and some `int(x / 2)`, and these are not the same function
(`Python.intHalf`).

## Main definitions

* `MerkleTreeData`, `MerkleTreeData.toJsonDict`, `MerkleTreeData.fromJsonDict`.
* `MerkleTree`, `MerkleTree.emptyWithDepth`, `MerkleTree.getNode`, `MerkleTree.getRoot`,
  `MerkleTree.insert`, `MerkleTree.recomputeRoot`, `MerkleTree.openFile`, `MerkleTree.reload`.
-/

namespace Zeth.Client

open ByteString Python

/-- `ZERO_ENTRY`. -/
def zeroEntry : Bytes := List.replicate 32 0

/-! ### The data of a tree -/

/-- The persisted container of a tree, the layers ordered from the root down. -/
structure MerkleTreeData where
  depth : ℕ
  defaultValues : List Bytes
  layers : List (List Bytes)
  deriving DecidableEq, Repr

/-- The dictionary a `MerkleTreeData` is saved as. -/
structure MerkleTreeJson where
  depth : ℕ
  defaultValues : List String
  layers : List (List String)
  deriving DecidableEq, Repr

/-- `_to_list_bytes`. -/
def toListBytes (listStr : List String) : Except Exc (List Bytes) := listStr.mapM fromhex

/-- `_to_list_str`. -/
def toListStr (listBytes : List Bytes) : List String := listBytes.map hex

/-- `MerkleTreeData.to_json_dict`. -/
def MerkleTreeData.toJsonDict (data : MerkleTreeData) : MerkleTreeJson where
  depth := data.depth
  defaultValues := toListStr data.defaultValues
  layers := data.layers.map toListStr

/-- `MerkleTreeData.from_json_dict`. -/
def MerkleTreeData.fromJsonDict (json : MerkleTreeJson) : Except Exc MerkleTreeData := do
  let defaultValues ← toListBytes json.defaultValues
  let layers ← json.layers.mapM toListBytes
  return ⟨json.depth, defaultValues, layers⟩

/-- Saved data loads back. -/
theorem MerkleTreeData.fromJsonDict_toJsonDict (data : MerkleTreeData) :
    fromJsonDict data.toJsonDict = .ok data := by
  have hlist (l : List Bytes) : toListBytes (toListStr l) = .ok l := mapM_fromhex_map_hex l
  have hlayers : (data.layers.map toListStr).mapM toListBytes = .ok data.layers := by
    rw [Except.mapM_map_eq_ok hlist, List.map_id']
  rw [fromJsonDict, toJsonDict, hlist, Except.ok_bind, hlayers]
  rfl

/-! ### Trees -/

/-- A tree together with the number of leaves that no root has been computed for. -/
structure MerkleTree where
  maxNumLeaves : ℕ
  depth : ℕ
  treeData : MerkleTreeData
  numNewLeaves : ℕ
  deriving DecidableEq, Repr

namespace MerkleTree

variable (hash : Bytes → Bytes → Bytes)

/-- `MerkleTree.__init__`. -/
def new (treeData : MerkleTreeData) (depth : ℕ) : MerkleTree where
  maxNumLeaves := 2 ^ depth
  depth := treeData.depth
  treeData := treeData
  numNewLeaves := 0

/-- The loop of `_empty_data_with_depth`, over the entries below the given index. -/
def fillDefaults (defaultValues : List Bytes) : ℕ → Except Exc (List Bytes)
  | 0 => .ok defaultValues
  | i + 1 => do
    let value ← index defaultValues (i + 1)
    let defaultValues ← setItem defaultValues i (hash value value)
    fillDefaults defaultValues i

/-- `_empty_data_with_depth`. -/
def emptyDataWithDepth (depth : ℕ) : Except Exc MerkleTreeData := do
  let defaultValues ← fillDefaults hash (List.replicate (depth + 1) zeroEntry) depth
  let root ← index defaultValues 0
  let layers := [root] :: List.replicate depth []
  assert (layers.length == depth + 1) ""
  return ⟨depth, defaultValues, layers⟩

/-- `empty_with_depth`. -/
def emptyWithDepth (depth : ℕ) : Except Exc MerkleTree := do
  return new (← emptyDataWithDepth hash depth) depth

/-- `get_num_entries`. -/
def getNumEntries (t : MerkleTree) : Except Exc ℕ := do
  return (← index t.treeData.layers t.depth).length

/-- `get_leaf`. -/
def getLeaf (t : MerkleTree) (idx : ℕ) : Except Exc Bytes := do
  let leaves ← index t.treeData.layers t.depth
  if idx < leaves.length then index leaves idx else return zeroEntry

/-- `get_node`, whose first argument counts the layers from the leaves. -/
def getNode (t : MerkleTree) (layerIdx nodeIdx : ℕ) : Except Exc Bytes := do
  assert (layerIdx ≤ t.depth) ""
  assert (t.numNewLeaves == 0) ""
  let layerIdx := t.depth - layerIdx
  let layer ← index t.treeData.layers layerIdx
  if nodeIdx < layer.length then index layer nodeIdx
  else index t.treeData.defaultValues layerIdx

/-- `get_root`. -/
def getRoot (t : MerkleTree) : Except Exc Bytes := do
  assert (t.numNewLeaves == 0) ""
  index (← index t.treeData.layers 0) 0

/-- `insert`. -/
def insert (t : MerkleTree) (value : Bytes) : Except Exc MerkleTree := do
  let leaves ← index t.treeData.layers t.depth
  assert (leaves.length < t.maxNumLeaves) ""
  let layers ← setItem t.treeData.layers t.depth (leaves ++ [value])
  return { t with
    treeData := { t.treeData with layers := layers }
    numNewLeaves := t.numNewLeaves + 1 }

/-! ### Recomputing the root -/

/-- The loop of `_recompute_layer` over the populated pairs, from right to left. -/
def recomputePairs (childLayer parentLayer : List Bytes) (childLeftIdx childLeftIdxRend : ℕ) :
    Except Exc (List Bytes) :=
  if childLeftIdx > childLeftIdxRend then do
    let childLeftIdx' := childLeftIdx - 2
    let left ← index childLayer childLeftIdx'
    let right ← index childLayer (childLeftIdx' + 1)
    let parentLayer ← setItem parentLayer (childLeftIdx' >>> 1) (hash left right)
    recomputePairs childLayer parentLayer childLeftIdx' childLeftIdxRend
  else .ok parentLayer
termination_by childLeftIdx

/-- `_recompute_layer`: the parent layer after the nodes above `[childStartIdx, childEndIdx[` have
been recomputed, and the range of the recomputed nodes. -/
def recomputeLayer (childLayer : List Bytes) (childStartIdx childEndIdx : ℕ)
    (childDefaultValue : Bytes) (parentLayer : List Bytes) :
    Except Exc (List Bytes × ℕ × ℕ) := do
  let newParentLayerLength ← intHalf (childEndIdx + 1)
  let parentLayer :=
    parentLayer ++ List.replicate (newParentLayerLength - parentLayer.length) zeroEntry
  let childLeftIdxRend := 2 * (← intHalf childStartIdx)
  let (parentLayer, childLeftIdx) ←
    if childEndIdx &&& 1 ≠ 0 then do
      -- the right sibling is missing: the default value of the layer stands in for it
      let childLeftIdx := childEndIdx - 1
      let left ← index childLayer childLeftIdx
      let parentLayer ← setItem parentLayer (childLeftIdx >>> 1) (hash left childDefaultValue)
      pure (parentLayer, childLeftIdx)
    else pure (parentLayer, childEndIdx)
  let parentLayer ← recomputePairs hash childLayer parentLayer childLeftIdx childLeftIdxRend
  return (parentLayer, childStartIdx >>> 1, newParentLayerLength)

/-- The loop of `recompute_root` over the layers above the one at the given index, whose entries and
default value are `layer` and `layerDefault`. It ends with all layers, the layer of the root and
the number of nodes that layer should have. -/
def recomputeLayers (defaultValues : List Bytes) :
    ℕ → List (List Bytes) → Bytes → List Bytes → ℕ → ℕ → ℕ →
      Except Exc (List (List Bytes) × List Bytes × ℕ)
  | 0, layers, _, layer, _, _, layerSize => .ok (layers, layer, layerSize)
  | i + 1, layers, layerDefault, layer, startIdx, endIdx, layerSize => do
    let parentDefault ← index defaultValues i
    let parentLayer ← index layers i
    let (parentLayer, startIdx, endIdx) ←
      recomputeLayer hash layer startIdx endIdx layerDefault parentLayer
    let layers ← setItem layers i parentLayer
    let layerSize ← intHalf layerSize
    recomputeLayers defaultValues i layers parentDefault parentLayer startIdx endIdx layerSize

/-- `recompute_root`: the tree after the call and the root it returns. -/
def recomputeRoot (t : MerkleTree) : Except Exc (MerkleTree × Bytes) := do
  if t.numNewLeaves == 0 then
    return (t, ← getRoot t)
  let layerDefault ← index t.treeData.defaultValues t.depth
  let layer ← index t.treeData.layers t.depth
  let endIdx := layer.length
  let startIdx := endIdx - t.numNewLeaves
  let (layers, layer, layerSize) ← recomputeLayers hash t.treeData.defaultValues t.depth
    t.treeData.layers layerDefault layer startIdx endIdx t.maxNumLeaves
  assert (layer.length == 1) ""
  assert (layerSize == 1) ""
  let root ← index layer 0
  return ({ t with treeData := { t.treeData with layers := layers }, numNewLeaves := 0 }, root)

/-- The data that `PersistentMerkleTree.open` loads, or makes where there is no file. -/
def loadData (depth : ℕ) : Option MerkleTreeJson → Except Exc MerkleTreeData
  | some json => do
    let treeData ← MerkleTreeData.fromJsonDict json
    assert (depth == treeData.depth) ""
    return treeData
  | none => emptyDataWithDepth hash depth

/-- `PersistentMerkleTree.open`, on the content of the file. -/
def openFile (file : Option MerkleTreeJson) (maxNumLeaves : ℕ) : Except Exc MerkleTree := do
  let depth := intLog2 maxNumLeaves
  assert (maxNumLeaves == (← intPow2 depth)) ""
  return new (← loadData hash depth file) depth

/-- `save`, and `PersistentMerkleTree.open` for the same number of leaves. -/
def reload (t : MerkleTree) : Except Exc MerkleTree :=
  openFile hash (some t.treeData.toJsonDict) t.maxNumLeaves

/-- Calls of `insert` one after the other. -/
def insertAll (t : MerkleTree) : List Bytes → Except Exc MerkleTree
  | [] => .ok t
  | value :: values => do insertAll (← insert t value) values

/-- A batch: leaves are inserted, the root is recomputed, and the tree is saved and loaded again
when the flag is set. -/
def addBatch (t : MerkleTree) (batch : List Bytes × Bool) : Except Exc (MerkleTree × Bytes) := do
  let (t, root) ← recomputeRoot hash (← insertAll t batch.1)
  if batch.2 then return (← reload hash t, root)
  return (t, root)

/-- Batches one after the other, with the roots returned for them. -/
def runBatches (t : MerkleTree) :
    List (List Bytes × Bool) → Except Exc (MerkleTree × List Bytes)
  | [] => .ok (t, [])
  | batch :: batches => do
    let (t, root) ← addBatch hash t batch
    let (t, roots) ← runBatches t batches
    return (t, root :: roots)

/-- Batches from a new tree. -/
def runFromEmpty (depth : ℕ) (batches : List (List Bytes × Bool)) :
    Except Exc (MerkleTree × List Bytes) := do
  runBatches hash (← emptyWithDepth hash depth) batches

end MerkleTree

end Zeth.Client
