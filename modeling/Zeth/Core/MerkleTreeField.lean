import Mathlib.Algebra.Field.Rat
import Mathlib.Data.List.Induction
import Mathlib.Data.Nat.Bitwise
import Mathlib.Data.Nat.Log
import Zeth.Foundation.OrderedMap
import Zeth.Foundation.PerfectTree

/-!
# The Merkle tree of the C++ library

`libzeth/core/merkle_tree_field.tcc`. The tree is a map of the leaves that were set and a map of the
nodes above them, numbered as in a heap: the children of node `i` are `2 * i + 1` and `2 * i + 2`.
Nodes that are not in the map have the value of an empty subtree. Numbers are of the type `size_t`,
of 64 bits.

The address of a leaf is checked by its logarithm, rounded up, so one address too many passes: the
number of leaves itself. Its node is a child of the first leaf.

## Main definitions

* `MerkleTreeField`, `MerkleTreeField.new`, `MerkleTreeField.setValue`.
* `MerkleTreeField.getValue`, `MerkleTreeField.getRoot`, `MerkleTreeField.getPath`.
* `MerkleTreeField.Represents`: a tree and its leaves.

## Main results

* `MerkleTreeField.Represents.setValue`: a call of `set_value` replaces a leaf.
* `MerkleTreeField.Represents.getPath`, `MerkleTreeField.Represents.foldPath`.
* `MerkleTreeField.addresses_safe_iff`.
-/

namespace Zeth.Core

open OrderedMap PerfectTree List

/-! ### Numbering of nodes -/

/-- A number as a `size_t`. -/
def sizeT (n : ℕ) : ℕ := n % 2 ^ 64

/-- `address + (1ul << depth) - 1`. -/
def leafIdx (depth address : ℕ) : ℕ := sizeT (address + 2 ^ depth - 1)

/-- `(idx - 1) / 2`. -/
def parentIdx (idx : ℕ) : ℕ := sizeT (idx + (2 ^ 64 - 1)) / 2

/-- `2 * idx + 1`. -/
def leftIdx (idx : ℕ) : ℕ := sizeT (2 * idx + 1)

/-- `2 * idx + 2`. -/
def rightIdx (idx : ℕ) : ℕ := sizeT (2 * idx + 2)

/-- `((idx + 1) ^ 1) - 1`. -/
def siblingIdx (idx : ℕ) : ℕ := sizeT ((sizeT (idx + 1) ^^^ 1) + (2 ^ 64 - 1))

/-- The number of the node at a position of a layer. -/
def heapIdx (layer position : ℕ) : ℕ := 2 ^ layer - 1 + position

section Indices

variable {l p : ℕ}

theorem sizeT_of_lt {n : ℕ} (h : n < 2 ^ 64) : sizeT n = n := Nat.mod_eq_of_lt h

/-- The node above. -/
theorem parentIdx_of_pos {idx : ℕ} (hpos : 0 < idx) (hlt : idx < 2 ^ 64) :
    parentIdx idx = (idx - 1) / 2 := by
  rw [parentIdx, sizeT, show idx + (2 ^ 64 - 1) = idx - 1 + 2 ^ 64 by omega, Nat.add_mod_right,
    Nat.mod_eq_of_lt (by omega)]

/-- The nodes of the first 64 layers have numbers of 64 bits. -/
theorem heapIdx_lt (hl : l < 64) (hp : p < 2 ^ l) : heapIdx l p + 1 < 2 ^ 64 := by
  have hpow : 2 ^ (l + 1) ≤ 2 ^ 64 := Nat.pow_le_pow_right (by omega) hl
  rw [pow_succ] at hpow
  rw [heapIdx]
  omega

theorem heapIdx_inj {l' p' : ℕ} (hp : p < 2 ^ l) (hp' : p' < 2 ^ l')
    (h : heapIdx l p = heapIdx l' p') : l = l' ∧ p = p' := by
  have hlog : ∀ {k j : ℕ}, j < 2 ^ k → Nat.log 2 (heapIdx k j + 1) = k := by
    intro k j hj
    have hpos := Nat.two_pow_pos k
    refine Nat.log_eq_of_pow_le_of_lt_pow ?_ ?_
    · rw [heapIdx]
      omega
    · rw [heapIdx, pow_succ]
      omega
  obtain rfl : l = l' := by rw [← hlog hp, h, hlog hp']
  rw [heapIdx, heapIdx] at h
  exact ⟨rfl, by omega⟩

theorem heapIdx_ne_of_layer {l' p' : ℕ} (hp : p < 2 ^ l) (hp' : p' < 2 ^ l') (h : l ≠ l') :
    heapIdx l p ≠ heapIdx l' p' := fun heq => h (heapIdx_inj hp hp' heq).1

theorem leafIdx_eq_of_le (hl : l < 64) (hp : p ≤ 2 ^ l) : leafIdx l p = heapIdx l p := by
  have hpow : 2 ^ (l + 1) ≤ 2 ^ 64 := Nat.pow_le_pow_right (by omega) hl
  have hpos := Nat.two_pow_pos l
  rw [pow_succ] at hpow
  rw [leafIdx, heapIdx, sizeT_of_lt (by omega)]
  omega

theorem leafIdx_eq (hl : l < 64) (hp : p < 2 ^ l) : leafIdx l p = heapIdx l p :=
  leafIdx_eq_of_le hl hp.le

theorem parentIdx_heapIdx (hl : l + 1 < 64) (hp : p < 2 ^ (l + 1)) :
    parentIdx (heapIdx (l + 1) p) = heapIdx l (p / 2) := by
  have hlt := heapIdx_lt hl hp
  have hpos := Nat.two_pow_pos l
  rw [heapIdx, pow_succ] at hlt ⊢
  rw [parentIdx_of_pos (by omega) (by omega), heapIdx]
  omega

theorem leftIdx_heapIdx (hl : l + 1 < 64) (hp : p < 2 ^ l) :
    leftIdx (heapIdx l p) = heapIdx (l + 1) (2 * p) := by
  have hlt := heapIdx_lt (p := 2 * p) hl (by rw [pow_succ]; omega)
  have hpos := Nat.two_pow_pos l
  rw [heapIdx, pow_succ] at hlt
  rw [leftIdx, heapIdx, heapIdx, pow_succ, sizeT_of_lt (by omega)]
  omega

theorem rightIdx_heapIdx (hl : l + 1 < 64) (hp : p < 2 ^ l) :
    rightIdx (heapIdx l p) = heapIdx (l + 1) (2 * p + 1) := by
  have hlt := heapIdx_lt (p := 2 * p + 1) hl (by rw [pow_succ]; omega)
  have hpos := Nat.two_pow_pos l
  rw [heapIdx, pow_succ] at hlt
  rw [rightIdx, heapIdx, heapIdx, pow_succ, sizeT_of_lt (by omega)]
  omega

theorem siblingIdx_heapIdx (hl : l + 1 < 64) (hp : p < 2 ^ (l + 1)) :
    siblingIdx (heapIdx (l + 1) p) = heapIdx (l + 1) (sibling p) := by
  have hlt := heapIdx_lt hl hp
  have hpos := Nat.two_pow_pos l
  rw [siblingIdx, sizeT_of_lt hlt, sibling]
  rw [heapIdx, pow_succ] at hlt ⊢
  rw [show 2 ^ l * 2 - 1 + p + 1 = 2 ^ l * 2 + p by omega] at hlt ⊢
  split_ifs with hodd
  · rw [Nat.xor_one_of_odd (Nat.odd_iff.mpr (by omega)), sizeT,
      show 2 ^ l * 2 + p - 1 + (2 ^ 64 - 1) = 2 ^ l * 2 + p - 2 + 2 ^ 64 by omega,
      Nat.add_mod_right, Nat.mod_eq_of_lt (by omega), heapIdx, pow_succ]
    omega
  · rw [Nat.xor_one_of_even (Nat.even_iff.mpr (by omega)), sizeT,
      show 2 ^ l * 2 + p + 1 + (2 ^ 64 - 1) = 2 ^ l * 2 + p + 2 ^ 64 by omega,
      Nat.add_mod_right, Nat.mod_eq_of_lt (by omega), heapIdx, pow_succ]
    omega

end Indices

/-! ### The tree -/

/-- `merkle_tree_field`. -/
structure MerkleTreeField (FieldT : Type*) where
  hashDefaults : List FieldT
  values : OrderedMap ℕ FieldT
  hashes : OrderedMap ℕ FieldT
  depth : ℕ

namespace MerkleTreeField

variable {FieldT : Type*} [Zero FieldT] (getHash : FieldT → FieldT → FieldT)

/-- The values that the loop of the constructor adds, from the last one before it. -/
def defaultsAfter (last : FieldT) : ℕ → List FieldT
  | 0 => []
  | n + 1 => getHash last last :: defaultsAfter (getHash last last) n

/-- The constructor of the empty tree. -/
def new (depth : ℕ) : Option (MerkleTreeField FieldT) :=
  if depth < 64 then
    some ⟨(0 :: defaultsAfter getHash 0 depth).reverse, .empty, .empty, depth⟩
  else none

/-- `hash_defaults[layer]`. -/
def hashDefault (t : MerkleTreeField FieldT) (layer : ℕ) : FieldT := t.hashDefaults.getD layer 0

/-- The assertion on addresses, `libff::log2(address) <= depth`. -/
def admits (t : MerkleTreeField FieldT) (address : ℕ) : Bool := Nat.clog 2 address ≤ t.depth

/-- `get_value`. -/
def getValue (t : MerkleTreeField FieldT) (address : ℕ) : Option FieldT :=
  if t.admits address then some ((t.values.find address).getD 0) else none

/-- The loop of `set_value`, from layer `n - 1` to the root. -/
def updatePath (hashDefault : ℕ → FieldT) : ℕ → ℕ → OrderedMap ℕ FieldT → OrderedMap ℕ FieldT
  | 0, _, hashes => hashes
  | layer + 1, idx, hashes =>
    let idx := parentIdx idx
    let l := (hashes.find (leftIdx idx)).getD (hashDefault (layer + 1))
    let r := (hashes.find (rightIdx idx)).getD (hashDefault (layer + 1))
    updatePath hashDefault layer idx (hashes.set idx (getHash l r))

/-- `set_value`. -/
def setValue (t : MerkleTreeField FieldT) (address : ℕ) (value : FieldT) :
    Option (MerkleTreeField FieldT) :=
  if t.admits address then
    let idx := leafIdx t.depth address
    some { t with
      values := t.values.set address value
      hashes := updatePath getHash t.hashDefault t.depth idx (t.hashes.set idx value) }
  else none

/-- `get_root`. -/
def getRoot (t : MerkleTreeField FieldT) : FieldT := (t.hashes.find 0).getD (t.hashDefault 0)

/-- The loop of `get_path`, from a layer to the root, in the order of the result, which is reversed
at the end. -/
def siblingsFrom (t : MerkleTreeField FieldT) : ℕ → ℕ → List FieldT
  | 0, _ => []
  | layer + 1, idx =>
    (if layer + 1 = t.depth then
      (t.values.find (sizeT (siblingIdx idx + 2 ^ 64 - (2 ^ t.depth - 1)))).getD 0
    else (t.hashes.find (siblingIdx idx)).getD (t.hashDefault (layer + 1))) ::
      t.siblingsFrom layer (parentIdx idx)

/-- `get_path`. -/
def getPath (t : MerkleTreeField FieldT) (address : ℕ) : Option (List FieldT) :=
  if t.admits address then some (t.siblingsFrom t.depth (leafIdx t.depth address)) else none

/-- Calls of `set_value`, one after the other. -/
def setValues (t : MerkleTreeField FieldT) : List (ℕ × FieldT) → Option (MerkleTreeField FieldT)
  | [] => some t
  | (address, value) :: calls => (t.setValue getHash address value).bind (setValues · calls)

/-- The hash of a leaf with the siblings of a path, which are on the left where the address has a bit
set. -/
def foldPath (address : ℕ) (value : FieldT) (path : List FieldT) : FieldT :=
  PerfectTree.foldPath getHash value (((List.range path.length).map address.testBit).zip path)

/-! ### Trees and their leaves -/

/-- What is read of a layer is the layer of the tree over the leaves. -/
def ReadsLayer (d : ℕ) (leaf : ℕ → FieldT) (hashes : OrderedMap ℕ FieldT) (l : ℕ) : Prop :=
  ∀ p < 2 ^ l, (hashes.find (heapIdx l p)).getD (PerfectTree.default getHash 0 (d - l)) =
    node getHash leaf (d - l) p

/-- What is read of a tree is the tree over the leaves. -/
structure Represents (t : MerkleTreeField FieldT) (d : ℕ) (leaf : ℕ → FieldT) : Prop where
  depth_eq : t.depth = d
  depth_lt : d < 64
  hashDefault_eq : ∀ l ≤ d, t.hashDefault l = PerfectTree.default getHash 0 (d - l)
  values : ∀ a < 2 ^ d, (t.values.find a).getD 0 = leaf a
  hashes : ∀ l ≤ d, ReadsLayer getHash d leaf t.hashes l

variable {getHash} {t t' : MerkleTreeField FieldT} {d : ℕ} {leaf : ℕ → FieldT}

omit [Zero FieldT] in
theorem getD_defaultsAfter (last : FieldT) (n i : ℕ) (hi : i ≤ n) (x : FieldT) :
    (last :: defaultsAfter getHash last n).getD i x = PerfectTree.default getHash last i := by
  induction n generalizing last i with
  | zero =>
    obtain rfl : i = 0 := by omega
    rfl
  | succ n ih =>
    cases i with
    | zero => rfl
    | succ i =>
      rw [getD_cons_succ, defaultsAfter, ih _ i (by omega), default_hash_self]

omit [Zero FieldT] in
@[simp] theorem length_defaultsAfter (last : FieldT) (n : ℕ) :
    (defaultsAfter getHash last n).length = n := by
  induction n generalizing last with
  | zero => rfl
  | succ n ih => rw [defaultsAfter, length_cons, ih]

omit [Zero FieldT] in
theorem admits_iff {a : ℕ} : t.admits a = true ↔ a ≤ 2 ^ t.depth := by
  rw [admits, decide_eq_true_iff, Nat.clog_le_iff_le_pow one_lt_two]

theorem Represents.admits (ht : Represents getHash t d leaf) {a : ℕ} (ha : a ≤ 2 ^ d) :
    t.admits a = true := by
  rw [admits_iff, ht.depth_eq]
  exact ha

/-- The empty tree. -/
theorem represents_new (getHash : FieldT → FieldT → FieldT) (hd : d < 64) :
    ∃ t, new getHash d = some t ∧ t.values = .empty ∧ t.hashes = .empty ∧
      Represents getHash t d fun _ => 0 := by
  refine ⟨_, if_pos hd, rfl, rfl, rfl, hd, fun l hl => ?_, fun a _ => rfl, fun l _ p _ => ?_⟩
  · have hlen : (0 :: defaultsAfter getHash 0 d).length = d + 1 := by simp
    rw [hashDefault, getD_eq_getElem?_getD, List.getElem?_reverse (by omega), hlen,
      ← getD_eq_getElem?_getD, getD_defaultsAfter _ _ _ (by omega),
      show d + 1 - 1 - l = d - l by omega]
  · rw [find_empty, Option.getD_none]
    exact (node_eq_default getHash 0 (fun _ _ => rfl) _ p (Nat.zero_le _)).symm

section Represents

variable (ht : Represents getHash t d leaf) {a : ℕ} (ha : a < 2 ^ d)

include ht

theorem Represents.getRoot : t.getRoot = node getHash leaf d 0 := by
  have hroot := ht.hashes 0 (Nat.zero_le d) 0 (by simp)
  rw [MerkleTreeField.getRoot, ht.hashDefault_eq 0 (Nat.zero_le d)]
  exact hroot

include ha

theorem Represents.getValue : t.getValue a = some (leaf a) := by
  rw [MerkleTreeField.getValue, if_pos (ht.admits ha.le), ht.values a ha]

/-- The siblings above a node. -/
theorem Represents.siblingsFrom {l : ℕ} (hl : l ≤ d) :
    t.siblingsFrom l (heapIdx l (a / 2 ^ (d - l))) =
      (List.range l).map fun k => node getHash leaf (d - l + k)
        (sibling (a / 2 ^ (d - l + k))) := by
  induction l with
  | zero => rfl
  | succ l ih =>
    have hd := ht.depth_lt
    have hpos : a / 2 ^ (d - (l + 1)) < 2 ^ (l + 1) := by
      rw [Nat.div_lt_iff_lt_mul (Nat.two_pow_pos _), ← pow_add]
      rwa [show l + 1 + (d - (l + 1)) = d by omega]
    have hsib := sibling_lt (Nat.succ_pos l) hpos
    have hup : a / 2 ^ (d - (l + 1)) / 2 = a / 2 ^ (d - l) := by
      rw [Nat.div_div_eq_div_mul, ← pow_succ, show d - (l + 1) + 1 = d - l by omega]
    have hread := ht.hashes (l + 1) hl _ hsib
    rw [MerkleTreeField.siblingsFrom, parentIdx_heapIdx (by omega) hpos, hup, ih (by omega),
      range_succ_eq_map, map_cons, map_map, siblingIdx_heapIdx (by omega) hpos,
      ht.depth_eq, Nat.add_zero]
    congr 1
    · split_ifs with hlast
      · -- the leaves are read from the other map
        subst hlast
        have hidx : sizeT (heapIdx (l + 1) (sibling (a / 2 ^ (l + 1 - (l + 1)))) + 2 ^ 64 -
            (2 ^ (l + 1) - 1)) = sibling (a / 2 ^ (l + 1 - (l + 1))) := by
          have hlt := heapIdx_lt hd hsib
          rw [heapIdx] at hlt ⊢
          rw [sizeT, show ∀ x y : ℕ, x + y + 2 ^ 64 - x = y + 2 ^ 64 by omega, Nat.add_mod_right,
            Nat.mod_eq_of_lt (by omega)]
        rw [hidx, ht.values _ hsib, Nat.sub_self]
        rfl
      · rw [ht.hashDefault_eq (l + 1) hl, hread]
        rfl
    · refine map_congr_left fun k _ => ?_
      rw [Function.comp_apply, show d - (l + 1) + (k + 1) = d - l + k by omega]

theorem Represents.getPath :
    t.getPath a = some ((List.range d).map fun k =>
      node getHash leaf k (sibling (a / 2 ^ k))) := by
  have hpath := ht.siblingsFrom ha le_rfl
  rw [Nat.sub_self, pow_zero, Nat.div_one] at hpath
  rw [MerkleTreeField.getPath, if_pos (ht.admits ha.le), ht.depth_eq, leafIdx_eq ht.depth_lt ha,
    hpath]
  simp only [Nat.zero_add]

/-- The path of a leaf gives the root. -/
theorem Represents.foldPath :
    ∃ path, t.getPath a = some path ∧ foldPath getHash a (leaf a) path = t.getRoot := by
  refine ⟨_, ht.getPath ha, ?_⟩
  rw [MerkleTreeField.foldPath, length_map, length_range, zip_map', ht.getRoot]
  exact foldPath_authPath_self getHash leaf ha

end Represents

/-- Trees over the same leaves cannot be told apart. -/
theorem Represents.agree {t' : MerkleTreeField FieldT} (ht : Represents getHash t d leaf)
    (ht' : Represents getHash t' d leaf) :
    t.getRoot = t'.getRoot ∧
      ∀ a < 2 ^ d, t.getValue a = t'.getValue a ∧ t.getPath a = t'.getPath a :=
  ⟨ht.getRoot.trans ht'.getRoot.symm, fun _ ha =>
    ⟨(ht.getValue ha).trans (ht'.getValue ha).symm, (ht.getPath ha).trans (ht'.getPath ha).symm⟩⟩

/-! ### Setting a leaf -/

/-- The nodes from a layer on are those of the new leaves, the nodes above it those of the old
ones. -/
theorem readsLayer_updatePath {hashDefault : ℕ → FieldT} (hd : d < 64)
    (hdefault : ∀ l ≤ d, hashDefault l = PerfectTree.default getHash 0 (d - l)) {a : ℕ}
    (ha : a < 2 ^ d) (value : FieldT) {n : ℕ} (hn : n ≤ d) {hashes : OrderedMap ℕ FieldT}
    (hnew : ∀ l, n ≤ l → l ≤ d → ReadsLayer getHash d (Function.update leaf a value) hashes l)
    (hold : ∀ l < n, ReadsLayer getHash d leaf hashes l) :
    ∀ l ≤ d, ReadsLayer getHash d (Function.update leaf a value)
      (updatePath getHash hashDefault n (heapIdx n (a / 2 ^ (d - n))) hashes) l := by
  induction n generalizing hashes with
  | zero => exact fun l hl => hnew l (Nat.zero_le l) hl
  | succ n ih =>
    have hpos : ∀ {k}, k ≤ d → a / 2 ^ (d - k) < 2 ^ k := by
      intro k hk
      rw [Nat.div_lt_iff_lt_mul (Nat.two_pow_pos _), ← pow_add]
      rwa [show k + (d - k) = d by omega]
    have hup : a / 2 ^ (d - (n + 1)) / 2 = a / 2 ^ (d - n) := by
      rw [Nat.div_div_eq_div_mul, ← pow_succ, show d - (n + 1) + 1 = d - n by omega]
    have hheight : d - n = d - (n + 1) + 1 := by omega
    have hlt := hpos (k := n) (by omega)
    have hleft := hnew (n + 1) le_rfl hn (2 * (a / 2 ^ (d - n))) (by rw [pow_succ]; omega)
    have hright := hnew (n + 1) le_rfl hn (2 * (a / 2 ^ (d - n)) + 1) (by rw [pow_succ]; omega)
    rw [updatePath, parentIdx_heapIdx (by omega) (hpos hn), hup, leftIdx_heapIdx (by omega) hlt,
      rightIdx_heapIdx (by omega) hlt, hdefault (n + 1) hn, hleft, hright,
      ← node_succ getHash, ← hheight]
    refine ih (by omega) (fun l hnl hl => ?_) fun l hl p hp => ?_
    · intro p hp
      rw [find_set]
      split_ifs with heq
      · obtain ⟨rfl, rfl⟩ := heapIdx_inj hp hlt heq
        rfl
      · rcases hnl.eq_or_lt with rfl | hlt'
        · rw [hold n (Nat.lt_succ_self n) p hp, node_update_of_ne]
          rintro rfl
          exact heq rfl
        · exact hnew l hlt' hl p hp
    · rw [find_set_of_ne _ _ (heapIdx_ne_of_layer hp hlt (by omega))]
      exact hold l (by omega) p hp

/-- A call of `set_value` replaces a leaf. -/
theorem Represents.setValue (ht : Represents getHash t d leaf) {a : ℕ} (ha : a < 2 ^ d)
    (value : FieldT) :
    ∃ t', t.setValue getHash a value = some t' ∧
      Represents getHash t' d (Function.update leaf a value) := by
  have hd := ht.depth_lt
  refine ⟨_, if_pos (ht.admits ha.le), ht.depth_eq, hd, ht.hashDefault_eq, fun b hb => ?_, ?_⟩
  · rw [find_set]
    split_ifs with heq
    · rw [heq, Function.update_self]
      rfl
    · rw [Function.update_of_ne heq, ht.values b hb]
  · rw [ht.depth_eq, leafIdx_eq hd ha]
    have hidx : heapIdx d a = heapIdx d (a / 2 ^ (d - d)) := by simp
    have hreads : ∀ l ≤ d, ReadsLayer getHash d (Function.update leaf a value)
        (updatePath getHash t.hashDefault d (heapIdx d (a / 2 ^ (d - d)))
          (t.hashes.set (heapIdx d a) value)) l :=
      readsLayer_updatePath hd ht.hashDefault_eq ha value le_rfl ?_ ?_
    · rwa [← hidx] at hreads
    · intro l hdl hl p hp
      obtain rfl : l = d := by omega
      rw [find_set]
      split_ifs with heq
      · rw [(heapIdx_inj hp ha heq).2, Nat.sub_self, node_zero, Function.update_self]
        rfl
      · rw [ht.hashes l hl p hp, Nat.sub_self, node_zero, node_zero,
          Function.update_of_ne fun h => heq (congrArg _ h)]
    · intro l hl p hp
      rw [find_set_of_ne _ _ (heapIdx_ne_of_layer hp ha (by omega))]
      exact ht.hashes l hl.le p hp

/-! ### Runs -/

/-- The last value that calls set at an address, if any. -/
def lastValue (calls : List (ℕ × FieldT)) (a : ℕ) : FieldT := (calls.reverse.lookup a).getD 0

/-- The leaves after calls. -/
def leafAfter (leaf : ℕ → FieldT) (calls : List (ℕ × FieldT)) : ℕ → FieldT :=
  calls.foldl (fun leaf call => Function.update leaf call.1 call.2) leaf

theorem leafAfter_eq_lastValue (calls : List (ℕ × FieldT)) (a : ℕ) :
    leafAfter (fun _ => 0) calls a = lastValue calls a := by
  induction calls using List.reverseRecOn with
  | nil => rfl
  | append_singleton calls call ih =>
    obtain ⟨address, value⟩ := call
    rw [leafAfter, foldl_append, lastValue, reverse_append, reverse_singleton,
      singleton_append]
    by_cases heq : a = address
    · rw [heq, lookup_cons_self]
      exact Function.update_self ..
    · rw [lookup_cons_of_ne _ _ heq, ← lastValue, ← ih]
      exact Function.update_of_ne heq ..

theorem Represents.setValues (ht : Represents getHash t d leaf) {calls : List (ℕ × FieldT)}
    (hcalls : ∀ call ∈ calls, call.1 < 2 ^ d) :
    ∃ t', t.setValues getHash calls = some t' ∧ Represents getHash t' d (leafAfter leaf calls) := by
  induction calls generalizing t leaf with
  | nil => exact ⟨t, rfl, ht⟩
  | cons call calls ih =>
    obtain ⟨t₁, h₁, ht₁⟩ := ht.setValue (hcalls call mem_cons_self) call.2
    obtain ⟨t₂, h₂, ht₂⟩ := ih ht₁ fun c hc => hcalls c (mem_cons_of_mem _ hc)
    refine ⟨t₂, ?_, ht₂⟩
    rw [MerkleTreeField.setValues, h₁]
    exact h₂

/-- A tree that is made by calls below the number of leaves. -/
theorem exists_setValues (getHash : FieldT → FieldT → FieldT) (hd : d < 64)
    {calls : List (ℕ × FieldT)} (hcalls : ∀ call ∈ calls, call.1 < 2 ^ d) :
    ∃ t, (new getHash d).bind (MerkleTreeField.setValues getHash · calls) = some t ∧
      Represents getHash t d (lastValue calls) := by
  obtain ⟨t₀, hnew, -, -, ht₀⟩ := represents_new getHash hd
  obtain ⟨t, hset, ht⟩ := ht₀.setValues hcalls
  refine ⟨t, by rw [hnew, Option.bind_some, hset], ?_⟩
  rwa [funext (leafAfter_eq_lastValue calls)] at ht

/-! ### Addresses that pass the check -/

theorem exists_setValue (getHash : FieldT → FieldT → FieldT) {a : ℕ} (ha : t.admits a = true)
    (value : FieldT) :
    ∃ t', t.setValue getHash a value = some t' ∧ t'.depth = t.depth ∧
      t'.hashDefault = t.hashDefault ∧ t'.values = t.values.set a value ∧
      t'.hashes = updatePath getHash t.hashDefault t.depth (leafIdx t.depth a)
        (t.hashes.set (leafIdx t.depth a) value) :=
  ⟨_, if_pos ha, rfl, rfl, rfl, rfl⟩

/-- The leaves are those that were set, also at the address that is too large. -/
theorem exists_setValues_of_admits (getHash : FieldT → FieldT → FieldT)
    (hleaf : ∀ b, (t.values.find b).getD 0 = leaf b) {calls : List (ℕ × FieldT)}
    (hcalls : ∀ call ∈ calls, t.admits call.1 = true) :
    ∃ t', t.setValues getHash calls = some t' ∧ t'.depth = t.depth ∧
      ∀ b, (t'.values.find b).getD 0 = leafAfter leaf calls b := by
  induction calls generalizing t leaf with
  | nil => exact ⟨t, rfl, rfl, hleaf⟩
  | cons call calls ih =>
    obtain ⟨t₁, h₁, hdepth₁, -, hvalues₁, -⟩ :=
      exists_setValue getHash (hcalls call mem_cons_self) call.2
    have hleaf₁ : ∀ b, (t₁.values.find b).getD 0 = Function.update leaf call.1 call.2 b := by
      intro b
      rw [hvalues₁, find_set, Function.update_apply]
      split_ifs with heq
      · rfl
      · exact hleaf b
    have hcalls₁ : ∀ c ∈ calls, t₁.admits c.1 = true := by
      intro c hc
      rw [admits, hdepth₁]
      exact hcalls c (mem_cons_of_mem _ hc)
    obtain ⟨t₂, h₂, hdepth₂, hleaf₂⟩ := ih hleaf₁ hcalls₁
    refine ⟨t₂, ?_, hdepth₂.trans hdepth₁, hleaf₂⟩
    rw [MerkleTreeField.setValues, h₁]
    exact h₂

omit [Zero FieldT] in
/-- The path from the address that is too large ends below the root. -/
theorem find_zero_updatePath (hashDefault : ℕ → FieldT) {n : ℕ} (hn : n < 64)
    {hashes : OrderedMap ℕ FieldT} (hzero : hashes.find 0 = none) :
    (updatePath getHash hashDefault n (2 ^ (n + 1) - 1) hashes).find 0 = none := by
  induction n generalizing hashes with
  | zero => exact hzero
  | succ n ih =>
    have hpow : 2 ^ (n + 1 + 1) ≤ 2 ^ 64 := Nat.pow_le_pow_right (by omega) hn
    have hpos := Nat.two_pow_pos n
    have hparent : parentIdx (2 ^ (n + 1 + 1) - 1) = 2 ^ (n + 1) - 1 := by
      rw [pow_succ, pow_succ] at hpow ⊢
      rw [parentIdx_of_pos (by omega) (by omega)]
      omega
    rw [updatePath, hparent]
    refine ih (by omega) ?_
    rwa [find_set_of_ne _ _ (by rw [pow_succ]; omega)]

section TooLarge

variable {K : Type*} [Field K] [DecidableEq K]

/-- A hash that tells whether a subtree is empty. -/
def occupied (l r : K) : K := if l = 0 ∧ r = 0 then 0 else 1

theorem default_occupied (h : ℕ) : PerfectTree.default occupied (0 : K) h = 0 := by
  induction h with
  | zero => rfl
  | succ h ih => rw [default_succ, ih, occupied, if_pos ⟨rfl, rfl⟩]

theorem foldPath_occupied (path : List (Bool × K)) : PerfectTree.foldPath occupied 1 path = 1 := by
  induction path with
  | nil => rfl
  | cons level path ih =>
    have hparent : parent occupied (1 : K) level = 1 := by
      rw [parent, occupied, occupied]
      split_ifs with hbit h h
      · exact absurd h.2 one_ne_zero
      · rfl
      · exact absurd h.1 one_ne_zero
      · rfl
    rw [PerfectTree.foldPath, foldl_cons, hparent]
    exact ih

/-- Setting the leaf at the number of leaves does not change the root. -/
theorem two_pow_not_authenticated (hd : d < 64) :
    ∃ t path,
      (new occupied d).bind (MerkleTreeField.setValues occupied · [(2 ^ d, (1 : K))]) = some t ∧
      t.getValue (2 ^ d) = some 1 ∧ t.getPath (2 ^ d) = some path ∧ t.getRoot = 0 ∧
      foldPath occupied (2 ^ d) 1 path = 1 := by
  obtain ⟨t₀, hnew, -, hhashes, ht₀⟩ := represents_new (occupied (K := K)) hd
  have hadmits := ht₀.admits (le_refl (2 ^ d))
  have hidx : leafIdx t₀.depth (2 ^ d) = 2 ^ (d + 1) - 1 := by
    rw [ht₀.depth_eq, leafIdx_eq_of_le hd le_rfl, heapIdx, pow_succ]
    omega
  obtain ⟨t, hset, hdepth, hdefault, hvalues, hhashes'⟩ := exists_setValue occupied hadmits 1
  have hadmits' : t.admits (2 ^ d) = true := by rwa [admits, hdepth]
  refine ⟨t, t.siblingsFrom t.depth (leafIdx t.depth (2 ^ d)), ?_, ?_, if_pos hadmits', ?_,
    foldPath_occupied _⟩
  · rw [hnew, Option.bind_some, MerkleTreeField.setValues, hset]
    rfl
  · rw [MerkleTreeField.getValue, if_pos hadmits', hvalues, find_set_self]
    rfl
  · have hpos := Nat.two_pow_pos d
    rw [MerkleTreeField.getRoot, hhashes', hidx, ht₀.depth_eq, find_zero_updatePath _ hd,
      Option.getD_none, hdefault, ht₀.hashDefault_eq 0 (Nat.zero_le d), default_occupied]
    rw [hhashes, find_set_of_ne _ _ (by rw [pow_succ]; omega), find_empty]

end TooLarge

/-- The leaf that is read is the last one that was set, at every address that passes the check, and
other leaves do not change. The paths of leaves below `2 ^ d` give the root if all calls are below
`2 ^ d`, and the path of a leaf that was set does so for every hash if and only if its address is. -/
theorem addresses_safe_iff {K : Type*} [Field K] [DecidableEq K] {d : ℕ} (hd : d < 64) :
    (∀ (getHash : K → K → K) (calls : List (ℕ × K)), (∀ call ∈ calls, Nat.clog 2 call.1 ≤ d) →
      ∃ t, (new getHash d).bind (MerkleTreeField.setValues getHash · calls) = some t ∧
        (∀ b, Nat.clog 2 b ≤ d → t.getValue b = some (lastValue calls b)) ∧
        (∀ a value, Nat.clog 2 a ≤ d → ∃ t', t.setValue getHash a value = some t' ∧
          t'.getValue a = some value ∧
          ∀ b, Nat.clog 2 b ≤ d → b ≠ a → t'.getValue b = t.getValue b) ∧
        ((∀ call ∈ calls, call.1 < 2 ^ d) → ∀ b < 2 ^ d, ∃ path, t.getPath b = some path ∧
          foldPath getHash b (lastValue calls b) path = t.getRoot)) ∧
    ∀ a, Nat.clog 2 a ≤ d →
      ((∀ (getHash : K → K → K) (value : K), ∃ t path,
        (new getHash d).bind (MerkleTreeField.setValues getHash · [(a, value)]) = some t ∧
        t.getPath a = some path ∧ foldPath getHash a value path = t.getRoot) ↔ a < 2 ^ d) := by
  constructor
  · intro getHash calls hcalls
    obtain ⟨t₀, hnew, hvalues, -, ht₀⟩ := represents_new getHash hd
    have hadmits₀ : ∀ {a}, Nat.clog 2 a ≤ d → t₀.admits a = true := by
      intro a ha
      rwa [admits, decide_eq_true_iff, ht₀.depth_eq]
    have hleaf₀ : ∀ b, (t₀.values.find b).getD 0 = (fun _ => 0 : ℕ → K) b := by
      intro b
      rw [hvalues]
      rfl
    obtain ⟨t, hset, hdepth, hleaf⟩ := exists_setValues_of_admits getHash hleaf₀
      fun call hcall => hadmits₀ (hcalls call hcall)
    have hadmits : ∀ {a}, Nat.clog 2 a ≤ d → t.admits a = true := by
      intro a ha
      rw [admits, hdepth]
      exact hadmits₀ ha
    have hrun : (new getHash d).bind (MerkleTreeField.setValues getHash · calls) = some t := by
      rw [hnew, Option.bind_some, hset]
    refine ⟨t, hrun, fun b hb => ?_, fun a value ha => ?_, fun hsmall b hb => ?_⟩
    · rw [MerkleTreeField.getValue, if_pos (hadmits hb), hleaf, leafAfter_eq_lastValue]
    · obtain ⟨t', h', hdepth', -, hvalues', -⟩ := exists_setValue getHash (hadmits ha) value
      have hadmits' : ∀ {b}, Nat.clog 2 b ≤ d → t'.admits b = true := by
        intro b hb
        rw [admits, hdepth']
        exact hadmits hb
      refine ⟨t', h', ?_, fun b hb hne => ?_⟩
      · rw [MerkleTreeField.getValue, if_pos (hadmits' ha), hvalues', find_set_self]
        rfl
      · rw [MerkleTreeField.getValue, MerkleTreeField.getValue, if_pos (hadmits' hb),
          if_pos (hadmits hb), hvalues', find_set_of_ne _ _ hne]
    · obtain ⟨t₁, hrun₁, ht₁⟩ := exists_setValues getHash hd hsmall
      obtain rfl := Option.some.inj (hrun.symm.trans hrun₁)
      exact ht₁.foldPath hb
  · intro a ha
    rw [Nat.clog_le_iff_le_pow one_lt_two] at ha
    constructor
    · intro hall
      refine lt_of_le_of_ne ha fun heq => ?_
      subst heq
      obtain ⟨t, path, hrun, hpath, hfold⟩ := hall occupied 1
      obtain ⟨t', path', hrun', -, hpath', hroot, hone⟩ := two_pow_not_authenticated (K := K) hd
      obtain rfl := Option.some.inj (hrun.symm.trans hrun')
      obtain rfl := Option.some.inj (hpath.symm.trans hpath')
      exact one_ne_zero (hone.symm.trans (hfold.trans hroot))
    · intro hlt getHash value
      have hcalls : ∀ call ∈ [(a, value)], call.1 < 2 ^ d := by simpa using hlt
      obtain ⟨t, hrun, ht⟩ := exists_setValues getHash hd hcalls
      obtain ⟨path, hpath, hfold⟩ := ht.foldPath hlt
      refine ⟨t, path, hrun, hpath, ?_⟩
      rwa [show lastValue [(a, value)] a = value by simp [lastValue]] at hfold

/-- The first of two leaves. -/
theorem addresses_safe_first_leaf :
    ∃ t path, (new (fun l r : ℚ => l + 2 * r) 1).bind
        (MerkleTreeField.setValues (fun l r => l + 2 * r) · [(0, 3)]) = some t ∧
      t.getPath 0 = some path ∧ foldPath (fun l r => l + 2 * r) 0 3 path = t.getRoot :=
  ((addresses_safe_iff (K := ℚ) (by decide)).2 0 (by simp)).mpr (by decide) _ _

/-- The address `2` of a tree of two leaves passes the check. -/
theorem address_two_not_safe :
    Nat.clog 2 2 ≤ 1 ∧
    ∃ t path, (new occupied 1).bind (MerkleTreeField.setValues occupied · [(2, (1 : ℚ))]) = some t ∧
      t.getValue 2 = some 1 ∧ t.getPath 2 = some path ∧ foldPath occupied 2 1 path ≠ t.getRoot := by
  have hlog : Nat.clog 2 2 ≤ 1 := by rw [Nat.clog_le_iff_le_pow one_lt_two]; norm_num
  obtain ⟨t, path, hrun, hvalue, hpath, hroot, hfold⟩ :=
    two_pow_not_authenticated (K := ℚ) (d := 1) (by decide)
  refine ⟨hlog, t, path, hrun, hvalue, hpath, ?_⟩
  rw [hroot]
  exact fun h => one_ne_zero (hfold.symm.trans h)

end MerkleTreeField

end Zeth.Core
