import Mathlib.Data.List.GetD
import Mathlib.Logic.Function.Basic
import Mathlib.Tactic.Linarith
import Mathlib.Tactic.Ring
import Zeth.Foundation.Numerals

/-!
# Perfect binary hash trees

A perfect tree over an infinite sequence of leaves is given by its nodes: the node at height `0`
and index `i` is the leaf `i`, and the node at height `h + 1` and index `i` is the hash of the two
nodes `2 * i` and `2 * i + 1` of height `h`. A finite list of leaves is read as the sequence padded
on the right with a fixed value, and the subtrees that meet no leaf of the list all carry one value
for each height, the default of that height.

A tree that grows on the right is recomputed from the leaves that changed. With `e` leaves present
the nodes of height `h` that meet a leaf are those of index below `populated e h`, and with the
leaves below `s` unchanged the nodes of height `h` that are unchanged include those of index below
`s / 2 ^ h`. Everything here is over an arbitrary type with an arbitrary hash.

## Main definitions

* `PerfectTree.node`, `PerfectTree.default`, `PerfectTree.padded`, `PerfectTree.root`.
* `PerfectTree.populated`: the number of nodes of a height that meet a leaf.
* `PerfectTree.foldPath`: the value an authentication path gives to a leaf.
* `PerfectTree.authPath`: the authentication path of a leaf.

## Main results

* `PerfectTree.node_congr`: a node depends on the leaves below it only.
* `PerfectTree.node_eq_default`: a node below which every leaf is the padding is the default.
* `PerfectTree.node_padded_append_of_lt`: appending leaves keeps the nodes to their left.
* `PerfectTree.foldPath_authPath`: the path of a leaf gives the root of the tree with that leaf
  replaced.
-/

namespace PerfectTree

variable {α : Type*} (hash : α → α → α) (zero : α)

/-! ### Nodes -/

/-- The node of height `h` and index `i` of the perfect tree over the leaves `leaf`. -/
def node (leaf : ℕ → α) : ℕ → ℕ → α
  | 0, i => leaf i
  | h + 1, i => hash (node leaf h (2 * i)) (node leaf h (2 * i + 1))

/-- The value at height `h` of a subtree all of whose leaves are `zero`. -/
def default : ℕ → α
  | 0 => zero
  | h + 1 => hash (default h) (default h)

/-- A list of leaves padded on the right with `zero`. -/
def padded (leaves : List α) : ℕ → α := fun i => leaves.getD i zero

/-- The root of the perfect tree of depth `d` over a list of leaves padded with `zero`. -/
def root (d : ℕ) (leaves : List α) : α := node hash (padded zero leaves) d 0

@[simp] theorem node_zero (leaf : ℕ → α) (i : ℕ) : node hash leaf 0 i = leaf i := rfl

theorem node_succ (leaf : ℕ → α) (h i : ℕ) :
    node hash leaf (h + 1) i = hash (node hash leaf h (2 * i)) (node hash leaf h (2 * i + 1)) :=
  rfl

@[simp] theorem default_zero : default hash zero 0 = zero := rfl

theorem default_succ (h : ℕ) :
    default hash zero (h + 1) = hash (default hash zero h) (default hash zero h) := rfl

/-- The default over the parent of two padding leaves. -/
theorem default_hash_self (h : ℕ) : default hash (hash zero zero) h = default hash zero (h + 1) := by
  induction h with
  | zero => rfl
  | succ h ih => rw [default_succ, ih, ← default_succ hash]

/-- A node depends on the leaves below it only. -/
theorem node_congr {leaf leaf' : ℕ → α} (h : ℕ) :
    ∀ i, (∀ j, i * 2 ^ h ≤ j → j < (i + 1) * 2 ^ h → leaf j = leaf' j) →
      node hash leaf h i = node hash leaf' h i := by
  induction h with
  | zero =>
    intro i hl
    exact hl i (by omega) (by omega)
  | succ h ih =>
    intro i hl
    have hpow : 2 ^ (h + 1) = 2 * 2 ^ h := by ring
    rw [node_succ, node_succ, ih (2 * i), ih (2 * i + 1)]
    · intro j h1 h2
      refine hl j ?_ ?_
      · rw [hpow]
        nlinarith
      · rw [hpow]
        nlinarith
    · intro j h1 h2
      refine hl j ?_ ?_
      · rw [hpow]
        nlinarith
      · rw [hpow]
        nlinarith

/-- A subtree all of whose leaves are `zero` carries the default of its height. -/
theorem node_eq_default {leaf : ℕ → α} {e : ℕ} (hl : ∀ j, e ≤ j → leaf j = zero) (h i : ℕ)
    (hi : e ≤ i * 2 ^ h) : node hash leaf h i = default hash zero h := by
  induction h generalizing i with
  | zero => exact hl i (by simpa using hi)
  | succ h ih =>
    have hleft : e ≤ 2 * i * 2 ^ h := by
      rw [pow_succ'] at hi
      linarith
    have hright : e ≤ (2 * i + 1) * 2 ^ h :=
      hleft.trans (Nat.mul_le_mul_right _ (Nat.le_succ _))
    rw [node_succ, default_succ, ih (2 * i) hleft, ih (2 * i + 1) hright]

/-- Replacing a leaf changes the nodes above it only. -/
theorem node_update_of_ne (leaf : ℕ → α) {a h i : ℕ} (x : α) (hi : i ≠ a / 2 ^ h) :
    node hash (Function.update leaf a x) h i = node hash leaf h i := by
  refine node_congr hash h i fun j hij hji => Function.update_of_ne ?_ x leaf
  rintro rfl
  exact hi (Nat.div_eq_of_lt_le hij hji).symm

/-- A map that commutes with the hashes commutes with the nodes. -/
theorem node_map {β : Type*} {hash : α → α → α} {hash' : β → β → β} {f : α → β}
    (hf : ∀ x y, hash' (f x) (f y) = f (hash x y)) (leaf : ℕ → α) (h i : ℕ) :
    node hash' (fun j => f (leaf j)) h i = f (node hash leaf h i) := by
  induction h generalizing i with
  | zero => rfl
  | succ h ih => rw [node_succ, node_succ, ih, ih, hf]

/-- A map that commutes with the hashes commutes with the root. -/
theorem root_map {β : Type*} {hash : α → α → α} {hash' : β → β → β} {f : α → β}
    (hf : ∀ x y, hash' (f x) (f y) = f (hash x y)) (zero : α) (d : ℕ) (leaves : List α) :
    root hash' (f zero) d (leaves.map f) = f (root hash zero d leaves) := by
  rw [root, root, ← node_map hf]
  congr 1
  funext i
  exact List.getD_map leaves zero f

/-! ### Padded lists -/

theorem padded_of_length_le {leaves : List α} {i : ℕ} (hi : leaves.length ≤ i) :
    padded zero leaves i = zero :=
  List.getD_eq_default _ _ hi

theorem padded_append_of_lt (leaves new : List α) {i : ℕ} (hi : i < leaves.length) :
    padded zero (leaves ++ new) i = padded zero leaves i :=
  List.getD_append _ _ _ _ hi

/-- Appending leaves keeps every node whose leaves were all present before. -/
theorem node_padded_append_of_lt (leaves new : List α) {h i : ℕ}
    (hi : (i + 1) * 2 ^ h ≤ leaves.length) :
    node hash (padded zero (leaves ++ new)) h i = node hash (padded zero leaves) h i :=
  node_congr hash h i fun _ _ hj => padded_append_of_lt zero leaves new (by omega)

/-- The nodes to the right of the last leaf carry the default of their height. -/
theorem node_padded_of_length_le {leaves : List α} {h i : ℕ}
    (hi : leaves.length ≤ i * 2 ^ h) :
    node hash (padded zero leaves) h i = default hash zero h :=
  node_eq_default hash zero (fun _ hj => padded_of_length_le zero hj) h i hi

/-- The root of the tree with no leaves is the default of its depth. -/
theorem root_nil (d : ℕ) : root hash zero d [] = default hash zero d :=
  node_padded_of_length_le hash zero (by simp)

/-! ### Populated nodes -/

/-- The number of nodes of height `h` that meet one of `e` leaves, counted by halving up. -/
def populated (e : ℕ) : ℕ → ℕ
  | 0 => e
  | h + 1 => (populated e h + 1) / 2

@[simp] theorem populated_zero (e : ℕ) : populated e 0 = e := rfl

theorem populated_succ (e h : ℕ) : populated e (h + 1) = (populated e h + 1) / 2 := rfl

/-- The populated nodes reach past the last leaf. -/
theorem le_populated_mul (e h : ℕ) : e ≤ populated e h * 2 ^ h := by
  induction h with
  | zero => simp
  | succ h ih =>
    have hpow : populated e (h + 1) * 2 ^ (h + 1) = 2 * populated e (h + 1) * 2 ^ h := by ring
    have hle : populated e h ≤ 2 * populated e (h + 1) := by
      rw [populated_succ]
      omega
    rw [hpow]
    exact ih.trans (Nat.mul_le_mul_right _ hle)

/-- The populated nodes of a height fit in the tree when the leaves do. -/
theorem populated_le {d : ℕ} {e : ℕ} (he : e ≤ 2 ^ d) {h : ℕ} (hh : h ≤ d) :
    populated e h ≤ 2 ^ (d - h) := by
  induction h with
  | zero => simpa using he
  | succ h ih =>
    have hpow : 2 ^ (d - h) = 2 * 2 ^ (d - (h + 1)) := by
      rw [← pow_succ']
      congr 1
      omega
    have := ih (by omega)
    rw [populated_succ]
    omega

theorem populated_le_self (e h : ℕ) : populated e h ≤ e := by
  induction h with
  | zero => exact le_rfl
  | succ h ih =>
    rw [populated_succ]
    omega

theorem populated_mono {e e' : ℕ} (he : e ≤ e') (h : ℕ) : populated e h ≤ populated e' h := by
  induction h with
  | zero => exact he
  | succ h ih =>
    rw [populated_succ, populated_succ]
    omega

/-- The first node that may change is not to the right of the populated ones. -/
theorem div_pow_le_populated (e h : ℕ) : e / 2 ^ h ≤ populated e h := by
  induction h with
  | zero => simp
  | succ h ih =>
    rw [populated_succ, pow_succ, ← Nat.div_div_eq_div_mul]
    omega

theorem populated_zero_left (h : ℕ) : populated 0 h = 0 := by
  induction h with
  | zero => rfl
  | succ h ih => rw [populated_succ, ih]

/-! ### Authentication paths -/

/-- One level of an authentication path: the sibling is on the left exactly when the bit is
set. -/
def parent (x : α) (level : Bool × α) : α := if level.1 then hash level.2 x else hash x level.2

/-- The value an authentication path gives to a leaf, from the leaf level up. -/
def foldPath (x : α) (path : List (Bool × α)) : α := path.foldl (parent hash) x

theorem foldPath_take_succ (x : α) {path : List (Bool × α)} {i : ℕ} (hi : i < path.length) :
    foldPath hash x (path.take (i + 1)) = parent hash (foldPath hash x (path.take i)) path[i] := by
  rw [List.take_succ_eq_append_getElem hi, foldPath, List.foldl_append]
  rfl

theorem foldPath_map_range_succ (x : α) (f : ℕ → Bool × α) (n : ℕ) :
    foldPath hash x ((List.range (n + 1)).map f) =
      parent hash (foldPath hash x ((List.range n).map f)) (f n) := by
  rw [List.range_succ, List.map_append, foldPath, List.foldl_append]
  rfl

/-- The other child of the parent. -/
def sibling (i : ℕ) : ℕ := if i % 2 = 1 then i - 1 else i + 1

/-- The sibling is a node of the same level, when there is more than one. -/
theorem sibling_lt {i n : ℕ} (hn : 0 < n) (hi : i < 2 ^ n) : sibling i < 2 ^ n := by
  obtain ⟨m, rfl⟩ : ∃ m, n = m + 1 := ⟨n - 1, by omega⟩
  rw [pow_succ] at hi ⊢
  unfold sibling
  split_ifs <;> omega

/-- The first `n` levels of the authentication path of leaf `a`. -/
def authPath (leaf : ℕ → α) (a n : ℕ) : List (Bool × α) :=
  (List.range n).map fun k => (a.testBit k, node hash leaf k (sibling (a / 2 ^ k)))

/-- The authentication path of a leaf, applied to another value, gives the node above it in the tree
with that value for the leaf. -/
theorem foldPath_authPath (leaf : ℕ → α) (a n : ℕ) (x : α) :
    foldPath hash x (authPath hash leaf a n) =
      node hash (Function.update leaf a x) n (a / 2 ^ n) := by
  induction n with
  | zero =>
    rw [pow_zero, Nat.div_one, node_zero, Function.update_self]
    rfl
  | succ n ih =>
    have hhalf : a / 2 ^ (n + 1) = a / 2 ^ n / 2 := by rw [Nat.div_div_eq_div_mul, pow_succ]
    rw [authPath, foldPath_map_range_succ, ← authPath, ih, hhalf, node_succ, parent, sibling, Nat.testBit_eq_decide_div_mod_eq]
    by_cases hodd : a / 2 ^ n % 2 = 1
    · have hleft : 2 * (a / 2 ^ n / 2) = a / 2 ^ n - 1 := by omega
      have hright : a / 2 ^ n - 1 + 1 = a / 2 ^ n := by omega
      have hne : a / 2 ^ n - 1 ≠ a / 2 ^ n := by omega
      rw [decide_eq_true hodd, if_pos rfl, if_pos hodd, hleft, hright,
        node_update_of_ne hash leaf x hne]
    · have hleft : 2 * (a / 2 ^ n / 2) = a / 2 ^ n := by omega
      have hne : a / 2 ^ n + 1 ≠ a / 2 ^ n := by omega
      rw [decide_eq_false hodd, if_neg Bool.false_ne_true, if_neg hodd, hleft,
        node_update_of_ne hash leaf x hne]

/-- The fold of the path of a leaf from the leaf itself is the root. -/
theorem foldPath_authPath_self (leaf : ℕ → α) {a d : ℕ} (ha : a < 2 ^ d) :
    foldPath hash (leaf a) (authPath hash leaf a d) = node hash leaf d 0 := by
  rw [foldPath_authPath, Function.update_eq_self, Nat.div_eq_of_lt ha]

end PerfectTree
