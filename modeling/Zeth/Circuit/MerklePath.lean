import Mathlib.Data.Vector.Mem
import Zeth.Circuit.Gadgetlib
import Zeth.Foundation.PerfectTree

/-!
# Merkle authentication paths in the circuit

`merkle_path_compute` folds a leaf with an authentication path: at each level a selector orders
the digest computed so far and the node of the path, and the tree hash gadget hashes the two.
`merkle_path_authenticator` compares the result with an expected root, when told to.

## Main definitions

* `Zeth.Circuit.MerklePathSelector`, `Zeth.Circuit.MerklePathCompute`,
  `Zeth.Circuit.MerklePathAuthenticator`.

## Main results

* `Zeth.Circuit.MerklePathCompute.sound`: with a sound tree hash, the address wires are bits and
  the result is the fold of the path.
* `Zeth.Circuit.MerklePathCompute.witness_result`: the witness generator computes the fold of the
  path.
* `Zeth.Circuit.MerklePathAuthenticator.sound`: with the comparison on, the fold of the path is
  the expected root.
-/

namespace Zeth.Circuit

open R1CS LinearCombination PerfectTree List

variable {F : Type} [Field F]

/-! ### Selector -/

/-- `merkle_path_selector`: orders a digest and a path node by the bit `is_right`. -/
structure MerklePathSelector where
  input : Var
  pathvar : Var
  isRight : Var
  left : Var
  right : Var

namespace MerklePathSelector

def new (input pathvar isRight : Var) : Alloc MerklePathSelector := do
  let left ← allocate
  let right ← allocate
  return ⟨input, pathvar, isRight, left, right⟩

variable (F) in
def constraints (g : MerklePathSelector) : List (Constraint F) :=
  [⟨.var g.isRight, .const 1 - .var g.isRight, 0⟩,
   ⟨.var g.isRight, .var g.pathvar - .var g.input, .var g.left - .var g.input⟩,
   ⟨.var g.isRight, .var g.input - .var g.pathvar, .var g.right - .var g.pathvar⟩]

/-- `generate_r1cs_witness`. -/
def witness (g : MerklePathSelector) (σ : Assignment F) : Assignment F :=
  let σ := σ.set g.left (σ g.input + σ g.isRight * (σ g.pathvar - σ g.input))
  σ.set g.right (σ g.pathvar + σ g.isRight * (σ g.input - σ g.pathvar))

theorem witness_of_ne {g : MerklePathSelector} (σ : Assignment F) {v : Var} (hleft : v ≠ g.left)
    (hright : v ≠ g.right) : g.witness σ v = σ v := by
  rw [witness, Assignment.set_of_ne _ _ hright, Assignment.set_of_ne _ _ hleft]

/-- On a bit, the witness generator orders its two inputs as the rows do. -/
theorem witness_left_right {g : MerklePathSelector} {σ : Assignment F} (hleft : g.left ≠ ONE)
    (hright : g.right ≠ ONE) (hne : g.left ≠ g.right) (hinput : g.input ≠ g.left)
    (hpathvar : g.pathvar ≠ g.left) (hisRight : g.isRight ≠ g.left) :
    (σ g.isRight = 0 →
      g.witness σ g.left = σ g.input ∧ g.witness σ g.right = σ g.pathvar) ∧
    (σ g.isRight = 1 →
      g.witness σ g.left = σ g.pathvar ∧ g.witness σ g.right = σ g.input) := by
  rw [witness, Assignment.set_of_ne _ _ hne, Assignment.set_self _ _ hleft,
    Assignment.set_self _ _ hright, Assignment.set_of_ne _ _ hinput,
    Assignment.set_of_ne _ _ hpathvar, Assignment.set_of_ne _ _ hisRight]
  refine ⟨fun hbit => ?_, fun hbit => ?_⟩
  · rw [hbit, zero_mul, zero_mul, add_zero, add_zero]
    exact ⟨rfl, rfl⟩
  · rw [hbit, one_mul, one_mul, add_sub_cancel, add_sub_cancel]
    exact ⟨rfl, rfl⟩

/-- The selector puts the path node on the left exactly when `is_right` is set. -/
theorem sound {σ : Assignment F} {g : MerklePathSelector} (h : Satisfies σ (g.constraints F)) :
    (σ g.isRight = 0 ∧ σ g.left = σ g.input ∧ σ g.right = σ g.pathvar) ∨
      (σ g.isRight = 1 ∧ σ g.left = σ g.pathvar ∧ σ g.right = σ g.input) := by
  simp only [constraints, satisfies_cons, satisfies_nil, and_true, Constraint.Holds,
    eval_var, eval_sub, eval_const,
    eval_zero] at h
  obtain ⟨hbool, hleft, hright⟩ := h
  rcases mul_one_sub_eq_zero_iff.mp hbool with h0 | h1
  · left
    rw [h0, zero_mul] at hleft hright
    exact ⟨h0, (sub_eq_zero.mp hleft.symm), (sub_eq_zero.mp hright.symm)⟩
  · right
    rw [h1, one_mul] at hleft hright
    exact ⟨h1, (sub_left_inj.mp hleft).symm, (sub_left_inj.mp hright).symm⟩

theorem mem_vars {g : MerklePathSelector} {k : Constraint F} (hk : k ∈ g.constraints F) {v : Var}
    (hv : v ∈ k.vars) :
    v = ONE ∨ v = g.input ∨ v = g.pathvar ∨ v = g.isRight ∨ v = g.left ∨ v = g.right := by
  simp only [constraints, mem_cons, not_mem_nil, or_false] at hk
  rcases hk with rfl | rfl | rfl <;>
    simp only [Constraint.vars, LinearCombination.vars, LinearCombination.var,
      LinearCombination.const, terms_sub, terms_zero,
      map_append, map_cons, map_nil, mem_append, mem_cons,
      not_mem_nil, or_false] at hv <;>
    tauto

end MerklePathSelector

/-! ### The fold of a path -/

/-- `merkle_path_compute`: one selector and one tree hash per level. -/
structure MerklePathCompute (depth : ℕ) where
  addressBits : List.Vector Var depth
  leaf : Var
  path : List.Vector Var depth
  digests : List.Vector Var depth
  levels : List.Vector (MerklePathSelector × TreeHasher) depth

namespace MerklePathCompute

variable {depth : ℕ} (T : TreeHashGadget F)

/-- The digest entering a level: the leaf, or the digest of the level below. -/
def levelInput (leaf : Var) (digests : List.Vector Var depth) (i : Fin depth) : Var :=
  if i.val = 0 then leaf else digests.get ⟨i.val - 1, by omega⟩

/-- The two gadgets of a level. -/
def level (addressBits : List.Vector Var depth) (leaf : Var) (path digests : List.Vector Var depth)
    (i : Fin depth) : Alloc (MerklePathSelector × TreeHasher) := do
  let selector ← MerklePathSelector.new (levelInput leaf digests i) (path.get i)
    (addressBits.get i)
  let hasher ← T.new selector.left selector.right (digests.get i)
  return (selector, hasher)

def new (addressBits : List.Vector Var depth) (leaf : Var) (path : List.Vector Var depth) :
    Alloc (MerklePathCompute depth) := do
  let digests ← allocateArray depth
  let levels ← Alloc.forEach depth (level T addressBits leaf path digests)
  return ⟨addressBits, leaf, path, digests, levels⟩

def constraints (g : MerklePathCompute depth) : List (Constraint F) :=
  g.levels.toList.flatMap fun l => l.1.constraints F ++ T.rows l.2

/-- `generate_r1cs_witness` of the two gadgets of a level. -/
def levelWitness (l : MerklePathSelector × TreeHasher) (σ : Assignment F) : Assignment F :=
  T.witness l.2.start l.2.x l.2.y l.2.result (l.1.witness σ)

/-- `generate_r1cs_witness`. -/
def witness (g : MerklePathCompute depth) (σ : Assignment F) : Assignment F :=
  g.levels.toList.foldl (fun σ l => levelWitness T l σ) σ

/-- The last digest; the source asserts that the depth is positive. -/
def result [NeZero depth] (g : MerklePathCompute depth) : Var :=
  g.digests.get ⟨depth - 1, Nat.sub_one_lt (NeZero.ne depth)⟩

/-- The authentication path read off the wires, leaf level first. -/
def pathValues [DecidableEq F] (σ : Assignment F) (addressBits path : List.Vector Var depth) :
    List (Bool × F) :=
  (bitsOf σ addressBits.toList).zip (path.toList.map σ)

/-- Every level was built by a run of its constructor on wires past the digests. -/
theorem exists_level (addressBits : List.Vector Var depth) (leaf : Var)
    (path : List.Vector Var depth) (start : ℕ) (i : Fin depth) :
    ∃ s, start + depth ≤ s ∧ (new T addressBits leaf path start).1.levels.get i =
      (level T addressBits leaf path (allocateArray depth start).1 i s).1 := by
  obtain ⟨s, hle, hs⟩ := Alloc.forEach_get
    (level T addressBits leaf path (allocateArray depth start).1)
    (fun _ s => (Nat.le_add_right s 2).trans (Nat.le_add_right _ T.numVars))
    (allocateArray depth start).2 i
  exact ⟨s, hle, hs⟩

section Sound

variable {T} {hash : F → F → F} {σ : Assignment F} {addressBits path : List.Vector Var depth}
  {leaf : Var} {start : ℕ}

/-- What the rows of one level say. -/
theorem level_sound (hT : T.Sound hash)
    (h : Satisfies σ ((new T addressBits leaf path start).1.constraints T)) (i : Fin depth) :
    let g := (new T addressBits leaf path start).1
    let x := σ (levelInput leaf g.digests i)
    (σ (addressBits.get i) = 0 ∧ σ (g.digests.get i) = hash x (σ (path.get i))) ∨
      (σ (addressBits.get i) = 1 ∧ σ (g.digests.get i) = hash (σ (path.get i)) x) := by
  intro g x
  obtain ⟨s, -, hs⟩ := exists_level T addressBits leaf path start i
  have hlevel := satisfies_flatMap.mp h _ (List.Vector.get_mem i g.levels)
  rw [hs, satisfies_append] at hlevel
  obtain ⟨hselector, hhasher⟩ := hlevel
  have hdigest : σ (g.digests.get i) = hash (σ s) (σ (s + 1)) := hT _ _ _ _ σ hhasher
  rw [hdigest]
  rcases MerklePathSelector.sound hselector with ⟨hbit, hleft, hright⟩ | ⟨hbit, hleft, hright⟩
  · exact Or.inl ⟨hbit, congrArg₂ hash hleft hright⟩
  · exact Or.inr ⟨hbit, congrArg₂ hash hleft hright⟩

/-- The rows see the address, the leaf, the path and fresh wires only. -/
theorem satisfies_congr (hL : T.Local) {τ : Assignment F}
    (h : Satisfies σ ((new T addressBits leaf path start).1.constraints T))
    (hτ : ∀ v, v ∈ addressBits.toList ∨ v = leaf ∨ v ∈ path.toList ∨ start ≤ v → τ v = σ v) :
    Satisfies τ ((new T addressBits leaf path start).1.constraints T) := by
  set g := (new T addressBits leaf path start).1
  have hdigest : ∀ i, start ≤ g.digests.get i := fun i =>
    (mem_range'_1.mp (List.Vector.get_mem i g.digests)).1
  have hone : τ ONE = σ ONE := by rw [τ.val_ONE, σ.val_ONE]
  refine satisfies_flatMap.mpr fun l hl => ?_
  obtain ⟨i, rfl⟩ := (List.Vector.mem_iff_get l g.levels).mp hl
  have hlevel := satisfies_flatMap.mp h _ hl
  obtain ⟨s, hpast, hs⟩ := exists_level T addressBits leaf path start i
  have hstart : start ≤ s := (Nat.le_add_right start depth).trans hpast
  rw [hs, satisfies_append] at hlevel ⊢
  have hs0 : τ s = σ s := hτ s (Or.inr (Or.inr (Or.inr hstart)))
  have hs1 : τ (s + 1) = σ (s + 1) :=
    hτ (s + 1) (Or.inr (Or.inr (Or.inr (hstart.trans (Nat.le_succ s)))))
  have hinput : τ (levelInput leaf g.digests i) = σ (levelInput leaf g.digests i) := by
    rw [levelInput]
    split_ifs
    · exact hτ leaf (Or.inr (Or.inl rfl))
    · exact hτ _ (Or.inr (Or.inr (Or.inr (hdigest _))))
  refine ⟨(R1CS.satisfies_congr fun k hk v hv => ?_).mpr hlevel.1,
    (R1CS.satisfies_congr fun k hk v hv => ?_).mpr hlevel.2⟩
  · rcases MerklePathSelector.mem_vars hk hv with rfl | rfl | rfl | rfl | rfl | rfl
    · exact hone
    · exact hinput
    · exact hτ _ (Or.inr (Or.inr (Or.inl (List.Vector.get_mem i path))))
    · exact hτ _ (Or.inl (List.Vector.get_mem i addressBits))
    · exact hs0
    · exact hs1
  · rcases hL _ _ _ _ k hk v hv with rfl | rfl | rfl | rfl | ⟨hv, -⟩
    · exact hone
    · exact hs0
    · exact hs1
    · exact hτ _ (Or.inr (Or.inr (Or.inr (hdigest i))))
    · exact hτ v (Or.inr (Or.inr (Or.inr (hstart.trans ((Nat.le_add_right s 2).trans hv)))))

variable [DecidableEq F]

@[simp] theorem length_pathValues : (pathValues σ addressBits path).length = depth := by
  simp [pathValues]

theorem pathValues_getElem (i : Fin depth)
    (hi : i.val < (pathValues σ addressBits path).length) :
    (pathValues σ addressBits path)[i.val] =
      (decide (σ (addressBits.get i) = 1), σ (path.get i)) := by
  simp only [pathValues, getElem_zip, bitsOf, getElem_map,
    List.Vector.get_eq_get_toList, get_eq_getElem]
  rfl

/-- The digest of a level is the fold of the path up to it. -/
theorem digest_eq_foldPath (hT : T.Sound hash)
    (h : Satisfies σ ((new T addressBits leaf path start).1.constraints T)) :
    ∀ (n : ℕ) (hn : n < depth), σ ((new T addressBits leaf path start).1.digests.get ⟨n, hn⟩) =
      foldPath hash (σ leaf) ((pathValues σ addressBits path).take (n + 1)) := by
  intro n
  induction n with
  | zero =>
    intro hn
    have hstep := level_sound hT h ⟨0, hn⟩
    rw [foldPath_take_succ hash _ (by simpa using hn), pathValues_getElem ⟨0, hn⟩]
    rcases hstep with ⟨hbit, hdigest⟩ | ⟨hbit, hdigest⟩
    · simpa [parent, foldPath, levelInput, hbit] using hdigest
    · simpa [parent, foldPath, levelInput, hbit] using hdigest
  | succ n ih =>
    intro hn
    have hbelow := ih (Nat.lt_of_succ_lt hn)
    have hstep := level_sound hT h ⟨n + 1, hn⟩
    rw [foldPath_take_succ hash _ (by simpa using hn), ← hbelow,
      pathValues_getElem ⟨n + 1, hn⟩]
    rcases hstep with ⟨hbit, hdigest⟩ | ⟨hbit, hdigest⟩
    · simpa [parent, levelInput, hbit] using hdigest
    · simpa [parent, levelInput, hbit] using hdigest

/-- The address wires are bits and the result is the fold of the path. -/
theorem sound [NeZero depth] (hT : T.Sound hash)
    (h : Satisfies σ ((new T addressBits leaf path start).1.constraints T)) :
    (∀ v ∈ addressBits.toList, IsBool (σ v)) ∧
      σ (new T addressBits leaf path start).1.result =
        foldPath hash (σ leaf) (pathValues σ addressBits path) := by
  constructor
  · intro v hv
    obtain ⟨i, rfl⟩ := (List.Vector.mem_iff_get v addressBits).mp hv
    rcases level_sound hT h i with ⟨hbit, -⟩ | ⟨hbit, -⟩
    · exact Or.inl hbit
    · exact Or.inr hbit
  · have hlast := Nat.sub_one_lt (NeZero.ne depth)
    have hall : (pathValues σ addressBits path).take (depth - 1 + 1) =
        pathValues σ addressBits path :=
      take_of_length_le (by rw [length_pathValues]; omega)
    rw [← hall]
    exact digest_eq_foldPath hT h (depth - 1) hlast

end Sound

section Witness

variable {T} {hash : F → F → F} {σ : Assignment F} {addressBits path : List.Vector Var depth}
  {leaf : Var} {start : ℕ}

theorem get_digests (i : Fin depth) :
    (new T addressBits leaf path start).1.digests.get i = start + i := by
  have h : (allocateArray depth start).1.get i = start + i := by
    rw [List.Vector.get_eq_get_toList]
    exact (getElem_range' _).trans (by rw [one_mul])
  exact h

variable [DecidableEq F]

/-- Filling the wires of a level writes the parent of its input to its digest and leaves the other
wires from before the level as they are. -/
theorem levelWitness_spec (hT : T.Computes hash) {input pathvar isRight result s : ℕ}
    (hinput : input < s) (hpathvar : pathvar < s) (hisRight : isRight < s) (hresult : result < s)
    (hpos : 0 < result) (hbit : IsBool (σ isRight)) :
    let τ := levelWitness T (⟨input, pathvar, isRight, s, s + 1⟩, ⟨s + 2, s, s + 1, result⟩) σ
    (∀ v : ℕ, v < s → v ≠ result → τ v = σ v) ∧
      τ result = parent hash (σ input) (decide (σ isRight = 1), σ pathvar) := by
  intro τ
  let selector : MerklePathSelector := ⟨input, pathvar, isRight, s, s + 1⟩
  have hkept {v : ℕ} (hv : v < s) : selector.witness σ v = σ v :=
    MerklePathSelector.witness_of_ne σ (show v ≠ s by omega) (show v ≠ s + 1 by omega)
  have hhash : τ result = hash (selector.witness σ s) (selector.witness σ (s + 1)) :=
    hT.result (s + 2) s (s + 1) result _ (show s < s + 2 by omega) (show s + 1 < s + 2 by omega)
      (show result < s + 2 by omega) (show s ≠ result by omega) (show s + 1 ≠ result by omega)
      (show result ≠ 0 by omega)
  obtain ⟨hzero, hone⟩ := MerklePathSelector.witness_left_right (g := selector) (σ := σ)
    (show s ≠ 0 by omega) (show s + 1 ≠ 0 by omega) (show s ≠ s + 1 by omega)
    (show input ≠ s by omega) (show pathvar ≠ s by omega) (show isRight ≠ s by omega)
  refine ⟨fun v hv hne => ?_, ?_⟩
  · exact (hT.frame (s + 2) s (s + 1) result _ v hne (Or.inl (show v < s + 2 by omega))).trans
      (hkept hv)
  · rw [hhash]
    rcases hbit with hbit | hbit
    · obtain ⟨hleft, hright⟩ := hzero hbit
      simpa [parent, hbit] using congrArg₂ hash hleft hright
    · obtain ⟨hleft, hright⟩ := hone hbit
      simpa [parent, hbit] using congrArg₂ hash hleft hright

section Run

variable (hT : T.Computes hash) (hleaf : leaf < start)
  (haddress : ∀ v ∈ addressBits.toList, v < start) (hpath : ∀ v ∈ path.toList, v < start)
  (hbits : ∀ v ∈ addressBits.toList, IsBool (σ v))

include hT hleaf haddress hpath hbits

/-- The step of `witness` over a level: the wires from before the gadget stay as they are, and the
digest of the level is the parent of the digest that enters it. -/
theorem levelWitness_level {τ : Assignment F} (hτ : ∀ v : ℕ, v < start → τ v = σ v)
    (i : Fin depth) :
    let g := (new T addressBits leaf path start).1
    let τ' := levelWitness T (g.levels.get i) τ
    (∀ v : ℕ, v < start → τ' v = σ v) ∧
      τ' (g.digests.get i) = parent hash (τ (levelInput leaf g.digests i))
        (decide (σ (addressBits.get i) = 1), σ (path.get i)) := by
  intro g τ'
  obtain ⟨s, hs, hlevel⟩ := exists_level T addressBits leaf path start i
  have hbitLt : addressBits.get i < start := haddress _ (List.Vector.get_mem i addressBits)
  have hpathLt : path.get i < start := hpath _ (List.Vector.get_mem i path)
  have hdigest : g.digests.get i = start + i := get_digests i
  have hstart : start ≤ s := (Nat.le_add_right start depth).trans hs
  have hinput : levelInput leaf g.digests i < s := by
    unfold levelInput
    split_ifs
    · exact hleaf.trans_le hstart
    · rw [get_digests]
      exact (Nat.add_lt_add_left (by omega) start).trans_le hs
  have hpos : 0 < start + i.val := (Nat.zero_le leaf).trans_lt hleaf |>.trans_le (by omega)
  obtain ⟨hkept, hresult⟩ := levelWitness_spec hT (σ := τ) hinput (hpathLt.trans_le hstart)
    (hbitLt.trans_le hstart) (show start + i.val < s by omega) hpos
    (by rw [hτ _ hbitLt]; exact hbits _ (List.Vector.get_mem i addressBits))
  rw [hτ _ hbitLt, hτ _ hpathLt, ← hdigest] at hresult
  rw [← hdigest] at hkept
  have hτ' : τ' = levelWitness T (⟨levelInput leaf g.digests i, path.get i, addressBits.get i, s,
      s + 1⟩, ⟨s + 2, s, s + 1, g.digests.get i⟩) τ := congrArg (fun l => levelWitness T l τ) hlevel
  rw [hτ']
  refine ⟨fun v hv => ?_, hresult⟩
  rw [hkept v (hv.trans_le hstart) (by rw [hdigest]; exact (Nat.lt_add_right _ hv).ne), hτ v hv]

/-- After `n + 1` levels the digest is the fold of the path up to there. -/
theorem foldl_levelWitness (n : ℕ) (hn : n < depth) :
    let g := (new T addressBits leaf path start).1
    let τ := (g.levels.toList.take (n + 1)).foldl (fun σ l => levelWitness T l σ) σ
    (∀ v : ℕ, v < start → τ v = σ v) ∧ τ (g.digests.get ⟨n, hn⟩) =
      foldPath hash (σ leaf) ((pathValues σ addressBits path).take (n + 1)) := by
  intro g τ
  have hstep (k : ℕ) (hk : k < depth) :
      (g.levels.toList.take (k + 1)).foldl (fun σ l => levelWitness T l σ) σ =
        levelWitness T (g.levels.get ⟨k, hk⟩)
          ((g.levels.toList.take k).foldl (fun σ l => levelWitness T l σ) σ) := by
    rw [take_succ_eq_append_getElem (by rwa [List.Vector.toList_length]), foldl_append,
      List.Vector.get_eq_get_toList]
    rfl
  simp only [τ]
  rw [foldPath_take_succ hash _ (by simpa using hn), pathValues_getElem ⟨n, hn⟩,
    hstep n hn]
  induction n with
  | zero => exact levelWitness_level hT hleaf haddress hpath hbits (fun _ _ => rfl) ⟨0, hn⟩
  | succ n ih =>
    have hn' := Nat.lt_of_succ_lt hn
    obtain ⟨hkept, hbelow⟩ := ih hn'
    rw [← hstep n hn'] at hkept hbelow
    obtain ⟨hkept', hdigest⟩ :=
      levelWitness_level hT hleaf haddress hpath hbits hkept ⟨n + 1, hn⟩
    refine ⟨hkept', hdigest.trans ?_⟩
    rw [foldPath_take_succ hash _ (by simpa using hn'), pathValues_getElem ⟨n, hn'⟩,
      ← hbelow]
    rfl

end Run

/-- The witness generator computes the fold of the path, when the address wires carry bits and the
wires of the address, of the leaf and of the path were allocated before the gadget. -/
theorem witness_result [NeZero depth] (hT : T.Computes hash) (hleaf : leaf < start)
    (haddress : ∀ v ∈ addressBits.toList, v < start) (hpath : ∀ v ∈ path.toList, v < start)
    (hbits : ∀ v ∈ addressBits.toList, IsBool (σ v)) :
    let g := (new T addressBits leaf path start).1
    g.witness T σ g.result =
      foldPath hash (σ leaf) (pathValues σ addressBits path) := by
  intro g
  have hlast := Nat.sub_one_lt (NeZero.ne depth)
  have hsucc : depth - 1 + 1 = depth := by omega
  have hrun := (foldl_levelWitness hT hleaf haddress hpath hbits (depth - 1) hlast).2
  rw [hsucc, take_of_length_le (by simp), take_of_length_le (by simp)] at hrun
  exact hrun

end Witness

end MerklePathCompute

/-! ### Comparison with a root -/

/-- `merkle_path_authenticator`: a path computation, an expected root and the switch of the
comparison. -/
structure MerklePathAuthenticator (depth : ℕ) where
  compute : MerklePathCompute depth
  expectedRoot : Var
  valueEnforce : Var

namespace MerklePathAuthenticator

variable {depth : ℕ} (T : TreeHashGadget F)

def new (addressBits : List.Vector Var depth) (leaf expectedRoot : Var)
    (path : List.Vector Var depth) (boolEnforce : Var) :
    Alloc (MerklePathAuthenticator depth) := do
  let compute ← MerklePathCompute.new T addressBits leaf path
  return ⟨compute, expectedRoot, boolEnforce⟩

def constraints [NeZero depth] (g : MerklePathAuthenticator depth) : List (Constraint F) :=
  g.compute.constraints T ++
    [⟨.var g.compute.result - .var g.expectedRoot, .var g.valueEnforce, 0⟩]

variable {T} {hash : F → F → F} {σ : Assignment F} {addressBits path : List.Vector Var depth}
  {leaf expectedRoot boolEnforce : Var} {start : ℕ}

/-- With the comparison on, the fold of the path is the expected root. -/
theorem sound [NeZero depth] [DecidableEq F] (hT : T.Sound hash)
    (h : Satisfies σ
      ((new T addressBits leaf expectedRoot path boolEnforce start).1.constraints T)) :
    (∀ v ∈ addressBits.toList, IsBool (σ v)) ∧ (σ boolEnforce ≠ 0 →
      foldPath hash (σ leaf) (MerklePathCompute.pathValues σ addressBits path) =
        σ expectedRoot) := by
  obtain ⟨hcompute, hroot⟩ := satisfies_append.mp h
  obtain ⟨hbits, hresult⟩ := MerklePathCompute.sound hT hcompute
  refine ⟨hbits, fun henforce => ?_⟩
  simp only [satisfies_cons, satisfies_nil, and_true, Constraint.Holds,
    eval_var, eval_sub, eval_zero] at hroot
  have hdiff := (mul_eq_zero.mp hroot).resolve_right henforce
  rw [← hresult]
  exact sub_eq_zero.mp hdiff

/-- The rows see the address, the leaf, the path, the root, the switch and fresh wires only. -/
theorem satisfies_congr [NeZero depth] (hL : T.Local) {τ : Assignment F}
    (h : Satisfies σ
      ((new T addressBits leaf expectedRoot path boolEnforce start).1.constraints T))
    (hτ : ∀ v, v ∈ addressBits.toList ∨ v = leaf ∨ v ∈ path.toList ∨ v = expectedRoot ∨
      v = boolEnforce ∨ start ≤ v → τ v = σ v) :
    Satisfies τ ((new T addressBits leaf expectedRoot path boolEnforce start).1.constraints T) := by
  obtain ⟨hcompute, hroot⟩ := satisfies_append.mp h
  refine satisfies_append.mpr ⟨MerklePathCompute.satisfies_congr hL hcompute fun v hv => ?_, ?_⟩
  · exact hτ v (by tauto)
  · have hresult : τ (MerklePathCompute.new T addressBits leaf path start).1.result =
        σ (MerklePathCompute.new T addressBits leaf path start).1.result := by
      refine hτ _ (Or.inr (Or.inr (Or.inr (Or.inr (Or.inr ?_)))))
      exact (mem_range'_1.mp (List.Vector.get_mem _ (allocateArray depth start).1)).1
    simp only [satisfies_cons, satisfies_nil, and_true, Constraint.Holds,
      eval_var, eval_sub,
      eval_zero] at hroot ⊢
    change (τ _ - τ expectedRoot) * τ boolEnforce = 0
    rw [hτ expectedRoot (by tauto), hτ boolEnforce (by tauto)]
    exact (congrArg (fun x => (x - σ expectedRoot) * σ boolEnforce) hresult).trans hroot

end MerklePathAuthenticator

end Zeth.Circuit
