import Mathlib.Data.List.GetD
import Mathlib.Tactic.Linarith
import Zeth.Foundation.Numerals

/-!
# Scratch memory and calls of precompiled contracts

Assembly code of contracts works in a region of memory: it stores words, calls a precompiled contract
on a range of words and has the result written to another range, which may overlap the first. A call
that fails writes nothing, and the code goes on with what was there before.

Positions are counted in words. What a region holds is given by `Memory.read`; the lemmas say what a
region holds after a store or a call, according to whether it is the one written or disjoint from it.

## Main definitions

* `Evm.Memory`, `Evm.Memory.read`, `Evm.Memory.write`.
* `Evm.Precompile`, `Evm.call`.

## Main results

* `Evm.Memory.read_write`, `Evm.Memory.read_write_of_disjoint`.
* `Evm.read_call`, `Evm.read_call_of_disjoint`: after a call, whether it failed or not.
-/

namespace Evm

variable {W : Type*}

/-! ### Memory -/

/-- Words of memory by position. -/
abbrev Memory (W : Type*) := ℕ → W

namespace Memory

/-- The `n` words from position `i` on. -/
def read (mem : Memory W) (i n : ℕ) : List W := (List.range n).map fun k => mem (i + k)

/-- The words of a list are stored from position `i` on. -/
def write (mem : Memory W) (i : ℕ) (ws : List W) : Memory W := fun k =>
  if i ≤ k then ws.getD (k - i) (mem k) else mem k

variable (mem : Memory W)

@[simp] theorem length_read (i n : ℕ) : (mem.read i n).length = n := by simp [read]

theorem read_add (i n k : ℕ) : mem.read i (n + k) = mem.read i n ++ mem.read (i + n) k := by
  simp only [read, List.range_add, List.map_append, List.map_map, Function.comp_def, add_assoc]

/-- A region in two parts. -/
theorem read_split {i j n k m : ℕ} (hj : i + n = j) (hm : n + k = m) :
    mem.read i m = mem.read i n ++ mem.read j k := by
  rw [← hj, ← hm, read_add]

theorem read_one (i : ℕ) : mem.read i 1 = [mem i] := rfl

/-- Regions with the same words at every position read the same. -/
theorem read_congr {mem mem' : Memory W} {i n : ℕ} (h : ∀ k, i ≤ k → k < i + n → mem k = mem' k) :
    mem.read i n = mem'.read i n := by
  refine List.map_congr_left fun k hk => h _ (Nat.le_add_right i k) ?_
  have := List.mem_range.mp hk
  omega

/-- The region just written. -/
theorem read_write {i n : ℕ} {ws : List W} (hn : ws.length = n) :
    (mem.write i ws).read i n = ws := by
  refine List.ext_getElem (by rw [length_read, hn]) fun k _ hk => ?_
  simp [read, write, hk]

theorem read_write_of_disjoint {i j n : ℕ} {ws : List W}
    (h : j + n ≤ i ∨ i + ws.length ≤ j) : (mem.write i ws).read j n = mem.read j n := by
  refine read_congr fun k hjk hkj => ?_
  rw [write]
  split_ifs with hik
  · exact List.getD_eq_default _ _ (by omega)
  · rfl

end Memory

/-! ### Calls -/

/-- A precompiled contract: it fails or returns words. -/
abbrev Precompile (W : Type*) := List W → Option (List W)

/-- The contract returns `n` words when it does not fail. -/
def Precompile.Returns (f : Precompile W) (n : ℕ) : Prop :=
  ∀ input output, f input = some output → output.length = n

/-- A call with `inSize` words of input and `outSize` words of output, and whether it succeeded. -/
def call (f : Precompile W) (inOffset inSize outOffset outSize : ℕ) (mem : Memory W) :
    Memory W × Bool :=
  match f (mem.read inOffset inSize) with
  | some output => (mem.write outOffset (output.take outSize), true)
  | none => (mem, false)

variable {f : Precompile W} {i a o n : ℕ} {mem : Memory W}

theorem call_snd : (call f i a o n mem).2 = (f (mem.read i a)).isSome := by
  rw [call]
  cases f (mem.read i a) <;> rfl

/-- A call that succeeds writes its output and nothing else. -/
theorem call_of_some (hf : f.Returns n) {output : List W} (h : f (mem.read i a) = some output) :
    output.length = n ∧ call f i a o n mem = (mem.write o output, true) := by
  have hlen := hf _ _ h
  refine ⟨hlen, ?_⟩
  simp only [call, h, List.take_of_length_le hlen.le]

theorem call_of_none (h : f (mem.read i a) = none) : call f i a o n mem = (mem, false) := by
  simp only [call, h]

/-- The output region after a call: the result, or what was there before. -/
theorem read_call (hf : f.Returns n) :
    (call f i a o n mem).1.read o n = (f (mem.read i a)).getD (mem.read o n) := by
  cases h : f (mem.read i a) with
  | none => rw [call_of_none h, Option.getD_none]
  | some output =>
    obtain ⟨hlen, hcall⟩ := call_of_some hf h
    rw [hcall, Option.getD_some, mem.read_write hlen]

/-- Any other region after a call. -/
theorem read_call_of_disjoint (hf : f.Returns n) {j k : ℕ} (hdis : j + k ≤ o ∨ o + n ≤ j) :
    (call f i a o n mem).1.read j k = mem.read j k := by
  cases h : f (mem.read i a) with
  | none => rw [call_of_none h]
  | some output =>
    obtain ⟨hlen, hcall⟩ := call_of_some hf h
    rw [hcall, mem.read_write_of_disjoint (by rwa [hlen])]

end Evm
