import Mathlib.Algebra.Ring.Basic
import Mathlib.Data.List.Iterate
import Zeth.Foundation.Numerals

/-!
# MiMC

The MiMC permutation over a ring: in each round the key and a constant are added and a power is
taken, and the key is added at the end. From it a compression function is made by adding the two
arguments to the result (Miyaguchi–Preneel), and from this a hash of lists by chaining and
compressing the length in the end (Merkle–Damgård).

## Main definitions

* `Mimc.rounds`, `Mimc.compress`, `Mimc.chain`.
* `Mimc.constants`: zero and the iterates of a function on a seed.
-/

namespace Mimc

variable {F : Type*} [Semiring F]

/-- One round for each constant. -/
def rounds (exponent : ℕ) (key : F) (constants : List F) (x : F) : F :=
  constants.foldl (fun a c => (a + key + c) ^ exponent) x

@[simp] theorem rounds_nil (exponent : ℕ) (key x : F) : rounds exponent key [] x = x := rfl

@[simp] theorem rounds_cons (exponent : ℕ) (key c : F) (cs : List F) (x : F) :
    rounds exponent key (c :: cs) x = rounds exponent key cs ((x + key + c) ^ exponent) := rfl

/-- The compression function. -/
def compress (exponent : ℕ) (constants : List F) (x y : F) : F :=
  rounds exponent y constants x + y + (x + y)

/-- The hash of a list. -/
def chain (compress : F → F → F) (iv : F) (values : List F) : F :=
  compress (values.foldl compress iv) values.length

/-- The first round has the constant zero, the others the iterates of a function on a seed. -/
def constants {α : Type*} (next : α → α) (toF : α → F) (seed : α) (numRounds : ℕ) : List F :=
  0 :: (List.iterate next (next seed) (numRounds - 1)).map toF

/-- Values of another type with the same iterates give the same constants. -/
theorem constants_semiconj {α β : Type*} {next : α → α} {next' : β → β} {g : α → β}
    (hg : Function.Semiconj g next next') (toF : β → F) (seed : α) (numRounds : ℕ) :
    constants next' toF (g seed) numRounds = constants next (toF ∘ g) seed numRounds := by
  have hiterate (n : ℕ) (a : α) :
      List.iterate next' (g a) n = (List.iterate next a n).map g := by
    induction n generalizing a with
    | zero => rfl
    | succ n ih => rw [List.iterate, ← hg a, ih, List.iterate, List.map_cons]
  rw [constants, constants, ← hg seed, hiterate, List.map_map]

/-- The constants for fewer rounds. -/
theorem take_constants {α : Type*} (next : α → α) (toF : α → F) (seed : α) {n m : ℕ} (hn : 0 < n)
    (hnm : n ≤ m) : (constants next toF seed m).take n = constants next toF seed n := by
  obtain ⟨n, rfl⟩ := Nat.exists_eq_succ_of_ne_zero hn.ne'
  rw [constants, constants, Nat.succ_eq_add_one, List.take_succ_cons, Nat.add_sub_cancel,
    ← List.map_take, List.take_iterate, Nat.min_eq_left (by omega)]

@[simp] theorem length_constants {α : Type*} (next : α → α) (toF : α → F) (seed : α) {n : ℕ}
    (hn : 0 < n) : (constants next toF seed n).length = n := by
  rw [constants, List.length_cons, List.length_map, List.length_iterate, Nat.sub_add_cancel hn]

end Mimc
