import Mathlib.Algebra.BigOperators.Group.List.Basic
import Mathlib.Algebra.Module.Defs
import Zeth.Foundation.Evm

/-!
# Pairings and precompiled contracts on encoded points

A pairing is a map from two additive groups to a multiplicative one that is additive in both
arguments. Points are handed to precompiled contracts as words; a list of words is the encoding of at
most one point, and lists that encode none make the contract fail. The three contracts add points,
multiply them by a number, and check whether a product of pairings is one.

## Main definitions

* `PairingGroups.Encoding`, `PairingGroups.Encoding.ecAdd`, `PairingGroups.Encoding.ecMul`.
* `PairingGroups.Pairing`, `PairingGroups.Pairing.prod`, `PairingGroups.Pairing.check`.

## Main results

* `PairingGroups.Encoding.ecAdd_eq_some`, `PairingGroups.Encoding.ecMul_eq_some`,
  `PairingGroups.Pairing.check_eq_some`: when the contracts succeed and what they return.
-/

namespace PairingGroups

open Evm List

variable {W : Type*}

/-! ### Encoded points -/

/-- An encoding of the elements of a type in `n` words. -/
structure Encoding (W G : Type*) (n : ℕ) where
  decode : List W → Option G
  encode : G → List W
  length_encode : ∀ P, (encode P).length = n
  decode_encode : ∀ P, decode (encode P) = some P

namespace Encoding

variable {G : Type*} {n : ℕ} (c : Encoding W G n)

/-- Addition of two encoded points. -/
def ecAdd [Add G] : Precompile W := fun input =>
  (c.decode (input.take n)).bind fun P =>
    (c.decode (input.drop n)).map fun Q => c.encode (P + Q)

/-- Multiplication of an encoded point by the number that a word stands for. -/
def ecMul [SMul ℕ G] (scalar : W → Option ℕ) : Precompile W := fun input =>
  (c.decode (input.take n)).bind fun P =>
    (input[n]?.bind scalar).map fun k => c.encode (k • P)

variable {c}

theorem ecAdd_eq_some [Add G] {p q output : List W} (hp : p.length = n) :
    c.ecAdd (p ++ q) = some output ↔
      ∃ P Q, c.decode p = some P ∧ c.decode q = some Q ∧ output = c.encode (P + Q) := by
  simp only [ecAdd, take_left' hp, drop_left' hp, Option.bind_eq_some_iff,
    Option.map_eq_some_iff]
  constructor
  · rintro ⟨P, hP, Q, hQ, rfl⟩
    exact ⟨P, Q, hP, hQ, rfl⟩
  · rintro ⟨P, Q, hP, hQ, rfl⟩
    exact ⟨P, hP, Q, hQ, rfl⟩

theorem ecAdd_eq_none [Add G] {p q : List W} (hp : p.length = n) :
    c.ecAdd (p ++ q) = none ↔ c.decode p = none ∨ c.decode q = none := by
  rw [ecAdd, take_left' hp, drop_left' hp]
  cases c.decode p <;> simp

theorem ecMul_eq_some [SMul ℕ G] {scalar : W → Option ℕ} {p output : List W} {s : W}
    (hp : p.length = n) :
    c.ecMul scalar (p ++ [s]) = some output ↔
      ∃ P k, c.decode p = some P ∧ scalar s = some k ∧ output = c.encode (k • P) := by
  have hs : (p ++ [s])[n]? = some s := by
    rw [List.getElem?_append_right hp.le, hp, Nat.sub_self]
    rfl
  simp only [ecMul, take_left' hp, hs, Option.bind_some,
    Option.bind_eq_some_iff, Option.map_eq_some_iff]
  constructor
  · rintro ⟨P, hP, k, hk, rfl⟩
    exact ⟨P, k, hP, hk, rfl⟩
  · rintro ⟨P, k, hP, hk, rfl⟩
    exact ⟨P, hP, k, hk, rfl⟩

theorem ecMul_eq_none [SMul ℕ G] {scalar : W → Option ℕ} {p : List W} {s : W}
    (hp : p.length = n) :
    c.ecMul scalar (p ++ [s]) = none ↔ c.decode p = none ∨ scalar s = none := by
  have hs : (p ++ [s])[n]? = some s := by
    rw [List.getElem?_append_right hp.le, hp, Nat.sub_self]
    rfl
  rw [ecMul, take_left' hp, hs, Option.bind_some]
  cases c.decode p <;> simp

theorem ecAdd_returns [Add G] : (c.ecAdd : Precompile W).Returns n := by
  intro input output h
  simp only [ecAdd, Option.bind_eq_some_iff, Option.map_eq_some_iff] at h
  obtain ⟨P, -, Q, -, rfl⟩ := h
  exact c.length_encode _

theorem ecMul_returns [SMul ℕ G] {scalar : W → Option ℕ} : (c.ecMul scalar).Returns n := by
  intro input output h
  simp only [ecMul, Option.bind_eq_some_iff, Option.map_eq_some_iff] at h
  obtain ⟨P, -, k, -, rfl⟩ := h
  exact c.length_encode _

end Encoding

/-! ### Pairings -/

/-- A map additive in both arguments. -/
structure Pairing (G₁ G₂ GT : Type*) [AddCommGroup G₁] [AddCommGroup G₂] [CommGroup GT] where
  e : G₁ → G₂ → GT
  add_left : ∀ P P' Q, e (P + P') Q = e P Q * e P' Q
  add_right : ∀ P Q Q', e P (Q + Q') = e P Q * e P Q'

namespace Pairing

section Groups

variable {G₁ G₂ GT : Type*} [AddCommGroup G₁] [AddCommGroup G₂] [CommGroup GT]
  (p : Pairing G₁ G₂ GT)

theorem zero_left (Q : G₂) : p.e 0 Q = 1 := by
  have h := p.add_left 0 0 Q
  rwa [add_zero, left_eq_mul] at h

theorem neg_left (P : G₁) (Q : G₂) : p.e (-P) Q = (p.e P Q)⁻¹ := by
  have hsum := p.add_left (-P) P Q
  rw [neg_add_cancel, p.zero_left] at hsum
  exact eq_inv_of_mul_eq_one_left hsum.symm

theorem neg_right (P : G₁) (Q : G₂) : p.e P (-Q) = (p.e P Q)⁻¹ := by
  have hzero : p.e P 0 = 1 := by
    have h := p.add_right P 0 0
    rwa [add_zero, left_eq_mul] at h
  have hsum := p.add_right P (-Q) Q
  rw [neg_add_cancel, hzero] at hsum
  exact eq_inv_of_mul_eq_one_left hsum.symm

/-- The pairing with values one. -/
def one : Pairing G₁ G₂ GT where
  e _ _ := 1
  add_left _ _ _ := (mul_one 1).symm
  add_right _ _ _ := (mul_one 1).symm

/-- The product of the pairings of a list of pairs. -/
def prod (pairs : List (G₁ × G₂)) : GT := (pairs.map fun t => p.e t.1 t.2).prod

end Groups

/-! ### Checking a product of pairings -/

variable {G₁ G₂ : Type*} {n₁ n₂ : ℕ} (c₁ : Encoding W G₁ n₁) (c₂ : Encoding W G₂ n₂)

/-- The given number of pairs of points from a list of words. -/
def decodePairs : ℕ → List W → Option (List (G₁ × G₂))
  | 0, input => if input.isEmpty then some [] else none
  | k + 1, input =>
    (c₁.decode (input.take n₁)).bind fun P =>
      (c₂.decode ((input.drop n₁).take n₂)).bind fun Q =>
        (decodePairs k (input.drop (n₁ + n₂))).map ((P, Q) :: ·)

variable {c₁ c₂}

/-- Words that encode a list of pairs, pair by pair. -/
def Encodes (c₁ : Encoding W G₁ n₁) (c₂ : Encoding W G₂ n₂) (words : List (List W × List W))
    (pairs : List (G₁ × G₂)) : Prop :=
  List.Forall₂ (fun w t => c₁.decode w.1 = some t.1 ∧ c₂.decode w.2 = some t.2) words pairs

theorem decodePairs_eq_some {words : List (List W × List W)}
    (hlen : ∀ w ∈ words, w.1.length = n₁ ∧ w.2.length = n₂) {pairs : List (G₁ × G₂)} :
    decodePairs c₁ c₂ words.length (words.flatMap fun w => w.1 ++ w.2) = some pairs ↔
      Encodes c₁ c₂ words pairs := by
  induction words generalizing pairs with
  | nil =>
    rw [Encodes, List.forall₂_nil_left_iff]
    constructor
    · intro h
      exact (Option.some.inj h).symm
    · rintro rfl
      rfl
  | cons w words ih =>
    obtain ⟨h₁, h₂⟩ := hlen w mem_cons_self
    have hrest : ∀ w' ∈ words, w'.1.length = n₁ ∧ w'.2.length = n₂ :=
      fun w' hw' => hlen w' (mem_cons_of_mem w hw')
    have hdrop : (w.1 ++ w.2).length = n₁ + n₂ := by rw [length_append, h₁, h₂]
    rw [length_cons, flatMap_cons, decodePairs, drop_left' hdrop,
      append_assoc, take_left' h₁, drop_left' h₁, take_left' h₂, Encodes,
      List.forall₂_cons_left_iff]
    simp only [Option.bind_eq_some_iff, Option.map_eq_some_iff, ih hrest]
    constructor
    · rintro ⟨P, hP, Q, hQ, pairs', hpairs, rfl⟩
      exact ⟨(P, Q), pairs', ⟨hP, hQ⟩, hpairs, rfl⟩
    · rintro ⟨⟨P, Q⟩, pairs', ⟨hP, hQ⟩, hpairs, rfl⟩
      exact ⟨P, hP, Q, hQ, pairs', hpairs, rfl⟩

variable {GT : Type*} [AddCommGroup G₁] [AddCommGroup G₂] [CommGroup GT] (p : Pairing G₁ G₂ GT)

variable (c₁ c₂) in
/-- The check whether the product of the pairings of encoded pairs of points is one. -/
def check [DecidableEq GT] (verdict : Bool → W) : Precompile W := fun input =>
  (decodePairs c₁ c₂ (input.length / (n₁ + n₂)) input).map fun pairs =>
    [verdict (decide (p.prod pairs = 1))]

/-- On words in pairs of the right lengths the check succeeds if they encode points, and returns
whether the product is one. -/
theorem check_eq_some [DecidableEq GT] {verdict : Bool → W} {words : List (List W × List W)}
    (hlen : ∀ w ∈ words, w.1.length = n₁ ∧ w.2.length = n₂) (hpos : 0 < n₁ + n₂)
    {output : List W} :
    p.check c₁ c₂ verdict (words.flatMap fun w => w.1 ++ w.2) = some output ↔
      ∃ pairs, Encodes c₁ c₂ words pairs ∧ output = [verdict (decide (p.prod pairs = 1))] := by
  have hsize : (words.flatMap fun w => w.1 ++ w.2).length = words.length * (n₁ + n₂) := by
    rw [length_flatMap, map_congr_left (g := fun _ => n₁ + n₂), map_const',
      sum_replicate, smul_eq_mul]
    intro w hw
    rw [length_append, (hlen w hw).1, (hlen w hw).2]
  rw [check, hsize, Nat.mul_div_cancel _ hpos, Option.map_eq_some_iff]
  constructor
  · rintro ⟨pairs, hpairs, rfl⟩
    exact ⟨pairs, (decodePairs_eq_some hlen).mp hpairs, rfl⟩
  · rintro ⟨pairs, hpairs, rfl⟩
    exact ⟨pairs, (decodePairs_eq_some hlen).mpr hpairs, rfl⟩

theorem check_returns [DecidableEq GT] {verdict : Bool → W} :
    (p.check c₁ c₂ verdict).Returns 1 := by
  intro input output h
  obtain ⟨pairs, -, rfl⟩ := Option.map_eq_some_iff.mp h
  rfl

end Pairing

end PairingGroups
