import Mathlib.Algebra.BigOperators.Fin
import Mathlib.Tactic.Ring
import Zeth.Contract.Curve
import Zeth.Foundation.Bytes
import Zeth.Foundation.PairingGroups

/-!
# Groth16 verification in a scratch pad

`LibGroth16AltBN128.sol` and `LibGroth16BLS12_377.sol` verify proofs of Groth16 with the same
assembly, for points of the first group in `n` words and points of the second in `2 * n`. A key is
stored as the words of `alpha`, `-beta`, `-delta` and the points `ABC`, a proof is given by those of
`a`, `b` and `c`. A loop over the inputs multiplies and adds the points `ABC` in a scratch pad, over
the arguments of the precompiled contracts; then the pad is filled for the check of the product of
four pairings. The two verifiers differ in what they do with the results of the calls.

A call that fails leaves its arguments in the pad. In the loop this means that a point with a scalar
that the contract does not accept is added once, and that words that are not a point are skipped
(`Groth16.decode_accumulated`).

## Main definitions

* `Groth16.VerificationKey`, `Groth16.Proof`, `Groth16.Verifies`: the equation.
* `Groth16.EncodesKey`, `Groth16.EncodesProof`.
* `Groth16.linearCombination`, `Groth16.pairingCheck`: the assembly.

## Main results

* `Groth16.prod_eq_one_iff`: the equation as a product of pairings.
* `Groth16.decode_accumulated`, `Groth16.linearCombination_success_iff`.
* `Groth16.check_of_encodes`, `Groth16.exists_encodes`, `Groth16.check_eq_some_true_iff`: when all
  calls succeed.
-/

namespace Zeth

namespace Groth16

open Evm PairingGroups

/-! ### The equation -/

/-- A verification key for `l` inputs. -/
structure VerificationKey (G₁ G₂ : Type*) (l : ℕ) where
  alpha : G₁
  beta : G₂
  delta : G₂
  abc : Fin (l + 1) → G₁

/-- A proof. -/
structure Proof (G₁ G₂ : Type*) where
  a : G₁
  b : G₂
  c : G₁

section Equation

variable {G₁ G₂ GT : Type*} [AddCommGroup G₁] [AddCommGroup G₂] [CommGroup GT] {l : ℕ}

/-- The combination of the points `ABC` by the inputs, the first of which is `1`. -/
def VerificationKey.combine (vk : VerificationKey G₁ G₂ l) (x : Fin l → ℕ) : G₁ :=
  vk.abc 0 + ∑ i, x i • vk.abc i.succ

/-- The verification equation, for the generator `g` of the second group. -/
def Verifies (e : Pairing G₁ G₂ GT) (g : G₂) (vk : VerificationKey G₁ G₂ l) (x : Fin l → ℕ)
    (proof : Proof G₁ G₂) : Prop :=
  e.e proof.a proof.b = e.e vk.alpha vk.beta * e.e (vk.combine x) g * e.e proof.c vk.delta

instance decidableVerifies [DecidableEq GT] (e : Pairing G₁ G₂ GT) (g : G₂)
    (vk : VerificationKey G₁ G₂ l) (x : Fin l → ℕ) (proof : Proof G₁ G₂) :
    Decidable (Verifies e g vk x proof) :=
  inferInstanceAs (Decidable (_ = _))

/-- The equation as the product that the contracts check. -/
theorem prod_eq_one_iff (e : Pairing G₁ G₂ GT) {P A C alpha : G₁} {g B beta delta : G₂} :
    e.prod [(P, -g), (alpha, -beta), (A, B), (C, -delta)] = 1 ↔
      e.e A B = e.e alpha beta * e.e P g * e.e C delta := by
  simp only [Pairing.prod, List.map_cons, List.map_nil, List.prod_cons, List.prod_nil, mul_one,
    e.neg_right]
  rw [show (e.e P g)⁻¹ * ((e.e alpha beta)⁻¹ * (e.e A B * (e.e C delta)⁻¹)) =
      e.e A B * (e.e alpha beta * e.e P g * e.e C delta)⁻¹ by
    rw [mul_inv, mul_inv]
    ac_rfl, mul_inv_eq_one]

end Equation

/-! ### The assembly -/

/-- The words of an array, in storage or in memory. -/
def slots (ws : List Word) : Memory Word := fun i => ws.getD i 0

/-- A part of an array, at its position. -/
theorem read_slots_append {p ws s : List Word} {i n : ℕ} (hi : p.length = i) (hn : ws.length = n) :
    (slots (p ++ (ws ++ s))).read i n = ws := by
  refine List.ext_getElem (by rw [Memory.length_read, hn]) fun k _ hk => ?_
  have hget : (p ++ (ws ++ s))[p.length + k]? = some ws[k] := by
    rw [List.getElem?_append_right (by omega), Nat.add_sub_cancel_left,
      List.getElem?_append_left hk, List.getElem?_eq_getElem hk]
  simp [Memory.read, slots, ← hi, hget]

/-- The parts of an array that ends with parts of one length. -/
theorem read_slots_flatten {p : List Word} {L : List (List Word)} {n i : ℕ}
    (hL : ∀ ws ∈ L, ws.length = n) (hi : i < L.length) :
    (slots (p ++ L.flatten)).read (p.length + n * i) n = L[i] := by
  have hget : ∀ k < n, (p ++ L.flatten)[p.length + n * i + k]? = L[i][k]? := by
    intro k hk
    rw [List.getElem?_append_right (by omega), add_assoc, Nat.add_sub_cancel_left,
      List.getElem?_flatten_of_length hL hk, List.getElem?_eq_getElem hi, Option.bind_some]
  have hlen : L[i].length = n := hL _ (List.getElem_mem hi)
  refine List.ext_getElem (by rw [Memory.length_read, hlen]) fun k _ hk => ?_
  simp [Memory.read, slots, hget k (hlen ▸ hk), List.getElem?_eq_getElem hk]

section Assembly

variable (n : ℕ) (ecAdd ecMul ecPairing : Precompile Word)

/-- One iteration of the loop over the inputs: a point is multiplied by an input and added to the
first point of the pad. -/
def accumulate (abc : List Word) (input : Word) (s : Memory Word × Bool) :
    Memory Word × Bool :=
  let pad := s.1.write n (abc ++ [input])
  let s1 := call ecMul n (n + 1) n n pad
  let s2 := call ecAdd 0 (2 * n) 0 n s1.1
  (s2.1, s.2 && (s1.2 && s2.2))

/-- The pad after the given number of iterations, and whether all calls so far have succeeded. -/
def linearCombination (vk inputs : Memory Word) : ℕ → Memory Word × Bool
  | 0 => (Memory.write (fun _ => 0) 0 (vk.read (5 * n) n), true)
  | i + 1 => accumulate n ecAdd ecMul (vk.read (5 * n + n * (i + 1)) n) (inputs i)
      (linearCombination vk inputs i)

/-- The pad filled for the check of the pairings. -/
def pairingPad (negG2 : List Word) (vk proof pad : Memory Word) : Memory Word :=
  let pad := pad.write n negG2
  let pad := pad.write (3 * n) (vk.read 0 (3 * n))
  let pad := pad.write (6 * n) (proof.read 0 (3 * n))
  let pad := pad.write (9 * n) (proof.read (3 * n) n)
  pad.write (10 * n) (vk.read (3 * n) (2 * n))

/-- The check of the pairings. -/
def pairingCheck (negG2 : List Word) (vk proof pad : Memory Word) : Memory Word × Bool :=
  call ecPairing 0 (12 * n) 0 1 (pairingPad n negG2 vk proof pad)

end Assembly

section Words

variable {n : ℕ} {ecAdd ecMul ecPairing : Precompile Word}

/-- The point of the pad after an iteration. -/
theorem read_accumulate (hadd : ecAdd.Returns n) (hmul : ecMul.Returns n) {abc : List Word}
    (habc : abc.length = n) (input : Word) (s : Memory Word × Bool) :
    (accumulate n ecAdd ecMul abc input s).1.read 0 n =
        (ecAdd (s.1.read 0 n ++ (ecMul (abc ++ [input])).getD abc)).getD (s.1.read 0 n) ∧
      (accumulate n ecAdd ecMul abc input s).2 =
        (s.2 && ((ecMul (abc ++ [input])).isSome &&
          (ecAdd (s.1.read 0 n ++ (ecMul (abc ++ [input])).getD abc)).isSome)) := by
  unfold accumulate
  extract_lets pad s1 s2
  have hacc : pad.read 0 n = s.1.read 0 n := s.1.read_write_of_disjoint (by omega)
  have hwords : pad.read n (n + 1) = abc ++ [input] := s.1.read_write (by simp [habc])
  have habc' : pad.read n n = abc := by
    rw [pad.read_add] at hwords
    exact (List.append_inj hwords (by rw [pad.length_read, habc])).1
  have hacc₁ : s1.1.read 0 n = s.1.read 0 n :=
    (read_call_of_disjoint hmul (by omega)).trans hacc
  have hmul₁ : s1.1.read n n = (ecMul (abc ++ [input])).getD abc := by
    refine (read_call hmul).trans ?_
    rw [hwords, habc']
  have hinput : s1.1.read 0 (2 * n) = s.1.read 0 n ++ (ecMul (abc ++ [input])).getD abc := by
    rw [two_mul, s1.1.read_add, zero_add, hacc₁, hmul₁]
  constructor
  · refine (read_call hadd).trans ?_
    rw [hinput, hacc₁]
  · have hs1 : s1.2 = (ecMul (abc ++ [input])).isSome := by rw [← hwords, ← call_snd]
    have hs2 : s2.2 = (ecAdd (s1.1.read 0 (2 * n))).isSome := call_snd
    rw [hs1, hs2, hinput]

variable (n) in
/-- The words of the four pairs. -/
def pairWords (acc negG2 : List Word) (vk proof : Memory Word) : List (List Word × List Word) :=
  [(acc, negG2), (vk.read 0 n, vk.read n (2 * n)), (proof.read 0 n, proof.read n (2 * n)),
    (proof.read (3 * n) n, vk.read (3 * n) (2 * n))]

theorem read_pairingPad {negG2 : List Word} (hneg : negG2.length = 2 * n)
    (vk proof pad : Memory Word) :
    (pairingPad n negG2 vk proof pad).read 0 (12 * n) =
      (pairWords n (pad.read 0 n) negG2 vk proof).flatMap fun w => w.1 ++ w.2 := by
  unfold pairingPad
  extract_lets pad₁ pad₂ pad₃ pad₄
  set pad₅ := pad₄.write (10 * n) (vk.read (3 * n) (2 * n))
  -- Each region is the one written last there.
  have hdelta : pad₅.read (10 * n) (2 * n) = vk.read (3 * n) (2 * n) :=
    pad₄.read_write (by simp)
  have h₄ {j k : ℕ} (h : j + k ≤ 10 * n) : pad₅.read j k = pad₄.read j k :=
    pad₄.read_write_of_disjoint (.inl h)
  have hc : pad₅.read (9 * n) n = proof.read (3 * n) n :=
    (h₄ (by omega)).trans (pad₃.read_write (by simp))
  have h₃ {j k : ℕ} (h : j + k ≤ 9 * n) : pad₅.read j k = pad₃.read j k :=
    (h₄ (by omega)).trans (pad₃.read_write_of_disjoint (.inl h))
  have hab : pad₅.read (6 * n) (3 * n) = proof.read 0 (3 * n) :=
    (h₃ (by omega)).trans (pad₂.read_write (by simp))
  have h₂ {j k : ℕ} (h : j + k ≤ 6 * n) : pad₅.read j k = pad₂.read j k :=
    (h₃ (by omega)).trans (pad₂.read_write_of_disjoint (.inl h))
  have halpha : pad₅.read (3 * n) (3 * n) = vk.read 0 (3 * n) :=
    (h₂ (by omega)).trans (pad₁.read_write (by simp))
  have h₁ {j k : ℕ} (h : j + k ≤ 3 * n) : pad₅.read j k = pad₁.read j k :=
    (h₂ (by omega)).trans (pad₁.read_write_of_disjoint (.inl h))
  have hg : pad₅.read n (2 * n) = negG2 := (h₁ (by omega)).trans (pad.read_write hneg)
  have hacc : pad₅.read 0 n = pad.read 0 n :=
    (h₁ (by omega)).trans (pad.read_write_of_disjoint (.inl (by omega)))
  have hthree (mem : Memory Word) : mem.read 0 (3 * n) = mem.read 0 n ++ mem.read n (2 * n) :=
    mem.read_split (by omega) (by omega)
  have hsplit : pad₅.read 0 (12 * n) = pad₅.read 0 n ++ (pad₅.read n (2 * n) ++
      (pad₅.read (3 * n) (3 * n) ++ (pad₅.read (6 * n) (3 * n) ++
        (pad₅.read (9 * n) n ++ pad₅.read (10 * n) (2 * n))))) := by
    rw [pad₅.read_split (i := 0) (show 0 + n = n by omega) (show n + 11 * n = 12 * n by omega),
      pad₅.read_split (i := n) (show n + 2 * n = 3 * n by omega) (show _ + 9 * n = _ by omega),
      pad₅.read_split (i := 3 * n) (show _ + 3 * n = 6 * n by omega) (show _ + 6 * n = _ by omega),
      pad₅.read_split (i := 6 * n) (show _ + 3 * n = 9 * n by omega) (show _ + 3 * n = _ by omega),
      pad₅.read_split (i := 9 * n) (show _ + n = 10 * n by omega) (show _ + 2 * n = _ by omega)]
  rw [hsplit, hacc, hg, halpha, hab, hc, hdelta, hthree, hthree]
  simp [pairWords]

/-- The outcome of the check and the word it leaves in the first place. -/
theorem pairingCheck_eq (hpos : 0 < n) (hpairing : ecPairing.Returns 1) {negG2 : List Word}
    (hneg : negG2.length = 2 * n) (vk proof pad : Memory Word) :
    (pairingCheck n ecPairing negG2 vk proof pad).2 =
        (ecPairing ((pairWords n (pad.read 0 n) negG2 vk proof).flatMap
          fun w => w.1 ++ w.2)).isSome ∧
      [(pairingCheck n ecPairing negG2 vk proof pad).1 0] =
        (ecPairing ((pairWords n (pad.read 0 n) negG2 vk proof).flatMap
          fun w => w.1 ++ w.2)).getD [pad 0] := by
  have hfirst : (pairingPad n negG2 vk proof pad).read 0 1 = [pad 0] := by
    simp only [pairingPad]
    rw [Memory.read_write_of_disjoint _ (.inl (by omega)),
      Memory.read_write_of_disjoint _ (.inl (by omega)),
      Memory.read_write_of_disjoint _ (.inl (by omega)),
      Memory.read_write_of_disjoint _ (.inl (by omega)),
      Memory.read_write_of_disjoint _ (.inl (by omega)), Memory.read_one]
  rw [← read_pairingPad hneg]
  refine ⟨call_snd, ?_⟩
  rw [← hfirst, ← read_call hpairing]
  rfl

/-- The check succeeds and leaves the given word in the first place. -/
theorem pairingCheck_success_iff (hpos : 0 < n) (hpairing : ecPairing.Returns 1)
    {negG2 : List Word} (hneg : negG2.length = 2 * n) (vk proof pad : Memory Word) {w : Word} :
    (pairingCheck n ecPairing negG2 vk proof pad).2 = true ∧
        (pairingCheck n ecPairing negG2 vk proof pad).1 0 = w ↔
      ecPairing ((pairWords n (pad.read 0 n) negG2 vk proof).flatMap fun w => w.1 ++ w.2) =
        some [w] := by
  obtain ⟨hsuccess, hfirst⟩ := pairingCheck_eq hpos hpairing hneg vk proof pad
  rw [hsuccess, ← List.singleton_inj (a := (pairingCheck n ecPairing negG2 vk proof pad).1 0),
    hfirst]
  cases ecPairing ((pairWords n (pad.read 0 n) negG2 vk proof).flatMap fun w => w.1 ++ w.2) <;> simp

end Words

/-! ### Points -/

section Points

variable {G₁ G₂ GT : Type*} [AddCommGroup G₁] [AddCommGroup G₂] [CommGroup GT] {n l : ℕ}
  (c₁ : Encoding Word G₁ n) (c₂ : Encoding Word G₂ (2 * n)) (scalar : Word → Option ℕ)

/-- The slots of a verification key. -/
structure EncodesKey (vk : Memory Word) (key : VerificationKey G₁ G₂ l) : Prop where
  alpha : c₁.decode (vk.read 0 n) = some key.alpha
  beta : c₂.decode (vk.read n (2 * n)) = some (-key.beta)
  delta : c₂.decode (vk.read (3 * n) (2 * n)) = some (-key.delta)
  abc : ∀ i : Fin (l + 1), c₁.decode (vk.read (5 * n + n * i) n) = some (key.abc i)

/-- The words of a proof. -/
structure EncodesProof (words : Memory Word) (proof : Proof G₁ G₂) : Prop where
  a : c₁.decode (words.read 0 n) = some proof.a
  b : c₂.decode (words.read n (2 * n)) = some proof.b
  c : c₁.decode (words.read (3 * n) n) = some proof.c

/-- The arguments of the pairings other than the generator. -/
structure Arguments (G₁ G₂ : Type*) where
  sum : G₁
  alpha : G₁
  beta : G₂
  delta : G₂
  proof : Proof G₁ G₂

/-- The words of the arguments of the pairings. -/
structure EncodesArguments (acc : List Word) (vk proof : Memory Word)
    (t : Arguments G₁ G₂) : Prop where
  sum : c₁.decode acc = some t.sum
  alpha : c₁.decode (vk.read 0 n) = some t.alpha
  beta : c₂.decode (vk.read n (2 * n)) = some (-t.beta)
  delta : c₂.decode (vk.read (3 * n) (2 * n)) = some (-t.delta)
  proof : EncodesProof c₁ c₂ proof t.proof

/-- The verification equation for given arguments. -/
def Arguments.Verifies (e : Pairing G₁ G₂ GT) (g : G₂) (t : Arguments G₁ G₂) : Prop :=
  e.e t.proof.a t.proof.b = e.e t.alpha t.beta * e.e t.sum g * e.e t.proof.c t.delta

instance Arguments.decidableVerifies [DecidableEq GT] (e : Pairing G₁ G₂ GT) (g : G₂)
    (t : Arguments G₁ G₂) : Decidable (t.Verifies e g) :=
  inferInstanceAs (Decidable (_ = _))

/-- The arguments that a key, a proof and scalars amount to. -/
def VerificationKey.arguments (key : VerificationKey G₁ G₂ l) (x : Fin l → ℕ)
    (proof : Proof G₁ G₂) : Arguments G₁ G₂ where
  sum := key.combine x
  alpha := key.alpha
  beta := key.beta
  delta := key.delta
  proof := proof

/-- The point that is added by an iteration, if the words are one: the multiple by the input, or the
point itself if the input is not accepted as a scalar. -/
def term (abc : List Word) (input : Word) : Option G₁ :=
  (c₁.decode abc).map fun P => (scalar input).elim P (· • P)

/-- The accumulated words after an iteration. -/
def addTerm (acc abc : List Word) (input : Word) : List Word :=
  (c₁.decode acc).elim acc fun P => (term c₁ scalar abc input).elim acc fun Q => c₁.encode (P + Q)

/-- The accumulated words after the given number of iterations. -/
def accumulated (vk inputs : Memory Word) : ℕ → List Word
  | 0 => vk.read (5 * n) n
  | i + 1 => addTerm c₁ scalar (accumulated vk inputs i) (vk.read (5 * n + n * (i + 1)) n) (inputs i)

variable {c₁ c₂ scalar}

/-- The words in the place of the multiple encode the term. -/
theorem decode_mul {abc : List Word} (habc : abc.length = n) (input : Word) :
    c₁.decode ((c₁.ecMul scalar (abc ++ [input])).getD abc) = term c₁ scalar abc input := by
  rw [term]
  cases hP : c₁.decode abc with
  | none => rw [(Encoding.ecMul_eq_none habc).mpr (.inl hP), Option.getD_none, hP, Option.map_none]
  | some P =>
    cases hk : scalar input with
    | none =>
      rw [(Encoding.ecMul_eq_none habc).mpr (.inr hk), Option.getD_none, hP, Option.map_some,
        Option.elim_none]
    | some k =>
      rw [(Encoding.ecMul_eq_some habc).mpr ⟨P, k, hP, hk, rfl⟩, Option.getD_some,
        c₁.decode_encode, Option.map_some, Option.elim_some]

theorem add_mul_eq_addTerm {acc abc : List Word} (hacc : acc.length = n) (habc : abc.length = n)
    (input : Word) :
    (c₁.ecAdd (acc ++ (c₁.ecMul scalar (abc ++ [input])).getD abc)).getD acc =
      addTerm c₁ scalar acc abc input := by
  rw [addTerm, ← decode_mul habc]
  cases hP : c₁.decode acc with
  | none => rw [(Encoding.ecAdd_eq_none hacc).mpr (.inl hP), Option.getD_none, Option.elim_none]
  | some P =>
    cases hQ : c₁.decode ((c₁.ecMul scalar (abc ++ [input])).getD abc) with
    | none => rw [(Encoding.ecAdd_eq_none hacc).mpr (.inr hQ), Option.getD_none]; rfl
    | some Q => rw [(Encoding.ecAdd_eq_some hacc).mpr ⟨P, Q, hP, hQ, rfl⟩, Option.getD_some]; rfl

theorem decode_addTerm (acc abc : List Word) (input : Word) :
    c₁.decode (addTerm c₁ scalar acc abc input) =
      (c₁.decode acc).map (· + (term c₁ scalar abc input).getD 0) := by
  rw [addTerm]
  cases hP : c₁.decode acc with
  | none => rw [Option.elim_none, hP, Option.map_none]
  | some P =>
    cases term c₁ scalar abc input with
    | none => rw [Option.elim_some, Option.elim_none, hP, Option.getD_none, Option.map_some, add_zero]
    | some Q => rw [Option.elim_some, Option.elim_some, c₁.decode_encode]; rfl

variable (vk inputs : Memory Word)

/-- The first point of the pad after the given number of iterations. -/
theorem read_linearCombination (i : ℕ) :
    (linearCombination n c₁.ecAdd (c₁.ecMul scalar) vk inputs i).1.read 0 n =
      accumulated c₁ scalar vk inputs i := by
  induction i with
  | zero =>
    simp only [linearCombination, accumulated]
    exact Memory.read_write _ (vk.length_read _ n)
  | succ i ih =>
    have hacc : (accumulated c₁ scalar vk inputs i).length = n := by
      rw [← ih, Memory.length_read]
    rw [linearCombination, (read_accumulate c₁.ecAdd_returns c₁.ecMul_returns
      (vk.length_read _ n) _ _).1, ih, add_mul_eq_addTerm hacc (vk.length_read _ n), accumulated]

theorem length_accumulated (i : ℕ) : (accumulated c₁ scalar vk inputs i).length = n := by
  rw [← read_linearCombination, Memory.length_read]

/-- The accumulated point: the first point of the key and the terms of the iterations. -/
theorem decode_accumulated (i : ℕ) :
    c₁.decode (accumulated c₁ scalar vk inputs i) =
      (c₁.decode (vk.read (5 * n) n)).map (· + ∑ j ∈ Finset.range i,
        (term c₁ scalar (vk.read (5 * n + n * (j + 1)) n) (inputs j)).getD 0) := by
  induction i with
  | zero => simp [accumulated]
  | succ i ih =>
    rw [accumulated, decode_addTerm, ih, Option.map_map, Finset.sum_range_succ]
    simp only [Function.comp_def, add_assoc]

/-- The calls of the loop succeed if the words are points and the inputs scalars. -/
theorem linearCombination_success_iff (i : ℕ) :
    (linearCombination n c₁.ecAdd (c₁.ecMul scalar) vk inputs i).2 = true ↔
      ∀ j < i, c₁.decode (vk.read (5 * n) n) ≠ none ∧
        c₁.decode (vk.read (5 * n + n * (j + 1)) n) ≠ none ∧ scalar (inputs j) ≠ none := by
  induction i with
  | zero => simp [linearCombination]
  | succ i ih =>
    have hacc : (accumulated c₁ scalar vk inputs i).length = n := length_accumulated vk inputs i
    have habc := vk.length_read (5 * n + n * (i + 1)) n
    rw [linearCombination, (read_accumulate c₁.ecAdd_returns c₁.ecMul_returns habc _ _).2,
      Bool.and_eq_true, Bool.and_eq_true, ih, read_linearCombination]
    simp only [Option.isSome_iff_ne_none, ne_eq, Encoding.ecMul_eq_none habc,
      Encoding.ecAdd_eq_none hacc, decode_mul habc, decode_accumulated, term,
      Option.map_eq_none_iff, Nat.forall_lt_succ_right]
    tauto

/-- The accumulated point for the words of a key and of scalars. -/
theorem decode_accumulated_of_encodes {vk inputs : Memory Word} {key : VerificationKey G₁ G₂ l}
    {x : Fin l → ℕ} (hkey : EncodesKey c₁ c₂ vk key)
    (hx : ∀ i : Fin l, scalar (inputs i) = some (x i)) :
    c₁.decode (accumulated c₁ scalar vk inputs l) = some (key.combine x) := by
  have hfirst : c₁.decode (vk.read (5 * n) n) = some (key.abc 0) := hkey.abc 0
  rw [decode_accumulated, hfirst, Option.map_some, VerificationKey.combine, Finset.sum_range]
  congr 2
  refine Finset.sum_congr rfl fun i _ => ?_
  have habc : c₁.decode (vk.read (5 * n + n * (i + 1)) n) = some (key.abc i.succ) :=
    hkey.abc i.succ
  rw [term, habc, hx i]
  rfl

variable {vk inputs} {proof : Memory Word} (e : Pairing G₁ G₂ GT) [DecidableEq GT]
  {verdict : Bool → Word} {g : G₂} {negG2 : List Word}

/-- The check of the pairings succeeds if the words are points, and says whether the equation
holds. -/
theorem check_pairWords_eq_some (hpos : 0 < n) (hg : c₂.decode negG2 = some (-g))
    (hneg : negG2.length = 2 * n) {acc : List Word} (hacc : acc.length = n)
    {output : List Word} :
    e.check c₁ c₂ verdict ((pairWords n acc negG2 vk proof).flatMap fun w => w.1 ++ w.2) =
        some output ↔
      ∃ t, EncodesArguments c₁ c₂ acc vk proof t ∧ output = [verdict (decide (t.Verifies e g))] := by
  have hlen : ∀ w ∈ pairWords n acc negG2 vk proof, w.1.length = n ∧ w.2.length = 2 * n := by
    simp [pairWords, hacc, hneg]
  rw [e.check_eq_some hlen (by omega)]
  constructor
  · rintro ⟨pairs, hpairs, rfl⟩
    simp only [Pairing.Encodes, pairWords, List.forall₂_cons_left_iff,
      List.forall₂_nil_left_iff] at hpairs
    obtain ⟨⟨P, g'⟩, _, ⟨hP, hg'⟩, ⟨⟨alpha, beta⟩, _, ⟨halpha, hbeta⟩, ⟨⟨A, B⟩, _, ⟨hA, hB⟩,
      ⟨⟨C, delta⟩, _, ⟨hC, hdelta⟩, rfl, rfl⟩, rfl⟩, rfl⟩, rfl⟩ := hpairs
    obtain rfl : g' = -g := Option.some.inj (hg'.symm.trans hg)
    refine ⟨⟨P, alpha, -beta, -delta, A, B, C⟩, ⟨hP, halpha, by rwa [neg_neg], by rwa [neg_neg],
      hA, hB, hC⟩, ?_⟩
    refine congrArg (fun b => [verdict b]) (decide_eq_decide.mpr ?_)
    rw [Arguments.Verifies, ← prod_eq_one_iff e, neg_neg, neg_neg]
  · rintro ⟨t, ⟨hsum, halpha, hbeta, hdelta, hpf⟩, rfl⟩
    refine ⟨[(t.sum, -g), (t.alpha, -t.beta), (t.proof.a, t.proof.b), (t.proof.c, -t.delta)], ?_,
      ?_⟩
    · simp [Pairing.Encodes, pairWords, hsum, hg, halpha, hbeta, hpf.a, hpf.b, hpf.c, hdelta]
    · exact congrArg (fun b => [verdict b]) (decide_eq_decide.mpr (prod_eq_one_iff e).symm)

/-- The words are those of a key, a proof and scalars. -/
def Encodes (c₁ : Encoding Word G₁ n) (c₂ : Encoding Word G₂ (2 * n)) (scalar : Word → Option ℕ)
    (vk proof inputs : Memory Word) (key : VerificationKey G₁ G₂ l) (pf : Proof G₁ G₂)
    (x : Fin l → ℕ) : Prop :=
  EncodesKey c₁ c₂ vk key ∧ EncodesProof c₁ c₂ proof pf ∧
    ∀ i : Fin l, scalar (inputs i) = some (x i)

/-- For the words of a key, a proof and scalars all calls succeed, and the last says whether the
equation holds. -/
theorem check_of_encodes (hpos : 0 < n) (hg : c₂.decode negG2 = some (-g))
    (hneg : negG2.length = 2 * n) {key : VerificationKey G₁ G₂ l} {pf : Proof G₁ G₂}
    {x : Fin l → ℕ} (h : Encodes c₁ c₂ scalar vk proof inputs key pf x) :
    (linearCombination n c₁.ecAdd (c₁.ecMul scalar) vk inputs l).2 = true ∧
      e.check c₁ c₂ verdict ((pairWords n (accumulated c₁ scalar vk inputs l) negG2 vk
          proof).flatMap fun w => w.1 ++ w.2) =
        some [verdict (decide (Verifies e g key x pf))] := by
  obtain ⟨hkey, hpf, hx⟩ := h
  constructor
  · rw [linearCombination_success_iff]
    intro j hj
    have hfirst : c₁.decode (vk.read (5 * n) n) = some (key.abc 0) := hkey.abc 0
    have habc : c₁.decode (vk.read (5 * n + n * (j + 1)) n) = some (key.abc (Fin.succ ⟨j, hj⟩)) :=
      hkey.abc (Fin.succ ⟨j, hj⟩)
    have hscalar : scalar (inputs j) = some (x ⟨j, hj⟩) := hx ⟨j, hj⟩
    rw [hfirst, habc, hscalar]
    exact ⟨nofun, nofun, nofun⟩
  · exact (check_pairWords_eq_some e hpos hg hneg (length_accumulated vk inputs l)).mpr
      ⟨key.arguments x pf, ⟨decode_accumulated_of_encodes hkey hx, hkey.alpha, hkey.beta,
        hkey.delta, hpf⟩, rfl⟩

/-- Calls that all succeed have been given the words of a key, a proof and scalars. -/
theorem exists_encodes (hpos : 0 < n) (hg : c₂.decode negG2 = some (-g))
    (hneg : negG2.length = 2 * n)
    (hloop : (linearCombination n c₁.ecAdd (c₁.ecMul scalar) vk inputs l).2 = true)
    {output : List Word}
    (hcheck : e.check c₁ c₂ verdict ((pairWords n (accumulated c₁ scalar vk inputs l) negG2 vk
      proof).flatMap fun w => w.1 ++ w.2) = some output) :
    ∃ (key : VerificationKey G₁ G₂ l) (pf : Proof G₁ G₂) (x : Fin l → ℕ),
      Encodes c₁ c₂ scalar vk proof inputs key pf x := by
  obtain ⟨t, henc, -⟩ :=
    (check_pairWords_eq_some e hpos hg hneg (length_accumulated vk inputs l)).mp hcheck
  rw [linearCombination_success_iff] at hloop
  have hfirst : c₁.decode (vk.read (5 * n) n) ≠ none := by
    intro h
    have hsum := henc.sum
    rw [decode_accumulated, h] at hsum
    exact absurd hsum nofun
  have habc : ∀ i : Fin (l + 1), ∃ Q, c₁.decode (vk.read (5 * n + n * i) n) = some Q := by
    intro i
    refine Option.ne_none_iff_exists'.mp ?_
    induction i using Fin.cases with
    | zero => exact hfirst
    | succ i => exact (hloop i i.2).2.1
  have hscalar : ∀ i : Fin l, ∃ k, scalar (inputs i) = some k := fun i =>
    Option.ne_none_iff_exists'.mp (hloop i i.2).2.2
  choose abc habc using habc
  choose x hx using hscalar
  exact ⟨⟨t.alpha, t.beta, t.delta, abc⟩, t.proof, x,
    ⟨henc.alpha, henc.beta, henc.delta, habc⟩, henc.proof, hx⟩

/-- All calls succeed and the last says yes exactly for the words of a key, a proof and scalars for
which the equation holds. -/
theorem check_eq_some_true_iff (hpos : 0 < n) (hg : c₂.decode negG2 = some (-g))
    (hneg : negG2.length = 2 * n) (hverdict : verdict false ≠ verdict true) :
    (linearCombination n c₁.ecAdd (c₁.ecMul scalar) vk inputs l).2 = true ∧
        e.check c₁ c₂ verdict ((pairWords n (accumulated c₁ scalar vk inputs l) negG2 vk
          proof).flatMap fun w => w.1 ++ w.2) = some [verdict true] ↔
      ∃ (key : VerificationKey G₁ G₂ l) (pf : Proof G₁ G₂) (x : Fin l → ℕ),
        Encodes c₁ c₂ scalar vk proof inputs key pf x ∧ Verifies e g key x pf := by
  constructor
  · rintro ⟨hloop, hcheck⟩
    obtain ⟨key, pf, x, henc⟩ := exists_encodes e hpos hg hneg hloop hcheck
    refine ⟨key, pf, x, henc, ?_⟩
    have hsays := (check_of_encodes e hpos hg hneg henc).2.symm.trans hcheck
    by_contra hnot
    rw [decide_eq_false hnot, Option.some_inj, List.singleton_inj] at hsays
    exact hverdict hsays
  · rintro ⟨key, pf, x, henc, hver⟩
    obtain ⟨hloop, hcheck⟩ := check_of_encodes e hpos hg hneg henc
    rw [decide_eq_true hver] at hcheck
    exact ⟨hloop, hcheck⟩

end Points

end Groth16

end Zeth
