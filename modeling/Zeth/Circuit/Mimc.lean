import Mathlib.Data.Nat.Bitwise
import Mathlib.Data.Nat.Size
import Zeth.Foundation.Mimc
import Zeth.Foundation.R1CS

/-!
# The MiMC gadgets

The gadget of one round of MiMC raises the sum of message, key and round constant to a power by
square-and-multiply, the highest bit of the exponent first, with one wire for each intermediate
power (`libzeth/circuits/mimc/mimc_round.tcc`). The permutation is a row of such gadgets, of which
the last one adds the key and a further linear combination to its result (`mimc_permutation.tcc`).
The compression function passes the sum of its arguments there (`mimc_mp.tcc`), and the input
hasher is a chain of compression functions (`mimc_input_hasher.tcc`).

The wires of the intermediate powers are allocated only when the constraints are generated, so the
rows are functions of the next free wire at that time.

## Main definitions

* `MimcRound`, `MimcRound.constraints`, `MimcPermutation.new`, `MimcMp.new`, `MimcInputHasher.new`.
* `roundRows`: the rows of round gadgets one after the other.

## Main results

* `MimcRound.computes_of_satisfies`: what a round gadget computes, for every odd exponent.
* `MimcMp.result_eq`, `MimcInputHasher.result_eq`.
-/

namespace Zeth.Circuit

open R1CS LinearCombination List

variable {F : Type} [Field F]

/-! ### One round -/

/-- `MiMC_round_gadget`. -/
structure MimcRound (F : Type) where
  msg : LinearCombination F
  key : LinearCombination F
  roundConst : F
  result : Var
  addToResult : Option (LinearCombination F)

namespace MimcRound

/-- The sum that is raised to a power. -/
def t (g : MimcRound F) : LinearCombination F := g.msg + g.key + .const g.roundConst

/-- `mask`. The literal `1` is an `int` of 32 bits, so a shift by 31 sets its sign, which the
conversion to `size_t` extends. -/
def mask (exponent : ℕ) : ℕ :=
  if exponent.size = 32 then 2 ^ 64 - 2 ^ 31 else 1 <<< (exponent.size - 1)

/-- The loop over the bits of the exponent that are neither the highest nor the lowest, with
`exp`, `exp_idx` and `last` of the source: the rows, and `exp_idx` and `last` after it. -/
def squareAndMultiply (mask : ℕ) (t : LinearCombination F) (exponents : ℕ → Var) :
    ℕ → ℕ → ℕ → Var → List (Constraint F) × ℕ × Var
  | 0, _, expIdx, last => ([], expIdx, last)
  | n + 1, exp, expIdx, last =>
    if exp &&& mask ≠ 0 then
      let multiplied := exponents expIdx
      let squared := exponents (expIdx + 1)
      let rest := squareAndMultiply mask t exponents n (exp <<< 1) (expIdx + 2) squared
      (⟨t, .var last, .var multiplied⟩ :: ⟨.var multiplied, .var multiplied, .var squared⟩ :: rest.1,
        rest.2)
    else
      let squared := exponents expIdx
      let rest := squareAndMultiply mask t exponents n (exp <<< 1) (expIdx + 1) squared
      (⟨.var last, .var last, .var squared⟩ :: rest.1, rest.2)

/-- The number of intermediate powers, `NUM_CONDITIONS - 1`. -/
def numExponents (exponent : ℕ) : ℕ := exponent.size + (exponent.bits.count true) - 3

/-- What the last product has to be. -/
def product (g : MimcRound F) : LinearCombination F :=
  match g.addToResult with
  | some addToResult => .var g.result - addToResult
  | none => .var g.result

/-- `generate_r1cs_constraints`, where `start` is the next free wire. -/
def constraints (exponent : ℕ) (g : MimcRound F) (start : ℕ) : List (Constraint F) :=
  let loop := squareAndMultiply (mask exponent) g.t (start + ·) (exponent.size - 2)
    (exponent <<< 1) 1 start
  ⟨g.t, g.t, .var start⟩ :: loop.1 ++ [⟨.var loop.2.2, g.t, g.product⟩]

/-- The value that is added to the power. -/
def added (σ : Assignment F) (g : MimcRound F) : F :=
  g.addToResult.elim 0 (LinearCombination.eval σ)

theorem eval_product (σ : Assignment F) (g : MimcRound F) :
    g.product.eval σ = σ g.result - g.added σ := by
  rw [product, added]
  cases g.addToResult with
  | none => rw [eval_var, Option.elim_none, sub_zero]
  | some addToResult => rw [eval_sub, eval_var, Option.elim_some]

/-- The result is the power of the sum, with the value to add. -/
def Computes (exponent : ℕ) (σ : Assignment F) (g : MimcRound F) : Prop :=
  σ g.result = g.t.eval σ ^ exponent + g.added σ

theorem and_mask_ne_zero (exponent : ℕ) {m k n : ℕ} (h : k + n = m) :
    (exponent <<< k) &&& (1 <<< m) ≠ 0 ↔ exponent / 2 ^ n % 2 = 1 := by
  rw [Nat.one_shiftLeft, Nat.and_two_pow, Nat.testBit_shiftLeft]
  have hle : k ≤ m := by omega
  have hsub : m - k = n := by omega
  rw [hsub, decide_eq_true hle, Bool.true_and, Nat.testBit_eq_decide_div_mod_eq]
  by_cases hbit : exponent / 2 ^ n % 2 = 1
  · simp [hbit]
  · simp [hbit]

/-- From the power of all bits read so far the loop gets to the power of all bits but the lowest,
when the mask takes one bit after the other. -/
theorem squareAndMultiply_spec {σ : Assignment F} {mask exponent : ℕ} {t : LinearCombination F}
    {exponents : ℕ → Var} (n : ℕ) {k expIdx : ℕ} {last : Var}
    (hbits : ∀ j < n, (exponent <<< (k + j)) &&& mask ≠ 0 ↔ exponent / 2 ^ (n - j) % 2 = 1)
    (hlast : σ last = t.eval σ ^ (2 * (exponent / 2 ^ (n + 1))))
    (h : Satisfies σ (squareAndMultiply mask t exponents n (exponent <<< k) expIdx last).1) :
    σ (squareAndMultiply mask t exponents n (exponent <<< k) expIdx last).2.2 =
      t.eval σ ^ (2 * (exponent / 2)) := by
  induction n generalizing k expIdx last with
  | zero => rwa [zero_add, pow_one] at hlast
  | succ n ih =>
    have hbit : (exponent <<< k) &&& mask ≠ 0 ↔ exponent / 2 ^ (n + 1) % 2 = 1 :=
      hbits 0 n.succ_pos
    have hrestBits : ∀ j < n, (exponent <<< (k + 1 + j)) &&& mask ≠ 0 ↔
        exponent / 2 ^ (n - j) % 2 = 1 := by
      intro j hj
      have hnext := hbits (j + 1) (Nat.succ_lt_succ hj)
      rwa [Nat.succ_sub_succ, show k + (j + 1) = k + 1 + j by omega] at hnext
    have hdiv : exponent / 2 ^ (n + 1) = 2 * (exponent / 2 ^ (n + 1 + 1)) +
        exponent / 2 ^ (n + 1) % 2 := by
      rw [pow_succ 2 (n + 1), ← Nat.div_div_eq_div_mul]
      omega
    have hshift : exponent <<< k <<< 1 = exponent <<< (k + 1) := (Nat.shiftLeft_add _ _ _).symm
    rw [squareAndMultiply] at h ⊢
    split_ifs at h ⊢ with hset
    · rw [satisfies_cons, satisfies_cons, Constraint.Holds, Constraint.Holds] at h
      simp only [eval_var, hshift] at h ⊢
      obtain ⟨hmultiplied, hsquared, hrest⟩ := h
      refine ih hrestBits ?_ hrest
      rw [← hsquared, ← hmultiplied, hlast, ← pow_succ', ← pow_add, hdiv, hbit.mp hset]
      ring_nf
    · rw [satisfies_cons, Constraint.Holds] at h
      simp only [eval_var, hshift] at h ⊢
      obtain ⟨hsquared, hrest⟩ := h
      refine ih hrestBits ?_ hrest
      have hzero : exponent / 2 ^ (n + 1) % 2 = 0 := by
        have := mt hbit.mpr hset
        omega
      rw [← hsquared, hlast, ← pow_add, hdiv, hzero]
      ring_nf

/-- The highest bit of a number. -/
theorem div_two_pow_size_sub_one {exponent : ℕ} (hpos : 0 < exponent) :
    exponent / 2 ^ (exponent.size - 1) = 1 := by
  have hsize : 0 < exponent.size := Nat.size_pos.mpr hpos
  have hle : 2 ^ (exponent.size - 1) ≤ exponent := Nat.lt_size.mp (by omega)
  have hlt : exponent < 2 ^ (exponent.size - 1) * 2 := by
    rw [← pow_succ, Nat.sub_add_cancel hsize]
    exact Nat.lt_size_self exponent
  exact Nat.div_eq_of_lt_le (by rwa [one_mul]) (by omega)

/-- The mask takes the inner bits of the exponent one after the other. -/
def ReadsBits (exponent : ℕ) : Prop :=
  ∀ j < exponent.size - 2, (exponent <<< (1 + j)) &&& mask exponent ≠ 0 ↔
    exponent / 2 ^ (exponent.size - 2 - j) % 2 = 1

theorem readsBits_of_size_ne {exponent : ℕ} (hsize : exponent.size ≠ 32) : ReadsBits exponent := by
  intro j hj
  rw [mask, if_neg hsize]
  exact and_mask_ne_zero exponent (by omega)

/-- **The round gadget.** For every odd exponent of at least three whose bits are read, the result is
the power. -/
theorem computes_of_satisfies {σ : Assignment F} {exponent start : ℕ} (hodd : exponent % 2 = 1)
    (hthree : 3 ≤ exponent) (hbits : ReadsBits exponent) {g : MimcRound F}
    (h : Satisfies σ (g.constraints exponent start)) : g.Computes exponent σ := by
  have hsize : 1 < exponent.size := Nat.lt_size.mpr (by omega)
  rw [constraints, cons_append, satisfies_cons, satisfies_append, satisfies_cons] at h
  obtain ⟨hsquare, hloop, hfinal, -⟩ := h
  rw [Constraint.Holds, eval_var] at hsquare
  have hfirst : σ start = g.t.eval σ ^ (2 * (exponent / 2 ^ (exponent.size - 2 + 1))) := by
    rw [show exponent.size - 2 + 1 = exponent.size - 1 by omega,
      div_two_pow_size_sub_one (by omega), ← hsquare, mul_one, sq]
  have hlast := squareAndMultiply_spec (exponent.size - 2) hbits hfirst hloop
  have hpower : g.t.eval σ ^ (2 * (exponent / 2)) * g.t.eval σ = g.t.eval σ ^ exponent := by
    rw [← pow_succ]
    congr 1
    omega
  rw [Constraint.Holds, eval_var, hlast, hpower, eval_product] at hfinal
  exact (sub_eq_iff_eq_add.mp hfinal.symm)

end MimcRound

/-! ### Permutation and compression function -/

/-- `generate_r1cs_constraints` of round gadgets one after the other, where `next` is the next free
wire. -/
def roundRows (exponent : ℕ) : List (MimcRound F) → ℕ → List (Constraint F)
  | [], _ => []
  | g :: gs, next =>
    g.constraints exponent next ++ roundRows exponent gs (next + MimcRound.numExponents exponent)

theorem computes_of_mem {σ : Assignment F} {exponent : ℕ} (hodd : exponent % 2 = 1)
    (hthree : 3 ≤ exponent) (hbits : MimcRound.ReadsBits exponent) {gs : List (MimcRound F)} {next : ℕ}
    (h : Satisfies σ (roundRows exponent gs next)) : ∀ g ∈ gs, g.Computes exponent σ := by
  induction gs generalizing next with
  | nil => exact forall_mem_nil _
  | cons g gs ih =>
    rw [roundRows, satisfies_append] at h
    exact forall_mem_cons.mpr ⟨MimcRound.computes_of_satisfies hodd hthree hbits h.1, ih h.2⟩

namespace MimcPermutation

/-- The round gadgets of a permutation with the given intermediate results: each round takes the
result of the one before, and the last one writes to `result`. -/
def rounds (key addToLast : LinearCombination F) (result : Var) :
    LinearCombination F → List Var → List F → List (MimcRound F)
  | msg, [], roundConstants => [⟨msg, key, roundConstants.headD 0, result, some addToLast⟩]
  | msg, roundResult :: roundResults, roundConstants =>
    ⟨msg, key, roundConstants.headD 0, roundResult, none⟩ ::
      rounds key addToLast result (.var roundResult) roundResults roundConstants.tail

/-- The constructor of `MiMC_permutation_gadget`. -/
def new (numRounds : ℕ) (roundConstants : List F) (msg key : LinearCombination F) (result : Var)
    (addToResult : Option (LinearCombination F)) : Alloc (List (MimcRound F)) := do
  let roundResults ← allocateArray (numRounds - 1)
  let addToLast :=
    match addToResult with
    | some addToResult => key + addToResult
    | none => key
  return rounds key addToLast result msg roundResults.toList roundConstants

/-- The last result is that of all rounds, with the value to add. -/
theorem rounds_result {σ : Assignment F} {exponent : ℕ} {key addToLast : LinearCombination F}
    {result : Var} {msg : LinearCombination F} {roundResults : List Var} {roundConstants : List F}
    (hlen : roundResults.length < roundConstants.length)
    (h : ∀ g ∈ rounds key addToLast result msg roundResults roundConstants,
      g.Computes exponent σ) :
    σ result = Mimc.rounds exponent (key.eval σ) (roundConstants.take (roundResults.length + 1))
      (msg.eval σ) + addToLast.eval σ := by
  induction roundResults generalizing msg roundConstants with
  | nil =>
    obtain ⟨c, cs, rfl⟩ := exists_cons_of_ne_nil (ne_nil_of_length_pos hlen)
    have hlast : σ result = _ := h _ (mem_singleton.mpr rfl)
    simpa [MimcRound.t, MimcRound.added] using hlast
  | cons roundResult roundResults ih =>
    obtain ⟨c, cs, rfl⟩ :=
      exists_cons_of_ne_nil (ne_nil_of_length_pos ((Nat.zero_le _).trans_lt hlen))
    obtain ⟨hfirst, hrest⟩ := forall_mem_cons.mp h
    have hround : σ roundResult = (msg.eval σ + key.eval σ + c) ^ exponent := by
      have hfirst : σ roundResult = _ := hfirst
      simpa [MimcRound.t, MimcRound.added] using hfirst
    rw [ih (Nat.lt_of_succ_lt_succ hlen) hrest, eval_var, hround]
    rfl

end MimcPermutation

/-- The constructor of `MiMC_mp_gadget`. -/
def MimcMp.new (numRounds : ℕ) (roundConstants : List F) (x y : LinearCombination F) (result : Var) :
    Alloc (List (MimcRound F)) :=
  MimcPermutation.new numRounds roundConstants x y result (some (x + y))

/-- The round gadgets of a compression gadget, with fresh wires from `start` on. -/
theorem MimcMp.new_fst (numRounds : ℕ) (roundConstants : List F) (x y : LinearCombination F)
    (result : Var) (start : ℕ) :
    (MimcMp.new numRounds roundConstants x y result start).1 =
      MimcPermutation.rounds y (y + (x + y)) result x (List.range' start (numRounds - 1))
        roundConstants :=
  rfl

/-- **The compression gadget.** -/
theorem MimcMp.result_eq {σ : Assignment F} {exponent numRounds : ℕ} {roundConstants : List F}
    (hpos : 0 < numRounds) (hlen : numRounds ≤ roundConstants.length) {x y : LinearCombination F}
    {result : Var} {start : ℕ}
    (h : ∀ g ∈ (MimcMp.new numRounds roundConstants x y result start).1, g.Computes exponent σ) :
    σ result = Mimc.compress exponent (roundConstants.take numRounds) (x.eval σ) (y.eval σ) := by
  have hlength : (List.range' start (numRounds - 1)).length + 1 = numRounds := by
    rw [length_range']
    omega
  rw [MimcMp.new_fst] at h
  rw [MimcPermutation.rounds_result (by omega) h, hlength, Mimc.compress,
    eval_add, eval_add, add_assoc]

/-! ### The input hasher -/

namespace MimcInputHasher

/-- `get_iv`. -/
def getIv : F :=
  (13196537064117388418196223856311987714388543839552400408340921397545324034315 : ℕ)

/-- The compression functions from the first to the last, which takes the number of the inputs. -/
def compressions (numRounds : ℕ) (roundConstants : List F) (numInputs : ℕ) (result : Var) :
    LinearCombination F → List (LinearCombination F × Var) → Alloc (List (List (MimcRound F)))
  | current, [] => do
    return [← MimcMp.new numRounds roundConstants current (.const (numInputs : F)) result]
  | current, (input, intermediate) :: inputs => do
    let first ← MimcMp.new numRounds roundConstants current input intermediate
    let rest ← compressions numRounds roundConstants numInputs result (.var intermediate) inputs
    return first :: rest

/-- The constructor of `mimc_input_hasher`. -/
def new (numRounds : ℕ) (roundConstants : List F) (inputs : List (LinearCombination F))
    (result : Var) : Except String (Alloc (List (List (MimcRound F)))) :=
  if inputs.length < 2 then .error "inputs array must have at least 2 entries"
  else .ok do
    let intermediateValues ← allocateArray inputs.length
    compressions numRounds roundConstants inputs.length result (.const getIv)
      (inputs.zip intermediateValues.toList)

variable {σ : Assignment F} {exponent numRounds : ℕ} {roundConstants : List F}

theorem compressions_result (hpos : 0 < numRounds) (hlen : numRounds ≤ roundConstants.length)
    {numInputs : ℕ} {result : Var} {current : LinearCombination F}
    {inputs : List (LinearCombination F × Var)} {start : ℕ}
    (h : ∀ g ∈ (compressions numRounds roundConstants numInputs result current inputs
      start).1.flatten, g.Computes exponent σ) :
    σ result = Mimc.compress exponent (roundConstants.take numRounds)
      ((inputs.map fun p => p.1.eval σ).foldl
        (Mimc.compress exponent (roundConstants.take numRounds)) (current.eval σ)) numInputs := by
  induction inputs generalizing current start with
  | nil =>
    have hlast := MimcMp.result_eq hpos hlen (y := .const (numInputs : F)) fun g hg =>
      h g (mem_flatten.mpr ⟨_, mem_singleton.mpr rfl, hg⟩)
    rw [hlast, eval_const]
    rfl
  | cons input inputs ih =>
    obtain ⟨input, intermediate⟩ := input
    have hfirst := MimcMp.result_eq hpos hlen fun g hg =>
      h g (mem_flatten.mpr ⟨_, mem_cons_self, hg⟩)
    have hrest := ih fun g hg => h g (mem_append_right _ hg)
    rw [hrest, eval_var, hfirst]
    rfl

/-- **The input hasher.** The result is the hash of the list of the inputs. -/
theorem result_eq (hodd : exponent % 2 = 1) (hthree : 3 ≤ exponent)
    (hbits : MimcRound.ReadsBits exponent) (hpos : 0 < numRounds) (hlen : numRounds ≤ roundConstants.length) {inputs : List (LinearCombination F)} {result : Var}
    {hasher : Alloc (List (List (MimcRound F)))}
    (hnew : new numRounds roundConstants inputs result = .ok hasher) {start next : ℕ}
    (h : Satisfies σ (roundRows exponent (hasher start).1.flatten next)) :
    σ result = Mimc.chain (Mimc.compress exponent (roundConstants.take numRounds)) getIv
      (inputs.map (LinearCombination.eval σ)) := by
  rw [new] at hnew
  split_ifs at hnew
  cases hnew
  have hresult := compressions_result hpos hlen (computes_of_mem hodd hthree hbits h)
  have hzip (vs : List.Vector Var inputs.length) :
      (inputs.zip vs.toList).map (fun p => p.1.eval σ) =
        inputs.map (LinearCombination.eval σ) := by
    have hfst : (inputs.zip vs.toList).map Prod.fst = inputs :=
      map_fst_zip vs.toList_length.ge
    have hmap := congrArg (List.map (LinearCombination.eval σ)) hfst
    rwa [map_map] at hmap
  rw [hresult, hzip ⟨_, _⟩, eval_const, Mimc.chain, length_map]

end MimcInputHasher

end Zeth.Circuit
