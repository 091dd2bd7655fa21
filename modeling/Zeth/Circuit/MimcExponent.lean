import Mathlib.Algebra.Field.ZMod
import Mathlib.Data.Nat.Prime.Infinite
import Zeth.Circuit.MimcWitness

/-!
# The exponents of the MiMC round gadget

The class of the round gadget takes any odd exponent (`libzeth/circuits/mimc/mimc_round.hpp`). Its
constraints and its witness generator each run through the inner bits of the exponent, those between
the highest and the lowest. The first shifts the exponent by one bit in each pass; the second does
not, and takes the bit below the highest every time. So the two agree when the inner bits are equal,
which leaves the exponents `2 ^ s - 1` and `2 ^ s + 1`. The exponent 17 in use is of this form.

For an exponent of 32 bits the mask has the bits of an extended sign, and the constraints multiply in
every pass. For a longer one the mask is no constant expression and the class does not compile.

## Main definitions

* `MimcRound.generateR1csConstraints`, `MimcRound.generateR1csWitness`: with the bounds of the vector
  of intermediate powers.
* `MimcRound.WorksFor`: an exponent for which the gadget is sound and complete.

## Main results

* `MimcRound.worksFor_iff`.
-/

namespace Zeth.Circuit.MimcRound

open R1CS List

/-- The class compiles: its `static_assert` holds and `mask` does not shift an `int` by more than its
width. -/
def Instantiates (exponent : ℕ) : Prop := exponent % 2 = 1 ∧ exponent.size ≤ 32

instance (exponent : ℕ) : Decidable (Instantiates exponent) :=
  inferInstanceAs (Decidable (_ ∧ _))

section

variable {F : Type} [Field F]

/-- `generate_r1cs_constraints` with its assertion on the entries of `exponents`, where `start` is the
next free wire. There is no outcome when entries past the end are used. -/
def generateR1csConstraints (exponent : ℕ) (g : MimcRound F) (start : ℕ) :
    Option (List (Constraint F)) :=
  let loop := squareAndMultiply (mask exponent) g.t (start + ·) (exponent.size - 2)
    (exponent <<< 1) 1 start
  if Instantiates exponent ∧ loop.2.1 = numExponents exponent then
    some (g.constraints exponent start)
  else none

/-- `generate_r1cs_witness`, where `start` is the first wire of the intermediate powers. There is no
outcome when entries of `exponents` past the end are used. -/
def generateR1csWitness (exponent : ℕ) (g : MimcRound F) (start : ℕ) (σ : Assignment F) :
    Option (Assignment F) :=
  let t := g.t.eval σ
  let v := t * t
  let loop := witnessLoop (mask exponent) (exponent <<< 1) t (start + ·) (exponent.size - 2) 1 v
    (σ.set start v)
  if Instantiates exponent ∧ loop.1 ≤ numExponents exponent then some (g.witness exponent start σ)
  else none

/-- The result is a wire of its own, and it and all wires that are read were allocated before the
intermediate powers. -/
structure Wired (g : MimcRound F) (start : ℕ) : Prop where
  reads : ∀ v ∈ g.reads, v < start ∧ v ≠ g.result
  result_lt : g.result < start
  result_ne : g.result ≠ ONE

end

/-- For this exponent, every satisfying assignment of a round gadget has the power of the sum with the
addend as its result, and the assignment that is written satisfies the constraints, with the wires
read unchanged. -/
def WorksFor (exponent : ℕ) : Prop :=
  ∀ (F : Type) [Field F] (g : MimcRound F) (start : ℕ), ∃ rows,
    g.generateR1csConstraints exponent start = some rows ∧
    (∀ σ : Assignment F, Satisfies σ rows → g.Computes exponent σ) ∧
    (g.Wired start → ∀ σ : Assignment F, ∃ τ, g.generateR1csWitness exponent start σ = some τ ∧
      Satisfies τ rows ∧ ∀ v ∈ g.reads, τ v = σ v)

/-! ### Loops over equal bits -/

section Loops

variable {F : Type} [Field F] {mask exponent exp : ℕ}

/-- The number of wires that a loop over `n` equal bits takes. -/
theorem squareAndMultiply_expIdx {t : LinearCombination F} {exponents : ℕ → Var} {n k expIdx : ℕ}
    {last : Var} (b : Bool) (htests : ∀ j < n, (exponent <<< (k + j)) &&& mask ≠ 0 ↔ b = true) :
    (squareAndMultiply mask t exponents n (exponent <<< k) expIdx last).2.1 =
      expIdx + n * (b.toNat + 1) := by
  induction n generalizing k expIdx last with
  | zero => rw [Nat.zero_mul]; rfl
  | succ n ih =>
    have hrest : ∀ j < n, (exponent <<< (k + 1 + j)) &&& mask ≠ 0 ↔ b = true := by
      intro j hj
      rw [show k + 1 + j = k + (j + 1) by omega]
      exact htests (j + 1) (Nat.succ_lt_succ hj)
    have hshift : exponent <<< k <<< 1 = exponent <<< (k + 1) := (Nat.shiftLeft_add _ _ _).symm
    have htest : (exponent <<< k) &&& mask ≠ 0 ↔ b = true := htests 0 n.succ_pos
    rw [squareAndMultiply]
    cases b with
    | true =>
      rw [if_pos (htest.mpr rfl), hshift]
      exact (ih hrest).trans (by simp only [Bool.toNat_true]; omega)
    | false =>
      rw [if_neg fun h => Bool.false_ne_true (htest.mp h), hshift]
      exact (ih hrest).trans (by simp only [Bool.toNat_false]; omega)

theorem witnessLoop_varIdx {t v : F} {exponents : ℕ → Var} {n varIdx : ℕ} {σ : Assignment F}
    (b : Bool) (htest : 0 < n → (exp &&& mask ≠ 0 ↔ b = true)) :
    (witnessLoop mask exp t exponents n varIdx v σ).1 = varIdx + n * (b.toNat + 1) := by
  induction n generalizing varIdx v σ with
  | zero => rw [Nat.zero_mul]; rfl
  | succ n ih =>
    have htest := htest n.succ_pos
    rw [witnessLoop]
    cases b with
    | true =>
      rw [if_pos (htest.mpr rfl), ih fun _ => htest]
      simp only [Bool.toNat_true]
      omega
    | false =>
      rw [if_neg fun h => Bool.false_ne_true (htest.mp h), ih fun _ => htest]
      simp only [Bool.toNat_false]
      omega

/-- Without multiplications the loop squares. -/
theorem witnessLoop_value {t v : F} {exponents : ℕ → Var} {n varIdx : ℕ} {σ : Assignment F}
    (htest : ¬ exp &&& mask ≠ 0) :
    (witnessLoop mask exp t exponents n varIdx v σ).2.1 = v ^ 2 ^ n := by
  induction n generalizing varIdx v σ with
  | zero => exact (pow_one v).symm
  | succ n ih => rw [witnessLoop, if_neg htest, ih, ← sq, ← pow_mul, ← pow_succ']

/-- The loop writes wires from `start + varIdx` on. -/
theorem witnessLoop_of_lt {t v : F} {start n varIdx w : ℕ} {σ : Assignment F}
    (hw : w < start + varIdx) :
    (witnessLoop mask exp t (start + ·) n varIdx v σ).2.2 w = σ w := by
  induction n generalizing varIdx v σ with
  | zero => rfl
  | succ n ih =>
    have hne : w ≠ start + (varIdx + 1) := by omega
    rw [witnessLoop]
    split_ifs
    · rw [ih (by omega), Assignment.set_of_ne _ _ hne, Assignment.set_of_ne _ _ hw.ne]
    · rw [ih (by omega), Assignment.set_of_ne _ _ hw.ne]

/-- The values that the loop of the witness generator writes satisfy the rows of the loop of the
constraints when both see the same bits, whatever is written to `result` later. -/
theorem satisfies_witnessLoop {t : LinearCombination F} {start result : ℕ} (hresult : result < start)
    (hreads : ∀ w ∈ t.vars, w < start ∧ w ≠ result) {n k varIdx : ℕ} {v : F} {last : ℕ}
    {σ τ : Assignment F}
    (htests : ∀ j < n, (exponent <<< (k + j)) &&& mask ≠ 0 ↔ exp &&& mask ≠ 0)
    (hlast : start ≤ last ∧ last < start + varIdx) (hv : σ last = v)
    (hτ : ∀ w, w ≠ result →
      τ w = (witnessLoop mask exp (t.eval σ) (start + ·) n varIdx v σ).2.2 w) :
    Satisfies τ (squareAndMultiply mask t (start + ·) n (exponent <<< k) varIdx last).1 ∧
      τ (squareAndMultiply mask t (start + ·) n (exponent <<< k) varIdx last).2.2 =
        (witnessLoop mask exp (t.eval σ) (start + ·) n varIdx v σ).2.1 := by
  induction n generalizing k varIdx v last σ with
  | zero => exact ⟨satisfies_nil, (hτ last (by omega)).trans hv⟩
  | succ n ih =>
    have hrest : ∀ j < n, (exponent <<< (k + 1 + j)) &&& mask ≠ 0 ↔ exp &&& mask ≠ 0 := by
      intro j hj
      rw [show k + 1 + j = k + (j + 1) by omega]
      exact htests (j + 1) (Nat.succ_lt_succ hj)
    have hshift : exponent <<< k <<< 1 = exponent <<< (k + 1) := (Nat.shiftLeft_add _ _ _).symm
    have htest : (exponent <<< k) &&& mask ≠ 0 ↔ exp &&& mask ≠ 0 := htests 0 n.succ_pos
    have hone (w : ℕ) (hw : start ≤ w) : w ≠ ONE := ((Nat.zero_le _).trans_lt hresult).trans_le hw |>.ne'
    -- the wires read and the last power are not written any more
    have hlater (w : ℕ) (hw : w < start + varIdx) (hne : w ≠ result) : τ w = σ w :=
      (hτ w hne).trans (witnessLoop_of_lt hw)
    have hteval : t.eval τ = t.eval σ :=
      t.eval_congr fun w hw => hlater w ((hreads w hw).1.trans_le (Nat.le_add_right _ _))
        (hreads w hw).2
    have hread {σ' : Assignment F} (hσ' : ∀ w < start, σ' w = σ w) : t.eval σ' = t.eval σ :=
      t.eval_congr fun w hw => hσ' w (hreads w hw).1
    have hbelow (w : ℕ) (hw : w < start) (k : ℕ) : w ≠ start + k := by omega
    rw [witnessLoop] at hτ ⊢
    rw [squareAndMultiply]
    by_cases hset : exp &&& mask ≠ 0
    · rw [if_pos hset] at hτ ⊢
      rw [if_pos (htest.mpr hset), hshift]
      set x := v * t.eval σ with hx
      set σ' := (σ.set (start + varIdx) x).set (start + (varIdx + 1)) (x * x) with hσ'
      have hdistinct : start + varIdx ≠ start + (varIdx + 1) := by omega
      have hmultiplied : σ' (start + varIdx) = x := by
        rw [hσ', Assignment.set_of_ne _ _ hdistinct]
        exact Assignment.set_self _ _ (hone _ (by omega))
      have hsquared : σ' (start + (varIdx + 1)) = x * x :=
        Assignment.set_self _ _ (hone _ (by omega))
      have hT : t.eval σ' = t.eval σ := hread fun w hw =>
        (Assignment.set_of_ne _ _ (hbelow w hw _)).trans (Assignment.set_of_ne _ _ (hbelow w hw _))
      rw [← hT] at hτ ⊢
      obtain ⟨hrows, hvalue⟩ := ih hrest ⟨by omega, by omega⟩ hsquared hτ
      refine ⟨?_, hvalue⟩
      have hkept (w : ℕ) (hlow : start ≤ w) (hw : w < start + (varIdx + 2)) : τ w = σ' w :=
        (hτ w (by omega)).trans (witnessLoop_of_lt hw)
      rw [satisfies_cons, satisfies_cons, Constraint.Holds, Constraint.Holds]
      simp only [LinearCombination.eval_var]
      refine ⟨?_, ?_, hrows⟩
      · rw [hteval, hlater last hlast.2 (by omega), hv, hkept _ (by omega) (by omega), hmultiplied,
          hx, mul_comm]
      · rw [hkept _ (by omega) (by omega), hkept _ (by omega) (by omega), hmultiplied, hsquared]
    · rw [if_neg hset] at hτ ⊢
      rw [if_neg (mt htest.mp hset), hshift]
      set σ' := σ.set (start + varIdx) (v * v) with hσ'
      have hsquared : σ' (start + varIdx) = v * v := Assignment.set_self _ _ (hone _ (by omega))
      have hT : t.eval σ' = t.eval σ := hread fun w hw => Assignment.set_of_ne _ _ (hbelow w hw _)
      rw [← hT] at hτ ⊢
      obtain ⟨hrows, hvalue⟩ := ih hrest ⟨by omega, by omega⟩ hsquared hτ
      refine ⟨?_, hvalue⟩
      rw [satisfies_cons, Constraint.Holds]
      simp only [LinearCombination.eval_var]
      refine ⟨?_, hrows⟩
      rw [hlater last hlast.2 (by omega), hv, hτ _ (by omega), witnessLoop_of_lt (by omega),
        hsquared]

end Loops

/-! ### Exponents with equal inner bits -/

/-- Both loops see the given bit in every pass. -/
def InnerBits (exponent : ℕ) (b : Bool) : Prop :=
  ∀ j < exponent.size - 2, (exponent <<< (1 + j)) &&& mask exponent ≠ 0 ↔ b = true

section Witness

variable {F : Type} [Field F] {g : MimcRound F} {exponent start : ℕ} {σ : Assignment F} {b : Bool}

theorem witness_of_lt {w : ℕ} (hw : w < start) (hne : w ≠ g.result) :
    g.witness exponent start σ w = σ w :=
  calc g.witness exponent start σ w
    _ = (witnessLoop (mask exponent) (exponent <<< 1) (g.t.eval σ) (start + ·) (exponent.size - 2) 1
          (g.t.eval σ * g.t.eval σ) (σ.set start (g.t.eval σ * g.t.eval σ))).2.2 w :=
      Assignment.set_of_ne _ _ hne
    _ = σ.set start (g.t.eval σ * g.t.eval σ) w := witnessLoop_of_lt (Nat.lt_succ_of_lt hw)
    _ = σ w := Assignment.set_of_ne _ _ hw.ne

/-- The rows hold of the assignment that is written. -/
theorem satisfies_witness_of_innerBits (hb : InnerBits exponent b) (hwired : g.Wired start) :
    Satisfies (g.witness exponent start σ) (g.constraints exponent start) := by
  have hresult := hwired.result_lt
  have htreads : ∀ w ∈ g.t.vars, w < start ∧ w ≠ g.result := fun w hw =>
    hwired.reads w (mem_append_left _ hw)
  have htests : ∀ j < exponent.size - 2, (exponent <<< (1 + j)) &&& mask exponent ≠ 0 ↔
      (exponent <<< 1) &&& mask exponent ≠ 0 := fun j hj =>
    (hb j hj).trans (hb 0 ((Nat.zero_le j).trans_lt hj)).symm
  set σ₁ := σ.set start (g.t.eval σ * g.t.eval σ) with hσ₁
  have hstart : σ₁ start = g.t.eval σ * g.t.eval σ :=
    Assignment.set_self _ _ ((Nat.zero_le _).trans_lt hresult).ne'
  have ht₁ : g.t.eval σ₁ = g.t.eval σ := g.t.eval_congr fun w hw =>
    Assignment.set_of_ne _ _ (htreads w hw).1.ne
  set loop := witnessLoop (mask exponent) (exponent <<< 1) (g.t.eval σ₁) (start + ·)
    (exponent.size - 2) 1 (g.t.eval σ * g.t.eval σ) σ₁ with hloop
  have hwitness : g.witness exponent start σ =
      loop.2.2.set g.result (loop.2.1 * g.t.eval σ + g.added loop.2.2) := by
    rw [hloop, ht₁]
    rfl
  have hτ : ∀ w, w ≠ g.result → g.witness exponent start σ w = loop.2.2 w := fun w hw =>
    hwitness ▸ Assignment.set_of_ne _ _ hw
  obtain ⟨hrows, hlast⟩ := satisfies_witnessLoop hresult htreads htests ⟨le_rfl, Nat.lt_succ_self _⟩
    hstart hτ
  have ht : g.t.eval (g.witness exponent start σ) = g.t.eval σ := g.t.eval_congr fun w hw =>
    witness_of_lt (htreads w hw).1 (htreads w hw).2
  have hadded : g.added (g.witness exponent start σ) = g.added loop.2.2 :=
    added_congr fun w hw => hτ w (hwired.reads w hw).2
  rw [constraints, cons_append, satisfies_cons, satisfies_append, satisfies_cons]
  refine ⟨?_, hrows, ?_, satisfies_nil⟩
  · rw [Constraint.Holds, LinearCombination.eval_var, ht, hτ start hresult.ne', hloop,
      witnessLoop_of_lt (Nat.lt_succ_self _), hstart]
  · rw [Constraint.Holds, LinearCombination.eval_var, hlast, ht, eval_product, hadded, hwitness,
      Assignment.set_self _ _ hwired.result_ne, add_sub_cancel_right]

end Witness

/-- The gadget works for an exponent with equal inner bits for which there are as many wires as the
loops use. -/
theorem worksFor_of_innerBits {exponent : ℕ} {b : Bool} (hodd : exponent % 2 = 1)
    (hthree : 3 ≤ exponent) (hsize : exponent.size ≤ 32) (hbits : ReadsBits exponent)
    (hb : InnerBits exponent b)
    (hnum : 1 + (exponent.size - 2) * (b.toNat + 1) = numExponents exponent) :
    WorksFor exponent := by
  intro F _ g start
  refine ⟨g.constraints exponent start, ?_, fun σ h => computes_of_satisfies hodd hthree hbits h,
    fun hwired σ => ⟨g.witness exponent start σ, ?_, satisfies_witness_of_innerBits hb hwired,
      fun w hw => witness_of_lt (hwired.reads w hw).1 (hwired.reads w hw).2⟩⟩
  · exact if_pos ⟨⟨hodd, hsize⟩, (squareAndMultiply_expIdx b hb).trans hnum⟩
  · exact if_pos ⟨⟨hodd, hsize⟩, ((witnessLoop_varIdx b fun h => hb 0 h).trans hnum).le⟩

/-! ### Sizes and bits -/

theorem count_bits_le_size (n : ℕ) : n.bits.count true ≤ n.size :=
  count_le_length.trans (Nat.size_eq_bits_len n).le

/-- A number with all bits set. -/
theorem add_one_eq_two_pow_of_count {n : ℕ} (h : n.bits.count true = n.size) :
    n + 1 = 2 ^ n.size := by
  induction n using Nat.binaryRec' with
  | zero => rfl
  | bit b n hn ih =>
    rw [Nat.bits_append_bit n b hn, ← Nat.size_eq_bits_len, Nat.bits_append_bit n b hn,
      length_cons, Nat.size_eq_bits_len] at h
    have hle := count_bits_le_size n
    cases b with
    | false =>
      rw [count_cons_of_ne (by decide)] at h
      omega
    | true =>
      rw [count_cons_self] at h
      have hsize : (Nat.bit true n).size = n.size + 1 := by
        rw [← Nat.size_eq_bits_len, Nat.bits_append_bit n true hn, length_cons,
          Nat.size_eq_bits_len]
      rw [hsize, pow_succ, ← ih (by omega), Nat.bit_true]
      ring

theorem size_two_pow_sub_one {s : ℕ} : (2 ^ s - 1).size = s := by
  refine le_antisymm (Nat.size_le.mpr (Nat.sub_lt (Nat.two_pow_pos s) one_pos)) ?_
  obtain _ | s := s
  · exact Nat.zero_le _
  · refine Nat.lt_size.mpr ?_
    have := Nat.one_le_two_pow (n := s)
    rw [pow_succ]
    omega

theorem count_bits_two_pow_sub_one (s : ℕ) : (2 ^ s - 1).bits.count true = s := by
  induction s with
  | zero => rfl
  | succ s ih =>
    have hdouble : 2 ^ (s + 1) - 1 = 2 * (2 ^ s - 1) + 1 := by
      have := Nat.one_le_two_pow (n := s)
      rw [pow_succ]
      omega
    rw [hdouble, Nat.bit1_bits, count_cons_self, ih]

theorem count_bits_two_pow (s : ℕ) : (2 ^ s).bits.count true = 1 := by
  induction s with
  | zero => decide
  | succ s ih =>
    rw [pow_succ', Nat.bit0_bits _ (Nat.two_pow_pos s).ne', count_cons_of_ne (by decide), ih]

/-- With the extended sign in the mask, every pass sees a bit. -/
theorem innerBits_of_size_eq {exponent : ℕ} (hsize : exponent.size = 32) :
    InnerBits exponent true := by
  intro j hj
  refine iff_of_true (fun hzero => ?_) rfl
  have hmask : (mask exponent).testBit (32 + j) = true := by
    have hones : 2 ^ 64 - 2 ^ 31 = (2 ^ 33 - 1) <<< 31 := by decide
    rw [mask, if_pos hsize, hones, Nat.testBit_shiftLeft, Nat.testBit_two_pow_sub_one]
    have hle : 31 ≤ 32 + j := by omega
    have hlt : 32 + j - 31 < 33 := by omega
    rw [decide_eq_true hle, decide_eq_true hlt, Bool.and_true]
  have htop : exponent.testBit 31 = true := by
    have hdiv := div_two_pow_size_sub_one (Nat.size_pos.mp (hsize ▸ by decide : 0 < exponent.size))
    rw [hsize] at hdiv
    rw [Nat.testBit_eq_decide_div_mod_eq, hdiv]
    rfl
  have hshift : (exponent <<< (1 + j)).testBit (32 + j) = true := by
    have hle : 1 + j ≤ 32 + j := by omega
    rw [Nat.testBit_shiftLeft, decide_eq_true hle, show 32 + j - (1 + j) = 31 by omega, htop,
      Bool.and_true]
  have hand := Nat.testBit_and (exponent <<< (1 + j)) (mask exponent) (32 + j)
  rw [hzero, Nat.zero_testBit, hmask, hshift] at hand
  exact Bool.false_ne_true hand

theorem worksFor_two_pow_sub_one {s : ℕ} (htwo : 2 ≤ s) (hle : s ≤ 32) : WorksFor (2 ^ s - 1) := by
  have hfour : 2 ^ 2 ≤ 2 ^ s := Nat.pow_le_pow_right two_pos htwo
  have hodd : (2 ^ s - 1) % 2 = 1 := by
    have heven : 2 ^ s = 2 * 2 ^ (s - 1) := by rw [← pow_succ', Nat.sub_add_cancel (by omega)]
    omega
  have hset (m : ℕ) (hm : m < s) : (2 ^ s - 1) / 2 ^ m % 2 = 1 := by
    have hbit := Nat.testBit_two_pow_sub_one s m
    rw [Nat.testBit_eq_decide_div_mod_eq, decide_eq_true hm] at hbit
    exact of_decide_eq_true hbit
  have hinner : InnerBits (2 ^ s - 1) true := by
    by_cases hsize : (2 ^ s - 1).size = 32
    · exact innerBits_of_size_eq hsize
    · intro j hj
      rw [size_two_pow_sub_one] at hj
      rw [readsBits_of_size_ne hsize j (by rwa [size_two_pow_sub_one]), size_two_pow_sub_one]
      exact iff_of_true (hset _ (by omega)) rfl
  have hbits : ReadsBits (2 ^ s - 1) := by
    intro j hj
    refine iff_of_true ((hinner j hj).mpr rfl) ?_
    rw [size_two_pow_sub_one] at hj ⊢
    exact hset _ (by omega)
  refine worksFor_of_innerBits hodd (by omega) (size_two_pow_sub_one.trans_le hle) hbits hinner ?_
  rw [numExponents, count_bits_two_pow_sub_one, size_two_pow_sub_one, Bool.toNat_true]
  omega

theorem size_two_pow_add_one {s : ℕ} (hpos : 1 ≤ s) : (2 ^ s + 1).size = s + 1 := by
  have htwo : 2 ^ 1 ≤ 2 ^ s := Nat.pow_le_pow_right two_pos hpos
  refine le_antisymm (Nat.size_le.mpr ?_) (Nat.lt_size.mpr (Nat.le_succ _))
  rw [pow_succ]
  omega

theorem worksFor_two_pow_add_one {s : ℕ} (hpos : 1 ≤ s) (hle : s ≤ 30) : WorksFor (2 ^ s + 1) := by
  have hsize := size_two_pow_add_one hpos
  have htwo : 2 ^ 1 ≤ 2 ^ s := Nat.pow_le_pow_right two_pos hpos
  have heven : 2 ^ s = 2 * 2 ^ (s - 1) := by
    rw [← pow_succ', Nat.sub_add_cancel hpos]
  have hbits : ReadsBits (2 ^ s + 1) := readsBits_of_size_ne (by omega)
  have hinner : InnerBits (2 ^ s + 1) false := by
    intro j hj
    rw [hbits j hj, hsize]
    rw [hsize] at hj
    refine iff_of_false ?_ Bool.false_ne_true
    have hsplit : 2 ^ s = 2 ^ (s + 1 - 2 - j) * (2 * 2 ^ j) := by
      rw [← pow_succ', ← pow_add]
      congr 1
      omega
    have hsmall : 1 / 2 ^ (s + 1 - 2 - j) = 0 :=
      Nat.div_eq_of_lt (Nat.one_lt_two_pow (by omega))
    rw [hsplit, Nat.mul_add_div (Nat.two_pow_pos _), hsmall]
    omega
  refine worksFor_of_innerBits (by omega) (by omega) (by omega) hbits hinner ?_
  rw [numExponents, hsize, heven, Nat.bit1_bits, count_cons_self, count_bits_two_pow,
    Bool.toNat_false]
  omega

/-! ### Other exponents -/

section Probe

variable (F : Type) [Field F]

/-- The round gadget that raises the value of the first wire to a power. -/
def probe : MimcRound F := ⟨.var 1, 0, 0, 2, none⟩

theorem probe_wired : (probe F).Wired 3 where
  reads := by
    intro v hv
    have hv : v ∈ [1, ONE] := hv
    have hwires : ∀ v ∈ [1, ONE], v < 3 ∧ v ≠ 2 := by decide
    exact hwires v hv
  result_lt := Nat.lt_succ_self 2
  result_ne := Nat.succ_ne_zero 1

variable {F}

theorem probe_eval (σ : Assignment F) : (probe F).t.eval σ = σ 1 := by simp [probe, t]

/-- What is written as the result when the bit below the highest is zero. -/
theorem witness_probe {exponent : ℕ} (hsize : 2 ≤ exponent.size)
    (htest : ¬ (exponent <<< 1) &&& mask exponent ≠ 0) (σ : Assignment F) :
    (probe F).witness exponent 3 σ 2 = σ 1 ^ (2 ^ (exponent.size - 1) + 1) := by
  have hresult : (probe F).witness exponent 3 σ 2 = _ + 0 :=
    Assignment.set_self _ _ (Nat.succ_ne_zero 1)
  rw [hresult, add_zero, witnessLoop_value htest, probe_eval, ← sq, ← pow_mul, ← pow_succ',
    show exponent.size - 2 + 1 = exponent.size - 1 by omega, pow_succ]

end Probe

/-- Small powers of two are distinct in a large prime field. -/
theorem two_pow_injOn {p m a b : ℕ} (hp : 2 ^ m < p) (ha : a ≤ m) (hb : b ≤ m)
    (h : (2 : ZMod p) ^ a = 2 ^ b) : a = b := by
  have hlt {c : ℕ} (hc : c ≤ m) : 2 ^ c < p := (Nat.pow_le_pow_right two_pos hc).trans_lt hp
  have hcast : ((2 ^ a : ℕ) : ZMod p) = ((2 ^ b : ℕ) : ZMod p) := by
    push_cast
    exact h
  rw [ZMod.natCast_eq_natCast_iff', Nat.mod_eq_of_lt (hlt ha), Nat.mod_eq_of_lt (hlt hb)] at hcast
  exact Nat.pow_right_injective le_rfl hcast

/-- An exponent for which the gadget works has equal inner bits. -/
theorem eq_of_worksFor {exponent : ℕ} (hodd : exponent % 2 = 1) (hthree : 3 ≤ exponent)
    (h : WorksFor exponent) :
    (∃ s, 2 ≤ s ∧ s ≤ 32 ∧ exponent = 2 ^ s - 1) ∨ ∃ s, 1 ≤ s ∧ s ≤ 30 ∧ exponent = 2 ^ s + 1 := by
  have hsize : 2 ≤ exponent.size := Nat.lt_size.mpr (by omega)
  have hle : 2 ^ (exponent.size - 1) ≤ exponent := Nat.lt_size.mp (by omega)
  have hcount := count_bits_le_size exponent
  have hones (hall : exponent.size ≤ exponent.bits.count true) (h32 : exponent.size ≤ 32) :
      ∃ s, 2 ≤ s ∧ s ≤ 32 ∧ exponent = 2 ^ s - 1 := by
    have hpow := add_one_eq_two_pow_of_count (hcount.antisymm hall)
    exact ⟨exponent.size, hsize, h32, by omega⟩
  obtain ⟨p, hp, hprime⟩ := Nat.exists_infinite_primes (2 ^ (exponent + 1) + 1)
  have : Fact p.Prime := ⟨hprime⟩
  obtain ⟨rows, hrows, hsound, hcomplete⟩ := h (ZMod p) (probe _) 3
  obtain ⟨⟨⟨-, h32⟩, hexpIdx⟩, -⟩ := Option.ite_none_right_eq_some.mp hrows
  by_cases hsign : exponent.size = 32
  · -- the constraints multiply in every pass
    rw [squareAndMultiply_expIdx true (innerBits_of_size_eq hsign), numExponents, hsign,
      Bool.toNat_true] at hexpIdx
    exact .inl (hones (by omega) h32)
  obtain ⟨τ, hτ, hsat, hkept⟩ := hcomplete (probe_wired _) (Assignment.blank.set 1 2)
  obtain ⟨⟨-, hvarIdx⟩, hwitness⟩ := Option.ite_none_right_eq_some.mp hτ
  by_cases htest : (exponent <<< 1) &&& mask exponent ≠ 0
  · -- the witness generator multiplies in every pass
    rw [witnessLoop_varIdx true fun _ => iff_of_true htest rfl, numExponents,
      Bool.toNat_true] at hvarIdx
    exact .inl (hones (by omega) h32)
  · -- the witness generator never multiplies
    have hpower : τ 2 = (probe _).t.eval τ ^ exponent + 0 := hsound τ hsat
    have hone : τ 1 = 2 := hkept 1 mem_cons_self
    rw [probe_eval, hone, add_zero, ← Option.some.inj hwitness, witness_probe hsize htest] at hpower
    have heq := two_pow_injOn (m := exponent + 1) (by omega) (by omega) (by omega) hpower
    exact .inr ⟨exponent.size - 1, by omega, by omega, heq.symm⟩

/-- **Where the round gadget works.** The odd exponents from three on for which the gadget is sound and
complete are those of at most 32 bits of which all inner bits are one, and those of at most 31 bits of
which all inner bits are zero. -/
theorem worksFor_iff {exponent : ℕ} (hodd : exponent % 2 = 1) (hthree : 3 ≤ exponent) :
    WorksFor exponent ↔
      (∃ s, 2 ≤ s ∧ s ≤ 32 ∧ exponent = 2 ^ s - 1) ∨
        ∃ s, 1 ≤ s ∧ s ≤ 30 ∧ exponent = 2 ^ s + 1 := by
  refine ⟨eq_of_worksFor hodd hthree, ?_⟩
  rintro (⟨s, htwo, hle, rfl⟩ | ⟨s, hpos, hle, rfl⟩)
  · exact worksFor_two_pow_sub_one htwo hle
  · exact worksFor_two_pow_add_one hpos hle

theorem worksFor_seventeen : WorksFor 17 :=
  (worksFor_iff (by decide) (by decide)).mpr (.inr ⟨4, by decide, by decide, by decide⟩)

instance : Fact (Nat.Prime 5) := ⟨Nat.prime_five⟩

/-- For the exponent 11 the witness generator writes the ninth power, and for the exponent 13 it
writes past the end of its vector. -/
theorem not_worksFor_eleven_and_thirteen :
    (probe (ZMod 5)).witness 11 3 (Assignment.blank.set 1 2) 2 = 2 ^ 9 ∧
    (2 : ZMod 5) ^ 9 ≠ 2 ^ 11 ∧
    ¬ Satisfies ((probe (ZMod 5)).witness 11 3 (Assignment.blank.set 1 2))
      ((probe (ZMod 5)).constraints 11 3) ∧
    ¬ WorksFor 11 ∧
    (probe (ZMod 5)).generateR1csWitness 13 3 (Assignment.blank.set 1 2) = none ∧
    ¬ WorksFor 13 := by
  have hninth : (probe (ZMod 5)).witness 11 3 (Assignment.blank.set 1 2) 2 = 2 ^ 9 :=
    witness_probe (by decide) (by decide) _
  have hne : (2 : ZMod 5) ^ 9 ≠ 2 ^ 11 := by decide
  have hsizes : ∀ s < 33, 2 ^ s - 1 ≠ 11 ∧ 2 ^ s - 1 ≠ 13 ∧ 2 ^ s + 1 ≠ 11 ∧ 2 ^ s + 1 ≠ 13 := by
    decide
  have hnot (n : ℕ) (hn : n = 11 ∨ n = 13) : ¬ ((∃ s, 2 ≤ s ∧ s ≤ 32 ∧ n = 2 ^ s - 1) ∨
      ∃ s, 1 ≤ s ∧ s ≤ 30 ∧ n = 2 ^ s + 1) := by
    rintro (⟨s, -, hle, rfl⟩ | ⟨s, -, hle, rfl⟩)
    all_goals
      have := hsizes s (by omega)
      omega
  refine ⟨hninth, hne, fun hsat => ?_, fun h => ?_, ?_, fun h => ?_⟩
  · have hcomputes : (probe (ZMod 5)).witness 11 3 (Assignment.blank.set 1 2) 2 =
        (probe (ZMod 5)).t.eval _ ^ 11 + 0 :=
      computes_of_satisfies (by decide) (by decide) (readsBits_of_size_ne (by decide)) hsat
    rw [probe_eval, add_zero, witness_of_lt (w := 1) (by decide) (by decide)] at hcomputes
    exact hne (hninth.symm.trans hcomputes)
  · exact hnot 11 (.inl rfl) (eq_of_worksFor (by decide) (by decide) h)
  · rw [generateR1csWitness]
    refine if_neg fun hcond => ?_
    rw [witnessLoop_varIdx true fun _ => by decide] at hcond
    exact absurd hcond.2 (by decide)
  · exact hnot 13 (.inr rfl) (eq_of_worksFor (by decide) (by decide) h)

end Zeth.Circuit.MimcRound
