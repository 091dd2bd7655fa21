import Zeth.Circuit.Mimc

/-!
# The witness generator of the MiMC gadgets

The round gadget writes its intermediate powers and its result (`generate_r1cs_witness` of
`libzeth/circuits/mimc/mimc_round.tcc`), and the gadgets made of rounds run their rounds in order.
For the exponent 17 of all instances, the assignments so made satisfy the rows, provided that no
gadget reads a wire that it or a later one writes, which holds of the gadgets as they are
constructed.

The generator does not shift `exp` between the bits, unlike `generate_r1cs_constraints`. The inner
bits of 17 are all zero, so it makes no difference there.

## Main definitions

* `MimcRound.witness`, `roundsWitness`.
* `Orderly`: round gadgets that do not read what is written later.

## Main results

* `satisfies_roundsWitness`, `MimcMp.orderly_new`.
-/

namespace Zeth.Circuit

open R1CS List

variable {F : Type} [Field F]

namespace MimcRound

/-- The loop of `generate_r1cs_witness`: `var_idx` and `v` after it, and the values written. -/
def witnessLoop (mask exp : ℕ) (t : F) (exponents : ℕ → Var) :
    ℕ → ℕ → F → Assignment F → ℕ × F × Assignment F
  | 0, varIdx, v, σ => (varIdx, v, σ)
  | n + 1, varIdx, v, σ =>
    if exp &&& mask ≠ 0 then
      let v := v * t
      let σ := σ.set (exponents varIdx) v
      witnessLoop mask exp t exponents n (varIdx + 2) (v * v)
        (σ.set (exponents (varIdx + 1)) (v * v))
    else
      witnessLoop mask exp t exponents n (varIdx + 1) (v * v) (σ.set (exponents varIdx) (v * v))

/-- `generate_r1cs_witness`, where `start` is the first wire of the intermediate powers. -/
def witness (exponent : ℕ) (g : MimcRound F) (start : ℕ) (σ : Assignment F) : Assignment F :=
  let t := g.t.eval σ
  let v := t * t
  let loop := witnessLoop (mask exponent) (exponent <<< 1) t (start + ·) (exponent.size - 2) 1 v
    (σ.set start v)
  loop.2.2.set g.result (loop.2.1 * t + g.added loop.2.2)

/-- The wires that a round gadget reads. -/
def reads (g : MimcRound F) : List Var := g.t.vars ++ g.addToResult.elim [] LinearCombination.vars

variable {g : MimcRound F} {start : ℕ} {σ τ : Assignment F}

theorem eval_t_congr (h : ∀ v ∈ g.reads, σ v = τ v) : g.t.eval σ = g.t.eval τ :=
  g.t.eval_congr fun v hv => h v (mem_append_left _ hv)

theorem added_congr (h : ∀ v ∈ g.reads, σ v = τ v) : g.added σ = g.added τ := by
  rw [reads] at h
  rw [added, added]
  cases hadd : g.addToResult with
  | none => rfl
  | some addToResult =>
    rw [hadd] at h
    exact addToResult.eval_congr fun v hv => h v (mem_append_right _ hv)

/-! ### Exponent 17 -/

theorem size_seventeen : Nat.size 17 = 5 := by decide

theorem mask_seventeen : mask 17 = 16 := by decide

theorem numExponents_seventeen : numExponents 17 = 4 := by decide

/-- What the rows say for the exponent 17. -/
theorem satisfies_constraints_seventeen :
    Satisfies σ (g.constraints 17 start) ↔
      σ start = g.t.eval σ * g.t.eval σ ∧ σ (start + 1) = σ start * σ start ∧
      σ (start + 2) = σ (start + 1) * σ (start + 1) ∧
      σ (start + 3) = σ (start + 2) * σ (start + 2) ∧
      σ g.result = σ (start + 3) * g.t.eval σ + g.added σ := by
  have hproduct : σ (start + 3) * g.t.eval σ = σ g.result - g.added σ ↔
      σ g.result = σ (start + 3) * g.t.eval σ + g.added σ := by
    rw [eq_sub_iff_add_eq, eq_comm]
  rw [← hproduct]
  simp [constraints, squareAndMultiply, size_seventeen, mask_seventeen, Constraint.Holds,
    eval_product, eq_comm]

/-- The intermediate powers for the exponent 17. -/
def powers (t : F) : List F := [t ^ 2, t ^ 4, t ^ 8, t ^ 16]

/-- The assignment made for the exponent 17: first the powers, then the result. -/
theorem witness_seventeen :
    g.witness 17 start σ =
      (σ.fill (List.range' start 4) (powers (g.t.eval σ))).set g.result (g.t.eval σ ^ 17 +
        g.added (σ.fill (List.range' start 4) (powers (g.t.eval σ)))) := by
  have h2 : g.t.eval σ * g.t.eval σ = g.t.eval σ ^ 2 := by ring
  have h4 : g.t.eval σ ^ 2 * g.t.eval σ ^ 2 = g.t.eval σ ^ 4 := by ring
  have h8 : g.t.eval σ ^ 4 * g.t.eval σ ^ 4 = g.t.eval σ ^ 8 := by ring
  have h16 : g.t.eval σ ^ 8 * g.t.eval σ ^ 8 = g.t.eval σ ^ 16 := by ring
  have h17 : g.t.eval σ ^ 16 * g.t.eval σ = g.t.eval σ ^ 17 := by ring
  simp [witness, witnessLoop, size_seventeen, mask_seventeen, Assignment.fill, List.range', powers,
    h2, h4, h8, h16, h17]

/-- Only the result and the wires of the intermediate powers are written. -/
theorem witness_of_ne {v : ℕ} (hresult : v ≠ g.result) (hv : v < start ∨ start + 4 ≤ v) :
    g.witness 17 start σ v = σ v := by
  rw [witness_seventeen]
  refine (Assignment.set_of_ne _ _ hresult).trans (σ.fill_of_notMem _ _ fun hmem => ?_)
  have hmem := mem_range'_1.mp hmem
  omega

/-- The rows hold of the assignment when the gadget does not read what it writes. -/
theorem satisfies_witness (hreads : ∀ v ∈ g.reads, v < start ∧ v ≠ g.result)
    (hresult : g.result < start) (hone : g.result ≠ ONE) :
    Satisfies (g.witness 17 start σ) (g.constraints 17 start) := by
  have hread : ∀ v ∈ g.reads, g.witness 17 start σ v = σ v := fun v hv =>
    witness_of_ne (hreads v hv).2 (.inl (hreads v hv).1)
  have ht := eval_t_congr hread
  set τ := σ.fill (List.range' start 4) (powers (g.t.eval σ)) with hτ
  have hsame {v : ℕ} (hv : v ≠ g.result) : g.witness 17 start σ v = τ v := by
    rw [witness_seventeen]
    exact Assignment.set_of_ne _ _ hv
  have hadded : g.added (g.witness 17 start σ) = g.added τ :=
    added_congr fun v hv => hsame (hreads v hv).2
  have hresult' : g.witness 17 start σ g.result = g.t.eval σ ^ 17 + g.added τ := by
    rw [witness_seventeen]
    exact Assignment.set_self _ _ hone
  have hstart : ONE ∉ List.range' start 4 := fun hmem =>
    (Nat.zero_le _).not_gt (hresult.trans_le (mem_range'_1.mp hmem).1)
  have hpowers := σ.map_fill (List.range' start 4) (powers (g.t.eval σ)) nodup_range' hstart rfl
  rw [← hτ] at hpowers
  simp only [powers, List.range', map_cons, map_nil, List.cons.injEq, and_true] at hpowers
  obtain ⟨h0, h1, h2, h3⟩ := hpowers
  have hpast (k : ℕ) : start + k ≠ g.result := (hresult.trans_le (Nat.le_add_right start k)).ne'
  rw [satisfies_constraints_seventeen, ht, hadded, hresult', hsame hresult.ne', hsame (hpast 1),
    hsame (hpast 2), hsame (hpast 3), h0, h1, h2, h3]
  refine ⟨?_, ?_, ?_, ?_, ?_⟩ <;> ring

end MimcRound

/-! ### Rounds one after the other -/

/-- `generate_r1cs_witness` of round gadgets one after the other, where `next` is the first wire of
their intermediate powers. -/
def roundsWitness (exponent : ℕ) : List (MimcRound F) → ℕ → Assignment F → Assignment F
  | [], _, σ => σ
  | g :: gs, next, σ =>
    roundsWitness exponent gs (next + MimcRound.numExponents exponent) (g.witness exponent next σ)

/-- The round gadgets write to distinct wires before `next`, and none of them reads a wire that it or
a later one writes. -/
def Orderly (next : ℕ) : List (MimcRound F) → Prop
  | [] => True
  | g :: gs =>
    (∀ v ∈ g.reads, v < next ∧ v ≠ g.result ∧ v ∉ gs.map MimcRound.result) ∧
      (g.result < next ∧ g.result ≠ ONE ∧ g.result ∉ gs.map MimcRound.result) ∧ Orderly next gs

omit [Field F] in
theorem Orderly.mono {next next' : ℕ} (hle : next ≤ next') {gs : List (MimcRound F)}
    (h : Orderly next gs) : Orderly next' gs := by
  induction gs with
  | nil => trivial
  | cons g gs ih =>
    obtain ⟨hreads, hresult, hrest⟩ := h
    exact ⟨fun v hv => ⟨(hreads v hv).1.trans_le hle, (hreads v hv).2⟩,
      ⟨hresult.1.trans_le hle, hresult.2⟩, ih hrest⟩

omit [Field F] in
theorem Orderly.result_lt {next : ℕ} {gs : List (MimcRound F)} (h : Orderly next gs) :
    ∀ v ∈ gs.map MimcRound.result, v < next := by
  induction gs with
  | nil => exact forall_mem_nil _
  | cons g gs ih => exact forall_mem_cons.mpr ⟨h.2.1.1, ih h.2.2⟩

theorem roundsWitness_of_notMem {gs : List (MimcRound F)} {next v : ℕ} {σ : Assignment F}
    (hv : v < next) (hmem : v ∉ gs.map MimcRound.result) :
    roundsWitness 17 gs next σ v = σ v := by
  induction gs generalizing next σ with
  | nil => rfl
  | cons g gs ih =>
    rw [map_cons, mem_cons, not_or] at hmem
    rw [roundsWitness, ih (hv.trans_le (Nat.le_add_right _ _)) hmem.2,
      MimcRound.witness_of_ne hmem.1 (.inl hv)]

/-- **The witness generator.** Round gadgets in order get an assignment that satisfies their rows. -/
theorem satisfies_roundsWitness {gs : List (MimcRound F)} {next : ℕ} (h : Orderly next gs)
    (σ : Assignment F) : Satisfies (roundsWitness 17 gs next σ) (roundRows 17 gs next) := by
  induction gs generalizing next σ with
  | nil => exact satisfies_nil
  | cons g gs ih =>
    obtain ⟨hreads, ⟨hresult, hone, hmem⟩, hrest⟩ := h
    rw [roundRows, satisfies_append]
    refine ⟨?_, ih (hrest.mono (Nat.le_add_right _ _)) _⟩
    have hfirst := MimcRound.satisfies_witness (σ := σ)
      (fun v hv => ⟨(hreads v hv).1, (hreads v hv).2.1⟩) hresult hone
    have hsame {v : ℕ} (hv : v < next + 4) (hmem : v ∉ gs.map MimcRound.result) :
        roundsWitness 17 (g :: gs) next σ v = g.witness 17 next σ v := by
      rw [roundsWitness, MimcRound.numExponents_seventeen]
      exact roundsWitness_of_notMem hv hmem
    -- later gadgets write neither the wires of this one nor anything it reads
    have hread : ∀ v ∈ g.reads, roundsWitness 17 (g :: gs) next σ v = g.witness 17 next σ v :=
      fun v hv => hsame ((hreads v hv).1.trans_le (Nat.le_add_right _ _)) (hreads v hv).2.2
    have hpower {k : ℕ} (hk : k < 4) :
        roundsWitness 17 (g :: gs) next σ (next + k) = g.witness 17 next σ (next + k) :=
      hsame (by omega) fun hmem =>
        Nat.not_lt.mpr (Nat.le_add_right next k) (hrest.result_lt _ hmem)
    rw [MimcRound.satisfies_constraints_seventeen] at hfirst ⊢
    rwa [MimcRound.eval_t_congr hread, MimcRound.added_congr hread,
      hsame (hresult.trans_le (Nat.le_add_right _ _)) hmem, hpower (k := 1) (by omega),
      hpower (k := 2) (by omega), hpower (k := 3) (by omega),
      show roundsWitness 17 (g :: gs) next σ next = g.witness 17 next σ next from
        hpower (k := 0) (by omega)]

/-- Round gadgets in order can be satisfied without a change to the wires they do not write. -/
theorem Orderly.exists_satisfies {gs : List (MimcRound F)} {next : ℕ} (h : Orderly next gs)
    (σ : Assignment F) : ∃ τ : Assignment F, Satisfies τ (roundRows 17 gs next) ∧
      ∀ v < next, v ∉ gs.map MimcRound.result → τ v = σ v :=
  ⟨_, satisfies_roundsWitness h σ, fun _ hv hmem => roundsWitness_of_notMem hv hmem⟩

/-! ### The gadgets as they are constructed -/

section Wires

variable {result start : ℕ}

/-- Fresh wires and a result allocated before them. -/
theorem allocated_fresh (hresult : 0 < result ∧ result < start) (n : ℕ) :
    Allocated (start + n) (List.range' start n ++ [result]) := by
  have hsingleton : Allocated start [result] :=
    ⟨nodup_singleton result, forall_mem_singleton.mpr hresult.1,
      forall_mem_singleton.mpr hresult.2⟩
  exact (hsingleton.append_range' (hresult.1.trans hresult.2) n).perm perm_append_comm

theorem notMem_fresh {v : ℕ} (hlt : v < start) (hne : v ≠ result) (n : ℕ) :
    v ∉ List.range' start n ++ [result] := by
  rw [mem_append, not_or, mem_range'_1, mem_singleton]
  exact ⟨fun h => hlt.not_ge h.1, hne⟩

end Wires

omit [Field F] in
theorem vars_add (l m : LinearCombination F) : (l + m).vars = l.vars ++ m.vars := map_append

namespace MimcPermutation

variable {key addToLast msg : LinearCombination F} {result : Var} {roundResults : List Var}
  {roundConstants : List F}

theorem map_result_rounds :
    (rounds key addToLast result msg roundResults roundConstants).map MimcRound.result =
      roundResults ++ [result] := by
  induction roundResults generalizing msg roundConstants with
  | nil => rfl
  | cons roundResult roundResults ih => exact congrArg (roundResult :: ·) ih

theorem orderly_rounds {next : ℕ} (hresults : Allocated next (roundResults ++ [result]))
    (hreads : ∀ v ∈ msg.vars ++ key.vars ++ addToLast.vars,
      v < next ∧ v ∉ roundResults ++ [result]) :
    Orderly next (rounds key addToLast result msg roundResults roundConstants) := by
  have hlast : result ∈ roundResults ++ [result] := mem_append_right _ (mem_singleton.mpr rfl)
  have hone : ONE < next ∧ ONE ∉ roundResults ++ [result] :=
    ⟨(hresults.pos result hlast).trans (hresults.lt result hlast), hresults.one_notMem⟩
  induction roundResults generalizing msg roundConstants with
  | nil =>
    refine ⟨fun v hv => ?_, ⟨hresults.lt _ hlast, (hresults.pos _ hlast).ne', not_mem_nil⟩,
      trivial⟩
    have hread : v < next ∧ v ∉ [result] := by
      simp only [MimcRound.reads, MimcRound.t, vars_add, Option.elim_some, mem_append] at hv
      rcases hv with ((hv | hv) | hv) | hv
      · exact hreads v (mem_append_left _ (mem_append_left _ hv))
      · exact hreads v (mem_append_left _ (mem_append_right _ hv))
      · exact mem_singleton.mp hv ▸ hone
      · exact hreads v (mem_append_right _ hv)
    exact ⟨hread.1, fun h => hread.2 (mem_singleton.mpr h), not_mem_nil⟩
  | cons roundResult roundResults ih =>
    have hsub : (roundResults ++ [result]).Sublist (roundResult :: roundResults ++ [result]) :=
      sublist_cons_self _ _
    have hnotMem : roundResult ∉ roundResults ++ [result] := (nodup_cons.mp hresults.nodup).1
    have hfirst := hresults.lt roundResult mem_cons_self
    refine ⟨fun v hv => ?_, ⟨hfirst, (hresults.pos _ mem_cons_self).ne', ?_⟩, ?_⟩
    · have hread : v < next ∧ v ∉ roundResult :: roundResults ++ [result] := by
        simp only [MimcRound.reads, MimcRound.t, vars_add, Option.elim_none, append_nil,
          mem_append] at hv
        rcases hv with (hv | hv) | hv
        · exact hreads v (mem_append_left _ (mem_append_left _ hv))
        · exact hreads v (mem_append_left _ (mem_append_right _ hv))
        · exact mem_singleton.mp hv ▸ hone
      rw [map_result_rounds]
      exact ⟨hread.1, fun h => hread.2 (h ▸ mem_cons_self),
        fun h => hread.2 (mem_cons_of_mem _ h)⟩
    · rwa [map_result_rounds]
    · refine ih (hresults.sublist hsub) (fun v hv => ?_)
        (mem_append_right _ (mem_singleton.mpr rfl)) ⟨hone.1, fun h => hone.2 (hsub.subset h)⟩
      rcases mem_append.mp hv with hv | hv
      · rcases mem_append.mp hv with hv | hv
        · exact mem_singleton.mp hv ▸ ⟨hfirst, hnotMem⟩
        · have := hreads v (mem_append_left _ (mem_append_right _ hv))
          exact ⟨this.1, fun h => this.2 (hsub.subset h)⟩
      · have := hreads v (mem_append_right _ hv)
        exact ⟨this.1, fun h => this.2 (hsub.subset h)⟩

end MimcPermutation

namespace MimcMp

variable {numRounds : ℕ} {roundConstants : List F} {x y : LinearCombination F} {result start : ℕ}

/-- What a compression gadget writes. -/
theorem map_result_new :
    (new numRounds roundConstants x y result start).1.map MimcRound.result =
      List.range' start (numRounds - 1) ++ [result] :=
  MimcPermutation.map_result_rounds

omit [Field F] in
theorem mem_vars_args {v : Var} (hv : v ∈ x.vars ++ y.vars ++ (y + (x + y)).vars) :
    v ∈ x.vars ++ y.vars := by
  simp only [vars_add, mem_append] at hv ⊢
  tauto

/-- A compression gadget is in order when it does not read its result. -/
theorem orderly_new (hresult : 0 < result ∧ result < start)
    (hreads : ∀ v ∈ x.vars ++ y.vars, v < start ∧ v ≠ result) :
    Orderly (start + (numRounds - 1)) (new numRounds roundConstants x y result start).1 := by
  refine MimcPermutation.orderly_rounds (allocated_fresh hresult _) fun v hv => ?_
  obtain ⟨hlt, hne⟩ := hreads v (mem_vars_args hv)
  exact ⟨hlt.trans_le (Nat.le_add_right _ _), notMem_fresh hlt hne _⟩

end MimcMp

end Zeth.Circuit
