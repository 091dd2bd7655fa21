import Mathlib
import Zeth.Contract.MixerCall

/-!
# Nullifiers are spent once

The mixer marks the nullifiers of accepted calls as words. So the words assembled by all accepted
calls of a run, nested calls included, are pairwise distinct (`Mixer.NullifiersMarked`).

What the proof of a call is about is not the words but their residues: the hash to which the proof
is bound reads every public input modulo the order `r` of the scalar field. Nothing in the contract
requires the inputs to be below `r`, so one nullifier of the circuit has several words: adding `r`
to the field element gives a call with the same hash that is accepted once more
(`Mixer.replayRun_not_nodup`). The nullifiers that the proofs see are pairwise distinct in every run
whose accepted calls give words that assemble to the same nullifiers as their residues do, which is
the case when the inputs are below `r`.

## Main definitions

* `Curve.reduce`, `Curve.provedNullifier`, `Mixer.provedNullifiers`.
* `Mixer.NullifiersMarked`, `Mixer.NullifiersMarkedSince`.

## Main results

* `Mixer.stepInvariant_nullifiersMarkedSince`, `Mixer.nullifiersMarked_runCalls`.
* `Mixer.provedNullifiers_nodup`: no double spend for inputs that are their own residues.
-/

namespace Zeth

open List

/-- The nullifiers stand in the inputs from the fourth on. -/
theorem nullifier_index_lt (i : Fin 2) : 3 + i.val < 9 := by
  omega

namespace Curve

/-- The public inputs as the hash reads them. -/
def reduce (curve : Curve) (inputs : Inputs) : Inputs :=
  fun j => BitVec.ofNat 256 ((inputs j).toNat % curve.r.toNat)

/-- A nullifier as the proof sees it: the residue of its field element, and its residual bits in the
residue of the last input. -/
def provedNullifier (curve : Curve) (inputs : Inputs) (i : Fin 2) : ℕ × ℕ :=
  ((inputs ⟨3 + i, nullifier_index_lt i⟩).toNat % curve.r.toNat,
    curve.residualBits ((inputs 8).toNat % curve.r.toNat) (2 + i))

end Curve

namespace Mixer

open AbstractMerkleTree (depth)

variable {m : Mixer}

/-- The public inputs of an accepted call. -/
def Event.inputs? : Event → Option Inputs
  | .accepted inputs => some inputs
  | .inserted _ => none

/-- The public inputs of the accepted calls, in order. -/
def State.acceptedInputs (st : State) : List Inputs := st.log.filterMap Event.inputs?

/-- The nullifiers that the proofs of the accepted calls are about. -/
def provedNullifiers (curve : Curve) (st : State) : List (ℕ × ℕ) :=
  st.acceptedInputs.flatMap fun inputs => (List.finRange 2).map (curve.provedNullifier inputs)

theorem Accepts.acceptedInputs {inputs : Inputs} {st st' : State} (h : m.Accepts inputs st st') :
    st'.acceptedInputs = st.acceptedInputs ++ [inputs] := by
  obtain ⟨-, -, -, -, -, -, hlog, -⟩ := h.effects
  simp [State.acceptedInputs, hlog, Event.inputs?]

/-- A leaf inserted from outside is not an accepted call and moves no ether and no token. -/
theorem insert_frame {commitment : Word} {st st' : State} (h : insert commitment st = .ok st') :
    st'.acceptedInputs = st.acceptedInputs ∧ st'.nullifiers = st.nullifiers ∧
      st'.balance = st.balance ∧ st'.tokenBalance = st.tokenBalance := by
  obtain ⟨tree, -, hret⟩ := Except.bind_eq_ok.mp h
  cases hret
  exact ⟨by simp [State.acceptedInputs, Event.inputs?], rfl, rfl, rfl⟩

variable (m) in
/-- The nullifiers of the accepted calls are pairwise distinct words, all marked. -/
structure NullifiersMarked (st : State) : Prop where
  nodup : (st.acceptedInputs.flatMap m.assembleNullifiers).Nodup
  marked : ∀ w ∈ st.acceptedInputs.flatMap m.assembleNullifiers, st.nullifiers w = true

variable (m) in
/-- The nullifiers of the calls accepted after `prior` are pairwise distinct words, all marked. -/
def NullifiersMarkedSince (prior : List Inputs) (st : State) : Prop :=
  ∃ accepted, st.acceptedInputs = prior ++ accepted ∧
    (accepted.flatMap m.assembleNullifiers).Nodup ∧
    ∀ w ∈ accepted.flatMap m.assembleNullifiers, st.nullifiers w = true

theorem nullifiersMarkedSince_self (st : State) :
    m.NullifiersMarkedSince st.acceptedInputs st :=
  ⟨[], (append_nil _).symm, nodup_nil, fun _ hw => absurd hw not_mem_nil⟩

theorem nullifiersMarkedSince_nil {st : State} :
    m.NullifiersMarkedSince [] st ↔ m.NullifiersMarked st := by
  constructor
  · rintro ⟨accepted, haccepted, hnodup, hmarked⟩
    rw [nil_append] at haccepted
    subst haccepted
    exact ⟨hnodup, hmarked⟩
  · rintro ⟨hnodup, hmarked⟩
    exact ⟨_, rfl, hnodup, hmarked⟩

theorem nullifiersMarked_deploy : m.NullifiersMarked m.deploy :=
  ⟨nodup_nil, fun _ hw => absurd hw not_mem_nil⟩

/-- An accepted call adds its nullifiers, which were not marked. -/
theorem stepInvariant_nullifiersMarkedSince (prior : List Inputs) :
    m.StepInvariant (m.NullifiersMarkedSince prior) where
  balanceFree := fun _ _ _ h => h
  accept := by
    rintro inputs st st' hacc ⟨accepted, haccepted, hnodup, hmarked⟩
    obtain ⟨-, -, -, -, -, hnfs, -, -⟩ := hacc.effects
    refine ⟨accepted ++ [inputs], ?_, ?_, fun w hw => ?_⟩
    · rw [hacc.acceptedInputs, haccepted, append_assoc]
    · rw [flatMap_append, flatMap_singleton, nodup_append]
      refine ⟨hnodup, hacc.nodup, fun w hw w' hw' heq => ?_⟩
      have hw_marked := hmarked w hw
      rw [heq, hacc.fresh w' hw'] at hw_marked
      cases hw_marked
    · rw [flatMap_append, flatMap_singleton, mem_append] at hw
      rw [hnfs]
      rcases hw with hw | hw
      · simp [State.mark, hmarked w hw]
      · simp [State.mark, hw]
  insert := by
    rintro commitment st st' hins ⟨accepted, haccepted, hnodup, hmarked⟩
    obtain ⟨hinputs, hnfs, -, -⟩ := insert_frame hins
    exact ⟨accepted, hinputs.trans haccepted, hnodup, fun w hw => hnfs ▸ hmarked w hw⟩

/-- In a run from a new mixer all nullifiers of accepted calls are distinct and marked. -/
theorem nullifiersMarked_runCalls (calls : List Call) :
    m.NullifiersMarked (runCalls m calls m.deploy) :=
  nullifiersMarkedSince_nil.mp ((stepInvariant_nullifiersMarkedSince []).runCalls calls m.deploy
    (nullifiersMarkedSince_nil.mpr nullifiersMarked_deploy))

/-! ### From words to residues -/

/-- The word that a nullifier seen by the proof is assembled to, for inputs below `r`. -/
def wordOfProved (curve : Curve) (nf : ℕ × ℕ) : Word :=
  curve.extractBytes32 (BitVec.ofNat 256 nf.1)
    (BitVec.ofNat 256 (nf.2 * 2 ^ 128)) 0

/-- Residues assemble to a word that depends on the nullifier seen by the proof only. -/
theorem assembleNullifier_reduce_eq (curve : Curve) (keccak256 : Word → Word) (inputs : Inputs)
    (i : Fin 2) :
    (m.onCurve curve keccak256).assembleNullifier i (curve.reduce inputs) =
      wordOfProved curve (curve.provedNullifier inputs i) := by
  refine curve.extractBytes32_congr _ (by omega) (by omega) ?_
  have hlt : (curve.provedNullifier inputs i).2 < 2 ^ (256 - curve.fieldCapacity) :=
    Nat.mod_lt _ (by positivity)
  have hcap : 2 ^ (256 - curve.fieldCapacity) ≤ 2 ^ 4 :=
    Nat.pow_le_pow_right two_pos (by cases curve <;> decide)
  have hres : (curve.reduce inputs 8).toNat = (inputs 8).toNat % curve.r.toNat := by
    rw [Curve.reduce, BitVec.toNat_ofNat, Nat.mod_eq_of_lt]
    exact (Nat.mod_le _ _).trans_lt (inputs 8).isLt
  have hword : (BitVec.ofNat 256 ((curve.provedNullifier inputs i).2 * 2 ^ 128)).toNat =
      (curve.provedNullifier inputs i).2 * 2 ^ 128 := by
    rw [BitVec.toNat_ofNat, Nat.mod_eq_of_lt]
    omega
  rw [hres, hword]
  simp only [Curve.residualBits, zero_mul, add_zero]
  rw [Nat.mul_div_cancel _ (by positivity), Nat.mod_eq_of_lt hlt]
  rfl

/-! ### Calls that are accepted -/

/-- A mixer whose verifiers accept everything, with the hash of a curve. -/
def replayMixer : Mixer := (permissive fun l _ => l).onCurve .altBN128 id

/-- Public inputs with the nullifiers `3 + shift` and `4 + shift`. -/
def replayInputs (shift : Word) : Inputs :=
  Function.update (copyInputs [0, 1, 2, 3 + shift, 4 + shift, 0, 0, 0, 0]) 0
    (replayMixer.deploy.tree.nodes 0)

/-- In that mixer a call with no public values is accepted when its root is known and its nullifiers
are new. -/
theorem exec_plainMix {inputs : Inputs} {st : State} (hroot : st.roots (inputs 0) = true)
    (hnodup : (replayMixer.assembleNullifiers inputs).Nodup)
    (hfresh : ∀ w ∈ replayMixer.assembleNullifiers inputs, st.nullifiers w = false)
    (hhsig : replayMixer.assembleHsig inputs = 0)
    (hvalues : assemblePublicValues (inputs 8) = (0, 0))
    (hroom : st.tree.numLeaves + 2 ≤ 2 ^ depth) :
    ∃ st', replayMixer.Accepts inputs st st' ∧ exec replayMixer (plainMix inputs) st = .ok st' := by
  obtain ⟨st₁, hacc, hmix⟩ := @mix_of_checks replayMixer ⟨0, 0⟩ (plainArgs inputs)
    (react (fun st => runCalls replayMixer [] st) (.returned 0))
    (react (fun st => runCalls replayMixer [] st) (.returned 0)) st hroot hnodup hfresh
    hhsig.symm rfl rfl hroom
  have hmove := @processPublicValues_zero replayMixer ⟨0, 0⟩ (plainArgs inputs).publicInputs
    (react (fun st => runCalls replayMixer [] st) (.returned 0))
    (react (fun st => runCalls replayMixer [] st) (.returned 0)) st₁ hvalues rfl
  refine ⟨st₁, hacc, ?_⟩
  rw [plainMix, exec, hmix, hmove]
  rfl

/-- The facts about the inputs of the replay that the checks read. -/
theorem replayInputs_checks {shift : Word} (h : shift = 0 ∨ shift = Curve.altBN128.r) :
    (replayMixer.assembleNullifiers (replayInputs shift) = [3 + shift, 4 + shift]) ∧
      replayMixer.assembleHsig (replayInputs shift) = 0 ∧
      assemblePublicValues (replayInputs shift 8) = (0, 0) := by
  rcases h with rfl | rfl
  · decide +kernel
  · decide +kernel

/-- The first call of the replay is accepted. -/
theorem exec_replay_first :
    ∃ st₁, replayMixer.Accepts (replayInputs 0) replayMixer.deploy st₁ ∧
      exec replayMixer (plainMix (replayInputs 0)) replayMixer.deploy = .ok st₁ := by
  obtain ⟨hnfs, hhsig, hvalues⟩ := replayInputs_checks (.inl rfl)
  refine exec_plainMix deploy_roots ?_ (fun _ _ => rfl) hhsig hvalues (by decide)
  rw [hnfs]
  decide

/-! ### Whole runs -/

/-- **No double spend.** In every run of a mixer, any calls being nested in any way: if every
accepted call gives inputs that assemble to the same nullifiers as their residues modulo `r`, then
the nullifiers that the proofs of the accepted calls are about are pairwise distinct. -/
theorem provedNullifiers_nodup (m : Mixer) (curve : Curve) (keccak256 : Word → Word)
    (calls : List Call)
    (hinputs : ∀ inputs ∈ (runCalls (m.onCurve curve keccak256) calls
        (m.onCurve curve keccak256).deploy).acceptedInputs, ∀ i,
      (m.onCurve curve keccak256).assembleNullifier i (curve.reduce inputs) =
        (m.onCurve curve keccak256).assembleNullifier i inputs) :
    (provedNullifiers curve (runCalls (m.onCurve curve keccak256) calls
      (m.onCurve curve keccak256).deploy)).Nodup := by
  have hmarked := nullifiersMarked_runCalls (m := m.onCurve curve keccak256) calls
  refine List.Nodup.of_map (wordOfProved curve) ?_
  convert hmarked.nodup using 1
  rw [provedNullifiers, map_flatMap]
  refine flatMap_congr fun inputs hmem => ?_
  rw [assembleNullifiers, map_map]
  refine map_congr_left fun i _ => ?_
  rw [Function.comp_apply, ← hinputs inputs hmem i, assembleNullifier_reduce_eq]

/-- One accepted call. -/
theorem provedNullifiers_nodup_one_call :
    (runCalls replayMixer [plainMix (replayInputs 0)] replayMixer.deploy).acceptedInputs =
        [replayInputs 0] ∧
      (provedNullifiers .altBN128 (runCalls replayMixer [plainMix (replayInputs 0)]
        replayMixer.deploy)).Nodup := by
  obtain ⟨st₁, hacc, hexec⟩ := exec_replay_first
  obtain ⟨-, -, -, -, -, -, hlog, -⟩ := hacc.effects
  have haccepted : (runCalls replayMixer [plainMix (replayInputs 0)]
      replayMixer.deploy).acceptedInputs = [replayInputs 0] := by
    rw [runCalls, hexec, runCalls, Except.toOption, Option.getD_some, State.acceptedInputs, hlog]
    rfl
  refine ⟨haccepted, provedNullifiers_nodup (permissive fun l _ => l) .altBN128 id
    [plainMix (replayInputs 0)] fun inputs hmem => ?_⟩
  obtain rfl : inputs = replayInputs 0 := mem_singleton.mp (haccepted ▸ hmem)
  decide +kernel

/-- A call is accepted, and then accepted again with `r` added to its nullifiers. -/
def replayRun : State :=
  runCalls replayMixer [plainMix (replayInputs 0), plainMix (replayInputs Curve.altBN128.r)]
    replayMixer.deploy

/-- Both calls of the replay are accepted, and the proofs are about the same nullifiers. -/
theorem replayRun_not_nodup :
    replayRun.acceptedInputs = [replayInputs 0, replayInputs Curve.altBN128.r] ∧
      ¬ (provedNullifiers .altBN128 replayRun).Nodup := by
  obtain ⟨hnfs₁, -, -⟩ := replayInputs_checks (.inl rfl)
  obtain ⟨hnfs₂, hhsig₂, hvalues₂⟩ := replayInputs_checks (.inr rfl)
  obtain ⟨st₁, hacc₁, hexec₁⟩ := exec_replay_first
  obtain ⟨tree, root, hbatch, htree, hroots, hnullifiers, hlog₁, -⟩ := hacc₁.effects
  have hnum := (AbstractMerkleTree.addBatch_leaves (by decide) hbatch).2.1
  have hroot₁ : st₁.roots (replayMixer.deploy.tree.nodes 0) = true := by
    rw [hroots, Function.update_apply, deploy_roots, ite_self]
  have hfresh : ∀ w ∈ replayMixer.assembleNullifiers (replayInputs Curve.altBN128.r),
      st₁.nullifiers w = false := by
    rw [hnfs₂, hnullifiers, hnfs₁]
    simp only [mem_cons, not_mem_nil, or_false, forall_eq_or_imp, forall_eq]
    decide +kernel
  obtain ⟨st₂, hacc₂, hexec₂⟩ := @exec_plainMix (replayInputs Curve.altBN128.r) st₁ hroot₁
    (by rw [hnfs₂]; decide +kernel) hfresh hhsig₂ hvalues₂
    (by rw [htree, hnum, length_commitments]; decide)
  obtain ⟨-, -, -, -, -, -, hlog₂, -⟩ := hacc₂.effects
  have haccepted : replayRun.acceptedInputs =
      [replayInputs 0, replayInputs Curve.altBN128.r] := by
    rw [replayRun, runCalls, hexec₁, runCalls, runCalls, Except.toOption, Option.getD_some, hexec₂,
      Except.toOption, Option.getD_some, State.acceptedInputs, hlog₂, hlog₁]
    rfl
  refine ⟨haccepted, ?_⟩
  rw [provedNullifiers, haccepted]
  decide +kernel

end Mixer

end Zeth
