import Zeth.Contract.MixerCall

/-!
# Where the leaves and the roots of the mixer come from

The leaves should be the commitments of the accepted calls, and every root marked as known should
be the root of the tree over the leaves present when it was recorded. Both hold in every run in
which no leaf is inserted by a call from outside. But `insert` is a public function of
`AbstractMerkleTree`, so the mixer has it too: anyone can append leaves, and the nodes above them
stay stale, since the next accepted call only recomputes the nodes above its own two leaves.

What holds in every run is that the leaves are those of the accepted calls and of the insertions
together, in order (`Mixer.Recorded`).

## Main definitions

* `Mixer.LeafProvenance`: the property above.
* `Mixer.Recorded`, `Mixer.RootsRight`: the invariants.

## Main results

* `Mixer.leafProvenance_iff`: a run has the property exactly when no leaf was inserted from outside.
-/

namespace Zeth.Mixer

open List

open AbstractMerkleTree (depth)

variable {m : Mixer}

/-- The leaves that an event appends. -/
def Event.leaves : Event → List Word
  | .accepted inputs => commitments inputs
  | .inserted commitment => [commitment]

/-- The commitments of an accepted call. -/
def Event.commitments : Event → List Word
  | .accepted inputs => Mixer.commitments inputs
  | .inserted _ => []

variable (m) in
/-- The leaves are the commitments of the accepted calls in order, and the roots marked as known are
the roots of the trees over the leaves present when they were recorded. -/
structure LeafProvenance (st : State) : Prop where
  leaves_eq : st.tree.leaves depth = st.log.flatMap Event.commitments
  marked_iff : ∀ w, st.roots w = true ↔ ∃ record ∈ st.recorded, record.root = w
  root_eq : ∀ record ∈ st.recorded,
    record.root = PerfectTree.root m.hash 0 depth record.leaves

/-! ### The invariants -/

/-- The record of events and roots is that of the storage. -/
structure Recorded (st : State) : Prop where
  numLeaves_le : st.tree.numLeaves ≤ 2 ^ depth
  leaves_eq : st.tree.leaves depth = st.log.flatMap Event.leaves
  marked_iff : ∀ w, st.roots w = true ↔ ∃ record ∈ st.recorded, record.root = w

theorem recorded_deploy : Recorded m.deploy := by
  refine ⟨Nat.zero_le _, rfl, fun w => ?_⟩
  have hmark (root : Word) : Function.update (fun _ => false) root true w = true ↔ root = w := by
    by_cases hw : w = root
    · simp [hw]
    · simp [Function.update_of_ne hw, Ne.symm hw]
  simp only [deploy, hmark, mem_singleton, exists_eq_left]

variable (m) in
theorem stepInvariant_recorded : m.StepInvariant Recorded where
  balanceFree := fun _ _ _ h => ⟨h.numLeaves_le, h.leaves_eq, h.marked_iff⟩
  accept := by
    intro inputs st st' hacc h
    obtain ⟨tree, root, hbatch, htree, hroots, -, hlog, hrec⟩ := hacc.effects
    obtain ⟨hleaves, -, hle⟩ := AbstractMerkleTree.addBatch_leaves h.numLeaves_le hbatch
    refine ⟨by rwa [htree], ?_, fun w => ?_⟩
    · rw [htree, hleaves, h.leaves_eq, hlog, flatMap_append]
      simp [Event.leaves]
    · rw [hroots, hrec]
      simp only [mem_append, mem_singleton, or_and_right, exists_or, exists_eq_left,
        ← h.marked_iff]
      by_cases hw : w = root
      · simp [hw]
      · simp [Function.update_of_ne hw, Ne.symm hw]
  insert := by
    intro commitment st st' hins h
    obtain ⟨tree, hinsert, hret⟩ := Except.bind_eq_ok.mp hins
    cases hret
    obtain ⟨hleaves, -, hle⟩ := AbstractMerkleTree.insert_leaves depth hinsert
    refine ⟨hle, ?_, h.marked_iff⟩
    rw [hleaves, h.leaves_eq, flatMap_append]
    simp [Event.leaves]

variable (m) in
/-- Without insertions from outside, the tree is complete and the recorded roots are right. -/
def RootsRight (st : State) : Prop :=
  (∀ c, .inserted c ∉ st.log) →
    AbstractMerkleTree.Complete m.hash 0 depth st.tree (st.log.flatMap Event.leaves) ∧
      ∀ record ∈ st.recorded, record.root = PerfectTree.root m.hash 0 depth record.leaves

theorem rootsRight_deploy : m.RootsRight m.deploy := by
  intro _
  have hcomplete := @AbstractMerkleTree.complete_initializeTree Word m.hash 0 depth
  refine ⟨hcomplete, fun record hmem => ?_⟩
  obtain rfl := mem_singleton.mp hmem
  exact hcomplete.nodes_zero

theorem stepInvariant_rootsRight : m.StepInvariant fun st => Recorded st ∧ m.RootsRight st where
  balanceFree := fun st b tb h => ⟨(stepInvariant_recorded m).balanceFree st b tb h.1, h.2⟩
  accept := by
    intro inputs st st' hacc h
    refine ⟨(stepInvariant_recorded m).accept inputs st st' hacc h.1, fun hnone => ?_⟩
    obtain ⟨tree, root, hbatch, htree, -, -, hlog, hrec⟩ := hacc.effects
    rw [hlog] at hnone
    obtain ⟨hcomplete, hroots⟩ := h.2 fun c hc => hnone c (mem_append_left _ hc)
    obtain ⟨-, hnum, hle⟩ := AbstractMerkleTree.addBatch_leaves h.1.numLeaves_le hbatch
    obtain ⟨tree', hbatch', hcomplete'⟩ :=
      hcomplete.addBatch (commitments inputs) (by rw [← hcomplete.numLeaves_eq]; omega)
    rw [hbatch, Except.ok.injEq, Prod.mk.injEq] at hbatch'
    obtain ⟨rfl, rfl⟩ := hbatch'
    rw [htree, hlog, hrec]
    refine ⟨by simpa [Event.leaves] using hcomplete', fun record hmem => ?_⟩
    rcases mem_append.mp hmem with hmem | hmem
    · exact hroots record hmem
    · obtain rfl := mem_singleton.mp hmem
      rw [hcomplete'.leaves_eq]
  insert := by
    intro commitment st st' hins h
    refine ⟨(stepInvariant_recorded m).insert commitment st st' hins h.1, fun hnone => ?_⟩
    obtain ⟨tree, -, hret⟩ := Except.bind_eq_ok.mp hins
    cases hret
    exact absurd (mem_append_right _ (mem_singleton_self _)) (hnone commitment)

/-! ### Runs -/

/-- The leaves of a record without insertions are the commitments. -/
theorem flatMap_leaves_of_not_inserted {log : List Event} (hnone : ∀ c, .inserted c ∉ log) :
    log.flatMap Event.leaves = log.flatMap Event.commitments := by
  induction log with
  | nil => rfl
  | cons event log ih =>
    rw [flatMap_cons, flatMap_cons, ih fun c hc => hnone c (mem_cons_of_mem _ hc)]
    cases event with
    | accepted inputs => rfl
    | inserted c => exact absurd mem_cons_self (hnone c)

/-- Every insertion from outside adds a leaf that is no commitment of an accepted call. -/
theorem length_flatMap_leaves (log : List Event) :
    (log.flatMap Event.commitments).length ≤ (log.flatMap Event.leaves).length ∧
      ((∃ c, .inserted c ∈ log) →
        (log.flatMap Event.commitments).length < (log.flatMap Event.leaves).length) := by
  induction log with
  | nil => simp
  | cons event log ih =>
    obtain ⟨hle, hlt⟩ := ih
    simp only [flatMap_cons, length_append]
    cases event with
    | accepted inputs =>
      refine ⟨Nat.add_le_add_left hle _, ?_⟩
      rintro ⟨c, hc⟩
      have hmem : .inserted c ∈ log := by simpa using hc
      exact Nat.add_lt_add_left (hlt ⟨c, hmem⟩) _
    | inserted c =>
      simp only [Event.commitments, Event.leaves, length_nil, length_singleton]
      omega

/-- **Leaf provenance and root history.** After any sequence of calls from outside, nested in any
way, the leaves are the commitments of the accepted calls and the known roots are right if and only
if no call of `insert` from outside has taken effect. -/
theorem leafProvenance_iff (m : Mixer) (calls : List Call) :
    m.LeafProvenance (runCalls m calls m.deploy) ↔
      ∀ c, .inserted c ∉ (runCalls m calls m.deploy).log := by
  obtain ⟨hrec, hright⟩ :=
    stepInvariant_rootsRight.runCalls calls m.deploy ⟨recorded_deploy, rootsRight_deploy⟩
  constructor
  · intro h c hc
    have hlen := (length_flatMap_leaves _).2 ⟨c, hc⟩
    rw [← hrec.leaves_eq, h.leaves_eq] at hlen
    exact lt_irrefl _ hlen
  · intro hnone
    refine ⟨?_, hrec.marked_iff, (hright hnone).2⟩
    rw [hrec.leaves_eq, flatMap_leaves_of_not_inserted hnone]

/-- A stranger inserts two leaves, and then a call with the commitments `1` and `0` is accepted. -/
def strangerRun : State :=
  let m := permissive fun l _ => l
  runCalls m [.insert 5, .insert 0, plainMix (copyInputs [0, 1, 0, 1, 2, 0, 0, 0, 0])] m.deploy

/-- After that run, two of the leaves are no commitments of an accepted call, and the root recorded
is not the root over the leaves present. -/
theorem strangerRun_not_leafProvenance :
    strangerRun.tree.leaves depth = [5, 0, 1, 0] ∧
      strangerRun.log.flatMap Event.commitments = [1, 0] ∧
      (∃ record ∈ strangerRun.recorded, record.root = 0 ∧ record.leaves = [5, 0, 1, 0] ∧
        PerfectTree.root (fun l _ => l) 0 depth record.leaves = 5) ∧
      ¬ (permissive fun l _ => l).LeafProvenance strangerRun := by
  have hleaves : strangerRun.tree.leaves depth = [5, 0, 1, 0] := by decide +kernel
  have hcommitments : strangerRun.log.flatMap Event.commitments = [1, 0] := by decide +kernel
  have hrecorded : ∃ record ∈ strangerRun.recorded, record.root = 0 ∧
      record.leaves = [5, 0, 1, 0] ∧
        PerfectTree.root (fun l _ => l) 0 depth record.leaves = 5 := by
    decide +kernel
  refine ⟨hleaves, hcommitments, hrecorded, fun h => ?_⟩
  have heq := h.leaves_eq
  rw [hleaves, hcommitments] at heq
  exact absurd heq (by decide)

end Zeth.Mixer
