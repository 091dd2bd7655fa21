import Zeth.Contract.Mixer
import Zeth.Contract.MerkleTreeRoot

/-!
# Calls of the mixer and whole runs

What an accepted call does to the storage is said once, by `Mixer.Accepts` and the inversion lemmas
`Mixer.mix_cases` and `Mixer.dispatch_cases`: the nullifiers are new and get marked, two leaves are
appended and a root is recorded, and afterwards the public values are moved.

A run is a sequence of calls from outside, each with what the code called by it does: a list of
further calls of the mixer and an outcome. So a `Call` is a tree, and `runCalls` runs any
interleaving of nested calls. Calls that revert, at any depth, leave no trace: the state is that
before the call. Frames that revert between two calls of the mixer undo the calls inside and are
left out. The induction over such trees is done once, in `Mixer.CallRelation.runCalls`.

## Main definitions

* `Mixer.Accepts`, `Mixer.BalanceFree`, `Mixer.External.Preserves`.
* `Mixer.Call`, `Mixer.exec`, `Mixer.runCalls`.
* `Mixer.Commits`, `Mixer.CallsMeet`, `Mixer.CallRelation`, `Mixer.StepInvariant`.

## Main results

* `Mixer.mix_cases`, `Mixer.dispatch_cases`.
* `Mixer.CallRelation.runCalls`: a relation that holds across single calls, if it holds across the
  code they run, holds across every run.
* `Mixer.StepInvariant.runCalls`: what single steps preserve holds in every state reached.
-/

namespace Zeth.Mixer

open ByteString

open Except (ok_bind bind_eq_ok)

open AbstractMerkleTree (depth)

variable (m : Mixer)

/-! ### What an accepted call does -/

/-- The storage with some nullifiers marked. -/
def State.mark (st : State) (nfs : List Word) : State :=
  { st with nullifiers := fun w => st.nullifiers w || decide (w ∈ nfs) }

/-- The checks of a call on the state, and its effects before the public values are moved. -/
structure Accepts (inputs : Inputs) (st st' : State) : Prop where
  root_known : st.roots (inputs 0) = true
  nodup : (m.assembleNullifiers inputs).Nodup
  fresh : ∀ w ∈ m.assembleNullifiers inputs, st.nullifiers w = false
  append : ∃ ciphertexts, m.appendCommitments inputs ciphertexts (m.assembleNullifiers inputs)
    (st.mark (m.assembleNullifiers inputs)) = .ok st'

theorem appendNullifiers_eq_ok {nfs : List Word} {st st' : State} :
    appendNullifiers nfs st = .ok st' ↔
      nfs.Nodup ∧ (∀ w ∈ nfs, st.nullifiers w = false) ∧ st' = st.mark nfs := by
  induction nfs generalizing st with
  | nil =>
    simp only [appendNullifiers, Except.ok.injEq, List.nodup_nil, List.not_mem_nil, false_imp_iff,
      implies_true, true_and, State.mark, decide_false, Bool.or_false]
    exact eq_comm
  | cons nf nfs ih =>
    rw [appendNullifiers, bind_eq_ok]
    simp only [require_eq_ok, Bool.not_eq_true', exists_const, ih, List.nodup_cons, List.mem_cons,
      forall_eq_or_imp]
    constructor
    · rintro ⟨hnf, hnodup, hfresh, rfl⟩
      have hnot : nf ∉ nfs := by
        intro hmem
        simpa using hfresh nf hmem
      refine ⟨⟨hnot, hnodup⟩, ⟨hnf, fun w hw => ?_⟩, ?_⟩
      · have hne : w ≠ nf := fun h => hnot (h ▸ hw)
        simpa [Function.update_of_ne hne] using hfresh w hw
      · simp only [State.mark, State.mk.injEq, true_and, and_true]
        funext w
        by_cases hw : w = nf <;> simp [hw]
    · rintro ⟨⟨hnot, hnodup⟩, ⟨hnf, hfresh⟩, rfl⟩
      refine ⟨hnf, hnodup, fun w hw => ?_, ?_⟩
      · have hne : w ≠ nf := fun h => hnot (h ▸ hw)
        rw [Function.update_of_ne hne, hfresh w hw]
      · simp only [State.mark, State.mk.injEq, true_and, and_true]
        funext w
        by_cases hw : w = nf <;> simp [hw]

variable {m}

theorem length_commitments (inputs : Inputs) : (commitments inputs).length = 2 := by
  simp [commitments]

/-- The effects of an accepted call. -/
theorem Accepts.effects {inputs : Inputs} {st st' : State} (h : m.Accepts inputs st st') :
    ∃ tree root,
      AbstractMerkleTree.addBatch m.hash depth st.tree (commitments inputs) = .ok (tree, root) ∧
      st'.tree = tree ∧ st'.roots = Function.update st.roots root true ∧
      st'.nullifiers = (st.mark (m.assembleNullifiers inputs)).nullifiers ∧
      st'.log = st.log ++ [.accepted inputs] ∧
      st'.recorded = st.recorded ++ [⟨root, tree.leaves depth⟩] := by
  obtain ⟨ciphertexts, happend⟩ := h.append
  obtain ⟨tree₁, hinsert, hrest⟩ := bind_eq_ok.mp happend
  obtain ⟨⟨tree, root⟩, hroot, hret⟩ := bind_eq_ok.mp hrest
  cases hret
  refine ⟨tree, root, ?_, rfl, rfl, rfl, rfl, rfl⟩
  rw [AbstractMerkleTree.addBatch, length_commitments]
  exact bind_eq_ok.mpr ⟨tree₁, hinsert, hroot⟩

/-- Accepting a call leaves the balances alone until the public values are moved. -/
theorem Accepts.balances {inputs : Inputs} {st st' : State} (h : m.Accepts inputs st st') :
    st'.balance = st.balance ∧ st'.tokenBalance = st.tokenBalance := by
  obtain ⟨ciphertexts, happend⟩ := h.append
  obtain ⟨tree₁, -, hrest⟩ := bind_eq_ok.mp happend
  obtain ⟨⟨tree, root⟩, -, hret⟩ := bind_eq_ok.mp hrest
  cases hret
  exact ⟨rfl, rfl⟩

/-- The root of the empty tree is known from the start. -/
theorem deploy_roots : m.deploy.roots (m.deploy.tree.nodes 0) = true := by
  simp only [deploy, Function.update_self]

theorem check_eq_ok {vk : Fin 4 → Word} {inputs : Inputs} {st st' : State} {nfs : List Word}
    (h : m.checkMkrootNullifiersHsigAppendNullifiersState vk inputs st = .ok (st', nfs)) :
    st.roots (inputs 0) = true ∧ (m.assembleNullifiers inputs).Nodup ∧
      (∀ w ∈ m.assembleNullifiers inputs, st.nullifiers w = false) ∧
      st' = st.mark (m.assembleNullifiers inputs) ∧ nfs = m.assembleNullifiers inputs := by
  rw [checkMkrootNullifiersHsigAppendNullifiersState, bind_eq_ok] at h
  obtain ⟨u, hroot, h⟩ := h
  obtain ⟨st₁, hnfs, h⟩ := bind_eq_ok.mp h
  obtain ⟨u', -, h⟩ := bind_eq_ok.mp h
  obtain ⟨hnodup, hfresh, rfl⟩ := appendNullifiers_eq_ok.mp hnfs
  cases h
  exact ⟨require_eq_ok.mp hroot, hnodup, hfresh, rfl, rfl⟩

theorem check_of_checks {vk : Fin 4 → Word} {inputs : Inputs} {st : State}
    (hroot : st.roots (inputs 0) = true) (hnodup : (m.assembleNullifiers inputs).Nodup)
    (hfresh : ∀ w ∈ m.assembleNullifiers inputs, st.nullifiers w = false)
    (hhsig : m.sha256 ((m.assembleNullifiers inputs ++ (List.finRange 4).map vk).flatMap
      wordBytes) = m.assembleHsig inputs) :
    m.checkMkrootNullifiersHsigAppendNullifiersState vk inputs st =
      .ok (st.mark (m.assembleNullifiers inputs), m.assembleNullifiers inputs) := by
  have hmark : appendNullifiers (m.assembleNullifiers inputs) st =
      .ok (st.mark (m.assembleNullifiers inputs)) :=
    appendNullifiers_eq_ok.mpr ⟨hnodup, hfresh, rfl⟩
  simp only [checkMkrootNullifiersHsigAppendNullifiersState, hroot, require_true,
    ok_bind, hmark, hhsig, beq_self_eq_true]
  rfl

/-- An accepted call of `mix` passes the checks, has its effects and then moves the public
values. -/
theorem mix_cases {msg : Msg} {args : MixArgs} {first second : External} {st st' : State}
    {mv : Movement} (h : m.mix msg args first second st = .ok (st', mv)) :
    ∃ st₁, m.Accepts args.publicInputs { st with balance := st.balance + msg.value } st₁ ∧
      m.processPublicValues msg args.publicInputs first second st₁ = .ok (st', mv) := by
  rw [mix] at h
  obtain ⟨⟨st₀, nfs⟩, hcheck, hsig⟩ := bind_eq_ok.mp h
  obtain ⟨hroot, hnodup, hfresh, rfl, rfl⟩ := check_eq_ok hcheck
  obtain ⟨_, -, hproof⟩ := bind_eq_ok.mp hsig
  obtain ⟨_, -, heffects⟩ := bind_eq_ok.mp hproof
  obtain ⟨st₁, happend, hmove⟩ := bind_eq_ok.mp heffects
  exact ⟨st₁, ⟨hroot, hnodup, hfresh, _, happend⟩, hmove⟩

/-- With room in the tree, the commitments are appended. -/
theorem appendCommitments_ok (inputs : Inputs) (ciphertexts : Fin 2 → Bytes) (nfs : List Word)
    {st : State} (hroom : st.tree.numLeaves + 2 ≤ 2 ^ depth) :
    ∃ st', m.appendCommitments inputs ciphertexts nfs st = .ok st' := by
  obtain ⟨tree₁, hinsert⟩ : ∃ tree₁, AbstractMerkleTree.insertAll depth st.tree
      (commitments inputs) = .ok tree₁ :=
    AbstractMerkleTree.insertAll_ok depth (by rwa [length_commitments])
  have hle : 2 ≤ tree₁.numLeaves := by
    have hroom' : st.tree.numLeaves ≤ 2 ^ depth := (Nat.le_add_right _ 2).trans hroom
    rw [(AbstractMerkleTree.insertAll_leaves depth hroom' hinsert).2.1, length_commitments]
    exact Nat.le_add_left _ _
  rw [appendCommitments, hinsert, ok_bind, AbstractMerkleTree.recomputeRoot, if_pos hle,
    ok_bind]
  exact ⟨_, rfl⟩

/-- A call of `mix` that passes all checks has its effects and moves the public values. -/
theorem mix_of_checks {msg : Msg} {args : MixArgs} {first second : External} {st : State}
    (hroot : st.roots (args.publicInputs 0) = true)
    (hnodup : (m.assembleNullifiers args.publicInputs).Nodup)
    (hfresh : ∀ w ∈ m.assembleNullifiers args.publicInputs, st.nullifiers w = false)
    (hhsig : m.sha256 ((m.assembleNullifiers args.publicInputs ++
      (List.finRange 4).map args.vk).flatMap wordBytes) = m.assembleHsig args.publicInputs)
    (hsig : m.verifySignature args.vk args.sigma (m.sha256
      (dataToBeSigned msg.sender args.ciphertexts args.proof args.publicInputs)) = true)
    (hproof : m.verifyZkProof args.proof (m.hashPublicProofData args.publicInputs) = true)
    (hroom : st.tree.numLeaves + 2 ≤ 2 ^ depth) :
    ∃ st₁, m.Accepts args.publicInputs { st with balance := st.balance + msg.value } st₁ ∧
      m.mix msg args first second st =
        m.processPublicValues msg args.publicInputs first second st₁ := by
  obtain ⟨st₁, happend⟩ := appendCommitments_ok (m := m) args.publicInputs args.ciphertexts
    (m.assembleNullifiers args.publicInputs)
    (show (State.mark { st with balance := st.balance + msg.value }
      (m.assembleNullifiers args.publicInputs)).tree.numLeaves + 2 ≤ 2 ^ depth from hroom)
  have hcheck : m.checkMkrootNullifiersHsigAppendNullifiersState args.vk args.publicInputs
      { st with balance := st.balance + msg.value } = _ :=
    check_of_checks hroot hnodup hfresh hhsig
  refine ⟨st₁, ⟨hroot, hnodup, hfresh, args.ciphertexts, happend⟩, ?_⟩
  simp only [mix, hcheck, hsig, hproof, require_true, ok_bind]
  rw [mixAppendCommitmentsEmitAndHandlePublicValues, happend, ok_bind]

/-- An accepted call of `dispatch` does the same for the inputs it has decoded. -/
theorem dispatch_cases {msg : Msg} {args : DispatchArgs} {first second : External}
    {st st' : State} {mv : Movement}
    (h : m.dispatch msg args first second st = .ok (st', mv)) :
    ∃ params st₁, m.abiDecode args.nestedParameters = some params ∧
      m.Accepts (copyInputs params.publicData)
        { st with balance := st.balance + msg.value } st₁ ∧
      m.processPublicValues msg (copyInputs params.publicData) first second st₁ =
        .ok (st', mv) := by
  rw [dispatch] at h
  obtain ⟨params, hdecode, hhash⟩ := bind_eq_ok.mp h
  obtain ⟨_, -, hcall⟩ := bind_eq_ok.mp hhash
  obtain ⟨⟨st₀, nfs⟩, hcheck, hsig⟩ := bind_eq_ok.mp hcall
  obtain ⟨hroot, hnodup, hfresh, rfl, rfl⟩ := check_eq_ok hcheck
  obtain ⟨_, -, heffects⟩ := bind_eq_ok.mp hsig
  obtain ⟨st₁, happend, hmove⟩ := bind_eq_ok.mp heffects
  refine ⟨params, st₁, ?_, ⟨hroot, hnodup, hfresh, _, happend⟩, hmove⟩
  rw [decodeDispatch] at hdecode
  obtain ⟨_, -, hdecode⟩ := bind_eq_ok.mp hdecode
  obtain ⟨_, -, hdecode⟩ := bind_eq_ok.mp hdecode
  obtain ⟨_, -, hdecode⟩ := bind_eq_ok.mp hdecode
  cases hparams : m.abiDecode args.nestedParameters with
  | none => simp [hparams] at hdecode
  | some params' =>
    simp only [hparams] at hdecode
    obtain ⟨_, -, hdecode⟩ := bind_eq_ok.mp hdecode
    obtain ⟨_, -, hdecode⟩ := bind_eq_ok.mp hdecode
    cases hdecode
    rfl

/-! ### Moving the public values -/

/-- The public values are taken and then paid. -/
theorem processPublicValues_cases {msg : Msg} {inputs : Inputs} {first second : External}
    {st st' : State} {mv : Movement}
    (h : m.processPublicValues msg inputs first second st = .ok (st', mv)) :
    ∃ st₁,
      m.processVpubIn msg (assemblePublicValues (inputs 8)).1 first st = .ok (st₁, mv.taken) ∧
      m.processVpubOut (assemblePublicValues (inputs 8)).2 second st₁ = .ok (st', mv.paid) := by
  rw [processPublicValues] at h
  obtain ⟨⟨st₁, taken⟩, hin, hrest⟩ := bind_eq_ok.mp h
  obtain ⟨⟨st₂, paid⟩, hout, hret⟩ := bind_eq_ok.mp hrest
  cases hret
  exact ⟨st₁, hin, hout⟩

/-- Without public values and ether, nothing is moved and no code is called. -/
theorem processPublicValues_zero {msg : Msg} {inputs : Inputs} {first second : External}
    {st : State} (hvalues : assemblePublicValues (inputs 8) = (0, 0)) (hvalue : msg.value = 0) :
    m.processPublicValues msg inputs first second st = .ok (st, ⟨0, 0⟩) := by
  rw [processPublicValues, hvalues]
  simp only [processVpubIn, processVpubOut, hvalue, gt_iff_lt, lt_irrefl, if_false, ok_bind]
  rfl

/-- A property of states that does not depend on the balances. -/
def BalanceFree (P : State → Prop) : Prop :=
  ∀ st balance tokenBalance, P st → P { st with balance := balance, tokenBalance := tokenBalance }

/-- Code called by the mixer keeps a property when it leaves no state without it. -/
def External.Preserves (P : State → Prop) (external : External) : Prop :=
  ∀ st st' moved, P st → external st = some (st', moved) → P st'

section Preserves

variable {P : State → Prop} (hP : BalanceFree P)

include hP

theorem sendEther_preserves {external : External} (hext : external.Preserves P) {value : ℕ}
    {message : String} {st st' : State} (h : sendEther value external message st = .ok st')
    (hst : P st) : P st' := by
  unfold sendEther at h
  split_ifs at h
  cases hrun : external { st with balance := st.balance - value } with
  | none => simp [hrun] at h
  | some result =>
    obtain ⟨st₁, moved⟩ := result
    simp only [hrun, Except.ok.injEq] at h
    subst h
    exact hext _ _ _ (hP st _ st.tokenBalance hst) hrun

theorem processVpubIn_preserves {external : External} (hext : external.Preserves P) {msg : Msg}
    {vpubIn taken : ℕ} {st st' : State}
    (h : m.processVpubIn msg vpubIn external st = .ok (st', taken)) (hst : P st) : P st' := by
  unfold processVpubIn at h
  split_ifs at h with hin htoken hvalue
  · cases hrun : external st with
    | none => simp [hrun] at h
    | some result =>
      obtain ⟨st₁, moved⟩ := result
      simp only [hrun, Except.ok.injEq, Prod.mk.injEq] at h
      obtain ⟨rfl, -⟩ := h
      exact hP _ st₁.balance _ (hext _ _ _ hst hrun)
  · obtain ⟨_, -, hret⟩ := bind_eq_ok.mp h
    cases hret
    exact hst
  · obtain ⟨st₁, hsend, hret⟩ := bind_eq_ok.mp h
    cases hret
    exact sendEther_preserves hP hext hsend hst
  · cases h
    exact hst

theorem processVpubOut_preserves {external : External} (hext : external.Preserves P)
    {vpubOut paid : ℕ} {st st' : State}
    (h : m.processVpubOut vpubOut external st = .ok (st', paid)) (hst : P st) : P st' := by
  unfold processVpubOut at h
  split_ifs at h with hout htoken
  · cases hrun : external st with
    | none => simp [hrun] at h
    | some result =>
      obtain ⟨st₁, moved⟩ := result
      simp only [hrun, Except.ok.injEq, Prod.mk.injEq] at h
      obtain ⟨rfl, -⟩ := h
      exact hP _ st₁.balance _ (hext _ _ _ hst hrun)
  · obtain ⟨st₁, hsend, hret⟩ := bind_eq_ok.mp h
    cases hret
    exact sendEther_preserves hP hext hsend hst
  · cases h
    exact hst

theorem processPublicValues_preserves {first second : External} (hfirst : first.Preserves P)
    (hsecond : second.Preserves P) {msg : Msg} {inputs : Inputs} {st st' : State} {mv : Movement}
    (h : m.processPublicValues msg inputs first second st = .ok (st', mv)) (hst : P st) :
    P st' := by
  obtain ⟨st₁, hin, hout⟩ := processPublicValues_cases h
  exact processVpubOut_preserves hP hsecond hout (processVpubIn_preserves hP hfirst hin hst)

end Preserves

/-! ### Trees of calls -/

/-- How code called by the mixer ends, with the amount of the token it has moved. -/
inductive Outcome where
  | failed
  | returned (moved : ℕ)
  deriving DecidableEq, Repr

/-- A call of the mixer from outside. A call of `mix` or `dispatch` calls other code at most twice;
each time that code makes a list of further calls and has an outcome. -/
inductive Call where
  | mix (msg : Msg) (args : MixArgs) (calls₁ : List Call) (outcome₁ : Outcome)
      (calls₂ : List Call) (outcome₂ : Outcome)
  | dispatch (msg : Msg) (args : DispatchArgs) (calls₁ : List Call) (outcome₁ : Outcome)
      (calls₂ : List Call) (outcome₂ : Outcome)
  | insert (commitment : Word)
  | getConstants
  | tokenFallback (data : Bytes)

/-- Arguments of `mix` that are empty but for the public inputs. -/
def plainArgs (inputs : Inputs) : MixArgs := ⟨[], fun _ => 0, 0, inputs, fun _ => []⟩

/-- A call of `mix` with the given public inputs, no ether and no calls back. -/
def plainMix (inputs : Inputs) : Call :=
  .mix ⟨0, 0⟩ (plainArgs inputs) [] (.returned 0) [] (.returned 0)

/-- A mixer for ether whose verifiers accept everything. -/
def permissive (hash : Word → Word → Word) : Mixer where
  hash := hash
  extractBytes32 := Curve.altBN128.extractBytes32
  verifyZkProof := fun _ _ => true
  verifySignature := fun _ _ _ => true
  sha256 := fun _ => 0
  abiDecode := fun _ => none
  token := 0
  permittedDispatcher := 0
  vkHash := (0, 0)

/-- Code that changes the state as given and then ends with an outcome. -/
def react (run : State → State) : Outcome → External
  | .failed, _ => none
  | .returned moved, st => some (run st, moved)

variable (m) in
mutual

/-- A call from outside. -/
def exec : Call → State → Except String State
  | .mix msg args calls₁ outcome₁ calls₂ outcome₂, st =>
    (m.mix msg args (react (fun st => runCalls calls₁ st) outcome₁)
      (react (fun st => runCalls calls₂ st) outcome₂) st).map Prod.fst
  | .dispatch msg args calls₁ outcome₁ calls₂ outcome₂, st =>
    (m.dispatch msg args (react (fun st => runCalls calls₁ st) outcome₁)
      (react (fun st => runCalls calls₂ st) outcome₂) st).map Prod.fst
  | .insert commitment, st => Mixer.insert commitment st
  | .getConstants, st => .ok st
  | .tokenFallback data, st => (tokenFallback data).map fun _ => st

/-- Calls one after the other; one that reverts changes nothing. -/
def runCalls : List Call → State → State
  | [], st => st
  | call :: calls, st => runCalls calls ((exec call st).toOption.getD st)

end

theorem react_preserves {P : State → Prop} {run : State → State} (hrun : ∀ st, P st → P (run st))
    (outcome : Outcome) : External.Preserves P (react run outcome) := by
  intro st st' moved hst h
  cases outcome with
  | failed => cases h
  | returned n =>
    simp only [react, Option.some.injEq, Prod.mk.injEq] at h
    rw [← h.1]
    exact hrun st hst

/-! ### Induction over trees of calls -/

variable (m) in
/-- An accepted call of `mix` or `dispatch` with its public inputs, the code it calls and the movement
it makes. -/
inductive Commits (msg : Msg) (inputs : Inputs) (first second : External) (st st' : State)
    (mv : Movement) : Prop where
  | mix (args : MixArgs) (hcall : m.mix msg args first second st = .ok (st', mv))
      (hinputs : args.publicInputs = inputs)
  | dispatch (args : DispatchArgs) (params : NestedParameters)
      (hcall : m.dispatch msg args first second st = .ok (st', mv))
      (hdecode : m.abiDecode args.nestedParameters = some params)
      (hinputs : copyInputs params.publicData = inputs)

/-- Accepted calls of either kind have the same effects. -/
theorem Commits.cases {msg : Msg} {inputs : Inputs} {first second : External} {st st' : State}
    {mv : Movement} (h : m.Commits msg inputs first second st st' mv) :
    ∃ st₁, m.Accepts inputs { st with balance := st.balance + msg.value } st₁ ∧
      m.processPublicValues msg inputs first second st₁ = .ok (st', mv) := by
  cases h with
  | mix args hcall hinputs =>
    subst hinputs
    exact mix_cases hcall
  | dispatch args params hcall hdecode hinputs =>
    subst hinputs
    obtain ⟨params', st₁, hdecode', hacc, hmove⟩ := dispatch_cases hcall
    obtain rfl : params' = params := Option.some.inj (hdecode'.symm.trans hdecode)
    exact ⟨st₁, hacc, hmove⟩

variable (m) in
mutual

/-- Every call of `mix` or `dispatch` in a tree meets a condition on its sender, its public inputs
and the outcomes of the code it calls. -/
def CallMeets (Q : Msg → Inputs → Outcome → Outcome → Prop) : Call → Prop
  | .mix msg args calls₁ outcome₁ calls₂ outcome₂ =>
    Q msg args.publicInputs outcome₁ outcome₂ ∧ CallsMeet Q calls₁ ∧ CallsMeet Q calls₂
  | .dispatch msg args calls₁ outcome₁ calls₂ outcome₂ =>
    (∀ params, m.abiDecode args.nestedParameters = some params →
      Q msg (copyInputs params.publicData) outcome₁ outcome₂) ∧
      CallsMeet Q calls₁ ∧ CallsMeet Q calls₂
  | .insert _ => True
  | .getConstants => True
  | .tokenFallback _ => True

/-- Every call of `mix` or `dispatch` in a list of trees meets a condition. -/
def CallsMeet (Q : Msg → Inputs → Outcome → Outcome → Prop) : List Call → Prop
  | [] => True
  | call :: calls => CallMeets Q call ∧ CallsMeet Q calls

end

mutual

theorem callMeets_of_forall {Q : Msg → Inputs → Outcome → Outcome → Prop}
    (hQ : ∀ msg inputs outcome₁ outcome₂, Q msg inputs outcome₁ outcome₂) (call : Call) :
    m.CallMeets Q call := by
  match call with
  | .mix msg args calls₁ outcome₁ calls₂ outcome₂ =>
    rw [CallMeets]
    exact ⟨hQ _ _ _ _, callsMeet_of_forall hQ calls₁, callsMeet_of_forall hQ calls₂⟩
  | .dispatch msg args calls₁ outcome₁ calls₂ outcome₂ =>
    rw [CallMeets]
    exact ⟨fun _ _ => hQ _ _ _ _, callsMeet_of_forall hQ calls₁, callsMeet_of_forall hQ calls₂⟩
  | .insert _ => rw [CallMeets]; trivial
  | .getConstants => rw [CallMeets]; trivial
  | .tokenFallback _ => rw [CallMeets]; trivial

/-- A condition that always holds is met. -/
theorem callsMeet_of_forall {Q : Msg → Inputs → Outcome → Outcome → Prop}
    (hQ : ∀ msg inputs outcome₁ outcome₂, Q msg inputs outcome₁ outcome₂) (calls : List Call) :
    m.CallsMeet Q calls := by
  match calls with
  | [] => rw [CallsMeet]; trivial
  | call :: calls =>
    rw [CallsMeet]
    exact ⟨callMeets_of_forall hQ call, callsMeet_of_forall hQ calls⟩

end

variable (m) in
/-- A relation between the states before and after calls: it holds across an accepted call which meets
`Q`, if it holds across the code that the call runs, and across insertions. -/
structure CallRelation (Q : Msg → Inputs → Outcome → Outcome → Prop)
    (R : State → State → Prop) : Prop where
  refl : ∀ st, R st st
  trans : ∀ st st' st'', R st st' → R st' st'' → R st st''
  call : ∀ msg inputs run₁ run₂ outcome₁ outcome₂ st st' mv, Q msg inputs outcome₁ outcome₂ →
    (∀ s, R s (run₁ s)) → (∀ s, R s (run₂ s)) →
    m.Commits msg inputs (react run₁ outcome₁) (react run₂ outcome₂) st st' mv → R st st'
  insert : ∀ commitment st st', Mixer.insert commitment st = .ok st' → R st st'

mutual

/-- The relation holds across a call. The induction is over the tree of calls. -/
theorem CallRelation.exec {Q : Msg → Inputs → Outcome → Outcome → Prop}
    {R : State → State → Prop} (hR : m.CallRelation Q R) (call : Call) (hQ : m.CallMeets Q call)
    (st st' : State) (h : exec m call st = .ok st') : R st st' := by
  match call with
  | .mix msg args calls₁ outcome₁ calls₂ outcome₂ =>
    rw [CallMeets] at hQ
    rw [Mixer.exec] at h
    obtain ⟨⟨st₁, mv⟩, hmix, rfl⟩ := Except.map_eq_ok.mp h
    exact hR.call _ _ _ _ _ _ _ _ _ hQ.1 (fun s => CallRelation.runCalls hR calls₁ hQ.2.1 s)
      (fun s => CallRelation.runCalls hR calls₂ hQ.2.2 s) (.mix args hmix rfl)
  | .dispatch msg args calls₁ outcome₁ calls₂ outcome₂ =>
    rw [CallMeets] at hQ
    rw [Mixer.exec] at h
    obtain ⟨⟨st₁, mv⟩, hdispatch, rfl⟩ := Except.map_eq_ok.mp h
    obtain ⟨params, _, hdecode, -, -⟩ := dispatch_cases hdispatch
    exact hR.call _ _ _ _ _ _ _ _ _ (hQ.1 params hdecode)
      (fun s => CallRelation.runCalls hR calls₁ hQ.2.1 s)
      (fun s => CallRelation.runCalls hR calls₂ hQ.2.2 s)
      (.dispatch args params hdispatch hdecode rfl)
  | .insert commitment =>
    rw [Mixer.exec] at h
    exact hR.insert commitment st st' h
  | .getConstants =>
    rw [Mixer.exec] at h
    cases h
    exact hR.refl st
  | .tokenFallback data =>
    rw [Mixer.exec] at h
    obtain ⟨_, -, rfl⟩ := Except.map_eq_ok.mp h
    exact hR.refl st

/-- The relation holds across a run. -/
theorem CallRelation.runCalls {Q : Msg → Inputs → Outcome → Outcome → Prop}
    {R : State → State → Prop} (hR : m.CallRelation Q R) (calls : List Call)
    (hQ : m.CallsMeet Q calls) (st : State) : R st (runCalls m calls st) := by
  match calls with
  | [] =>
    rw [Mixer.runCalls]
    exact hR.refl st
  | call :: calls =>
    rw [CallsMeet] at hQ
    rw [Mixer.runCalls]
    refine hR.trans _ _ _ ?_ (CallRelation.runCalls hR calls hQ.2 _)
    cases h : Mixer.exec m call st with
    | ok st' => exact CallRelation.exec hR call hQ.1 st st' h
    | error e => exact hR.refl st

end

variable (m) in
/-- A property of states that does not depend on the balances and that accepted calls and insertions
keep. -/
structure StepInvariant (P : State → Prop) : Prop where
  balanceFree : BalanceFree P
  accept : ∀ inputs st st', m.Accepts inputs st st' → P st → P st'
  insert : ∀ commitment st st', Mixer.insert commitment st = .ok st' → P st → P st'

namespace StepInvariant

variable {P : State → Prop} (hP : m.StepInvariant P)

include hP

/-- Across calls a step invariant is kept: moving the public values changes balances only. -/
theorem callRelation : m.CallRelation (fun _ _ _ _ => True) fun st st' => P st → P st' where
  refl := fun _ hst => hst
  trans := fun _ _ _ hst hst' h => hst' (hst h)
  call := by
    intro msg inputs run₁ run₂ outcome₁ outcome₂ st st' mv _ hrun₁ hrun₂ hcall hst
    obtain ⟨st₁, hacc, hmove⟩ := hcall.cases
    exact processPublicValues_preserves hP.balanceFree (react_preserves hrun₁ outcome₁)
      (react_preserves hrun₂ outcome₂) hmove
      (hP.accept _ _ _ hacc (hP.balanceFree st _ st.tokenBalance hst))
  insert := hP.insert

/-- Runs keep a step invariant. -/
theorem runCalls (calls : List Call) (st : State) (hst : P st) : P (Mixer.runCalls m calls st) :=
  hP.callRelation.runCalls calls (callsMeet_of_forall (fun _ _ _ _ => trivial) calls) st hst

end StepInvariant

end Zeth.Mixer
