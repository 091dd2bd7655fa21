import Zeth.Client.Sync
import Zeth.Contract.LeafProvenance

/-!
# Wallets follow the contract

The contract emits `LogMix` for every accepted call, with the root of its tree. A wallet inserts the
commitments of these events into a tree of its own and asserts that the two roots are equal. As long
as no leaf is inserted from outside, the roots in the events are those of the commitments emitted so
far, whatever calls are made and however they are nested. So the assertion holds at every height,
and the root of the wallet is one that the contract knows from then on.

The ciphertexts are not checked by the contract; that they have the length of an encrypted note, and
that the own notes have different short commitments and nullifiers, is assumed.

## Main definitions

* `Mixer.EventsRight`: the events emitted have the roots of the leaves so far.
* `Agreement.mixResult`: an event as the wallet reads it.

## Main results

* `Agreement.wallet_follows_contract`.
-/

namespace Zeth

open List

namespace Mixer

open AbstractMerkleTree (depth)

variable {m : Mixer}

variable (m) in
/-- The events hold the leaves of the tree in order, each with the root of those so far, and the
current root is known. -/
structure EventsRight (st : State) : Prop where
  commitments_eq : st.emitted.flatMap LogMix.commitments = st.tree.leaves depth
  length_eq : ∀ e ∈ st.emitted, e.commitments.length = 2
  root_eq : ∀ before e, before ++ [e] <+: st.emitted →
    e.root = PerfectTree.root m.hash 0 depth ((before ++ [e]).flatMap LogMix.commitments)
  root_known : st.roots (PerfectTree.root m.hash 0 depth (st.tree.leaves depth)) = true

theorem eventsRight_deploy : m.EventsRight m.deploy := by
  have hcomplete := @AbstractMerkleTree.complete_initializeTree Word m.hash 0 depth
  refine ⟨rfl, fun e he => absurd he not_mem_nil, fun before e h => ?_, ?_⟩
  · have hnil := prefix_nil.mp h
    exact absurd hnil (append_ne_nil_of_right_ne_nil _ (cons_ne_nil _ _))
  · have hleaves : m.deploy.tree.leaves depth = [] := rfl
    rw [hleaves, ← hcomplete.nodes_zero]
    exact deploy_roots

/-- What an accepted call emits: the root that it records. -/
theorem Accepts.emitted {inputs : Inputs} {st st' : State} (h : m.Accepts inputs st st') :
    ∃ root ciphertexts, st'.recorded = st.recorded ++ [⟨root, st'.tree.leaves depth⟩] ∧
      st'.roots root = true ∧ st'.emitted = st.emitted ++
        [⟨root, m.assembleNullifiers inputs, commitments inputs, ciphertexts⟩] := by
  obtain ⟨ciphertexts, happend⟩ := h.append
  obtain ⟨tree₁, -, hrest⟩ := Except.bind_eq_ok.mp happend
  obtain ⟨⟨tree, root⟩, -, hret⟩ := Except.bind_eq_ok.mp hrest
  cases hret
  exact ⟨root, ciphertexts, rfl, Function.update_self _ _ _, rfl⟩

/-- Without insertions from outside, accepted calls keep the events right. -/
theorem stepInvariant_eventsRight : m.StepInvariant fun st =>
    (Recorded st ∧ m.RootsRight st) ∧ ((∀ c, .inserted c ∉ st.log) → m.EventsRight st) where
  balanceFree := fun st b tb h => ⟨stepInvariant_rootsRight.balanceFree st b tb h.1, fun hnone =>
    ⟨(h.2 hnone).commitments_eq, (h.2 hnone).length_eq, (h.2 hnone).root_eq,
      (h.2 hnone).root_known⟩⟩
  accept := by
    intro inputs st st' hacc h
    have h' := stepInvariant_rootsRight.accept inputs st st' hacc h.1
    refine ⟨h', fun hnone => ?_⟩
    obtain ⟨-, -, -, -, -, -, hlog, -⟩ := hacc.effects
    obtain ⟨root, ciphertexts, hrec, hknown, hemitted⟩ := hacc.emitted
    have hst := h.2 fun c hc => hnone c (hlog ▸ mem_append_left _ hc)
    -- the recorded root is that of the leaves, which are those of the events
    have hroot : root = PerfectTree.root m.hash 0 depth (st'.tree.leaves depth) :=
      (h'.2 hnone).2 ⟨root, _⟩ (hrec ▸ mem_append_right _ mem_cons_self)
    have hleaves : st'.emitted.flatMap LogMix.commitments = st'.tree.leaves depth := by
      rw [h'.1.leaves_eq, hlog, hemitted, flatMap_append, flatMap_append,
        hst.commitments_eq, h.1.1.leaves_eq]
      rfl
    refine ⟨hleaves, fun e he => ?_, fun before e hpre => ?_, hroot ▸ hknown⟩
    · rw [hemitted] at he
      rcases mem_append.mp he with he | he
      · exact hst.length_eq e he
      · obtain rfl := mem_singleton.mp he
        exact length_commitments inputs
    · rw [hemitted] at hpre
      rcases prefix_concat_iff.mp hpre with heq | hpre
      · obtain ⟨-, he⟩ := append_inj' heq rfl
        obtain rfl := singleton_inj.mp he
        rw [heq, ← hemitted, hleaves]
        exact hroot
      · exact hst.root_eq before e hpre
  insert := by
    intro commitment st st' hins h
    refine ⟨stepInvariant_rootsRight.insert commitment st st' hins h.1, fun hnone => ?_⟩
    obtain ⟨tree, -, hret⟩ := Except.bind_eq_ok.mp hins
    cases hret
    exact absurd (mem_append_right _ (mem_singleton_self _)) (hnone commitment)

/-- Roots that are known stay known. -/
theorem stepInvariant_known (root : Word) : m.StepInvariant fun st => st.roots root = true where
  balanceFree := fun _ _ _ h => h
  accept := by
    intro inputs st st' hacc h
    obtain ⟨-, new, -, -, hroots, -⟩ := hacc.effects
    rw [hroots, Function.update_apply, h, ite_self]
  insert := by
    intro commitment st st' hins h
    obtain ⟨tree, -, hret⟩ := Except.bind_eq_ok.mp hins
    cases hret
    exact h

end Mixer

namespace Agreement

open ByteString Client Client.Wallet

open AbstractMerkleTree (depth)

/-- An event as the wallet reads it. -/
def mixResult (e : Zeth.LogMix) : MixResult where
  newMerkleRoot := wordBytes e.root
  nullifiers := e.nullifiers.map wordBytes
  outputEvents := List.zipWith MixOutputEvents.mk (e.commitments.map wordBytes)
    (List.ofFn e.ciphertexts)

theorem outputEvents_mixResult {e : Zeth.LogMix} (h : e.commitments.length = 2) :
    ∃ c c', e.commitments = [c, c'] ∧ (mixResult e).outputEvents =
      [⟨wordBytes c, e.ciphertexts 0⟩, ⟨wordBytes c', e.ciphertexts 1⟩] := by
  obtain ⟨c, c', hc⟩ := length_eq_two.mp h
  refine ⟨c, c', hc, ?_⟩
  rw [mixResult, hc]
  rfl

/-- The wallet reads the commitments of the events. -/
theorem commitment_outputsOf {events : List Zeth.LogMix}
    (h : ∀ e ∈ events, e.commitments.length = 2) :
    (outputsOf (events.map mixResult)).map MixOutputEvents.commitment =
      (events.flatMap LogMix.commitments).map wordBytes := by
  induction events with
  | nil => rfl
  | cons e events ih =>
    obtain ⟨he, hevents⟩ := forall_mem_cons.mp h
    obtain ⟨c, c', hc, houtputs⟩ := outputEvents_mixResult he
    rw [flatMap_cons, map_append, ← ih hevents, hc]
    change ((mixResult e).outputEvents ++ outputsOf (events.map mixResult)).map _ = _
    rw [map_append, houtputs]
    rfl

theorem wordBytes_zero : wordBytes 0 = zeroEntry := rfl

section Run

variable {C : Cryptography} {pp : PairingParameters} {m : Mixer} {hash : Bytes → Bytes → Bytes}
  (hhash : ∀ l r, hash (wordBytes l) (wordBytes r) = wordBytes (m.hash l r))

include hhash

theorem root_map_wordBytes (leaves : List Word) :
    PerfectTree.root hash zeroEntry zethMerkleTreeDepth (leaves.map wordBytes) =
      wordBytes (PerfectTree.root m.hash 0 depth leaves) := by
  rw [← wordBytes_zero]
  exact PerfectTree.root_map hhash 0 _ _

variable {st : Mixer.State}
  (hlength : ∀ e ∈ st.emitted, ∀ i, (e.ciphertexts i).length = encryptedNoteLengthBytes)
  {chain : Chain} {height : ℕ} (hchain : mixResultsOf chain 1 height = st.emitted.map mixResult)
  {aSk : Bytes} {kSkReceiver : C.SecretKey}
  (hshort : (((cliOwner aSk kSkReceiver).received pp 0 (outputsTo chain height)).map
    fun d => shortCommitment d.commitment).Nodup)
  (hnullifiers : (((cliOwner aSk kSkReceiver).received pp 0 (outputsTo chain height)).map
    (cliOwner aSk kSkReceiver).nullifier).Nodup)

include hlength hchain hshort hnullifiers

/-- The events of the contract are ones that a wallet can follow. -/
theorem goodChain_of_eventsRight (hst : m.EventsRight st) (hroom : st.tree.numLeaves ≤ 2 ^ depth) :
    GoodChain pp hash (cliOwner aSk kSkReceiver) (mixResultsOf chain 1 height) := by
  refine ⟨fun before r after hsplit => ?_, ⟨fun outEv hmem => ?_, ?_⟩, hshort, hnullifiers⟩
  · obtain ⟨es, es', hes, rfl, hrest⟩ := map_eq_append_iff.mp (hchain.symm.trans hsplit)
    obtain ⟨e, es', rfl, rfl, rfl⟩ := map_eq_cons_iff.mp hrest
    have hpre : es ++ [e] <+: st.emitted := ⟨es', by rw [hes, append_assoc]; rfl⟩
    have hmap : es.map mixResult ++ [mixResult e] = (es ++ [e]).map mixResult := by
      rw [map_append, map_singleton]
    rw [hmap, commitment_outputsOf fun e he => hst.length_eq e (hpre.subset he),
      root_map_wordBytes hhash, ← hst.root_eq es e hpre]
    rfl
  · rw [hchain] at hmem
    obtain ⟨r, hr, hmem⟩ := mem_flatMap.mp hmem
    obtain ⟨e, he, rfl⟩ := mem_map.mp hr
    obtain ⟨c, c', -, houtputs⟩ := outputEvents_mixResult (hst.length_eq e he)
    rw [houtputs] at hmem
    rcases mem_pair.mp hmem with rfl | rfl
    · exact hlength e he 0
    · exact hlength e he 1
  · have hcount := congrArg List.length (commitment_outputsOf hst.length_eq)
    rw [length_map, length_map, hst.commitments_eq, AbstractMerkleTree.Tree.leaves,
      length_map, length_range, ← hchain] at hcount
    rw [length_nil, Nat.zero_add, hcount]
    exact hroom

/-- **Wallets follow the contract.** After any calls, nested in any way, of which none has inserted
a leaf from outside: a wallet that is synchronised with the blocks of the run, at heights that do
not decrease, never fails. It ends with the leaves of the contract, and with a root that the
contract knows then and after any further calls. -/
theorem wallet_follows_contract {L : Stdlib} {W : Web3} (hvalue : W.Numeral)
    {calls : List Mixer.Call} (hst : Mixer.runCalls m calls m.deploy = st)
    (hnone : ∀ c, .inserted c ∉ st.log) {syncs : List SyncCall}
    (hsorted : (syncs.flatMap SyncCall.heights ++ [height]).Pairwise (· ≤ ·))
    (batchSize : Option ℕ) :
    ∃ (w : Wallet C) (root : Word),
      syncAll L W pp hash aSk kSkReceiver chain (syncs ++ [⟨false, none, height, batchSize⟩]) =
        .ok w ∧
      w.merkleTree = .perfect hash zethMerkleTreeDepth ((st.tree.leaves depth).map wordBytes) ∧
      w.merkleTree.getRoot = .ok (wordBytes root) ∧
      ∀ later, (Mixer.runCalls m later st).roots root = true := by
  obtain ⟨⟨hrec, -⟩, hright⟩ := Mixer.stepInvariant_eventsRight.runCalls calls m.deploy
    ⟨⟨Mixer.recorded_deploy, Mixer.rootsRight_deploy⟩, fun _ => Mixer.eventsRight_deploy⟩
  rw [hst] at hrec hright
  have hright := hright hnone
  have hgood := goodChain_of_eventsRight hhash hlength hchain hshort hnullifiers hright
    hrec.numLeaves_le
  have hheights : (syncs ++ [SyncCall.mk false none height batchSize]).flatMap SyncCall.heights =
      syncs.flatMap SyncCall.heights ++ [height] := flatMap_append
  have hle : ∀ n ∈ syncs.flatMap SyncCall.heights ++ [height], n ≤ height := by
    intro n hn
    rcases mem_append.mp hn with hn | hn
    · exact (pairwise_append.mp hsorted).2.2 n hn height mem_cons_self
    · exact (mem_singleton.mp hn).le
  obtain ⟨w, hok, hw⟩ := exists_syncAll (L := L) hvalue hgood (hheights ▸ hsorted) (hheights ▸ hle)
  rw [hheights, List.getLast?_concat, Option.getD_some] at hw
  have htree := hw.saved.tree
  rw [leavesTo, outputsTo, hchain, commitment_outputsOf hright.length_eq,
    hright.commitments_eq] at htree
  refine ⟨w, _, hok, htree, ?_, fun later =>
    (Mixer.stepInvariant_known _).runCalls later st hright.root_known⟩
  rw [htree, MerkleTree.getRoot_perfect, root_map_wordBytes hhash]

end Run

/-- The state after a call with two commitments that belong to no note. -/
def foreignState : Mixer.State :=
  let m := Mixer.permissive fun _ _ => 0
  Mixer.runCalls m [.mix ⟨0, 0⟩ ⟨[], fun _ => 0, 0, Mixer.copyInputs [0, 0, 0, 1, 2, 0, 0, 0, 0],
    fun _ => (outputOf 36692).ciphertext⟩ [] (.returned 0) [] (.returned 0)] m.deploy

/-- The block with the event of this call. -/
def foreignBlock : Chain := fun n =>
  if n = 1 then [.logMix ⟨zeroEntry, .ofFn fun i => toBig 32 (i.val + 1), .replicate 2 zeroEntry,
    .replicate 2 (outputOf 36692).ciphertext⟩]
  else []

theorem wallet_follows_contract_foreign :
    ∃ (w : Wallet plainCryptography) (root : Word),
      syncAll plainStdlib plainWeb3 altBN128 (fun _ _ => zeroEntry) zeroEntry () foreignBlock
        [⟨false, none, 1, none⟩] = .ok w ∧
      w.merkleTree.getRoot = .ok (wordBytes root) ∧
      ∀ later, (Mixer.runCalls (.permissive fun _ _ => 0) later foreignState).roots root =
        true := by
  have hne : zeroEntry ≠ commitmentOf 36692 := by
    rw [commitmentOf_alike.1]
    decide
  have houtputs : outputsTo foreignBlock 1 = [⟨zeroEntry, (outputOf 36692).ciphertext⟩,
    ⟨zeroEntry, (outputOf 36692).ciphertext⟩] := rfl
  have hnodup {α : Type} (f : ZethNoteDescription → α) : (((plainOwner walletUsername).received
      altBN128 0 (outputsTo foreignBlock 1)).map f).Nodup := by
    simp only [houtputs, Owner.received, own_of_ne walletUsername hne]
    exact nodup_nil
  have hleaves : ∀ e ∈ foreignState.log, e.leaves.length = 2 := by decide +kernel
  obtain ⟨w, root, hok, -, hroot, hknown⟩ := @wallet_follows_contract plainCryptography altBN128
    (.permissive fun _ _ => 0) (fun _ _ => zeroEntry) (fun _ _ => wordBytes_zero.symm) foreignState
    (by decide +kernel) foreignBlock 1 (by decide +kernel) zeroEntry () (hnodup _) (hnodup _)
    plainStdlib plainWeb3 numeral_plainWeb3 _ rfl
    (fun c hc => absurd (hleaves _ hc) (by decide : 1 ≠ 2)) [] (pairwise_singleton _ _) none
  exact ⟨w, root, hok, hroot, hknown⟩

end Agreement

end Zeth
