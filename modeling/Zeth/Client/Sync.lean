import Mathlib.Data.PNat.Basic
import Mathlib.Data.Vector.Basic
import Zeth.Client.UnspentNotes

/-!
# Synchronising a wallet

`do_sync` of `client/zeth/cli/utils.py` asks the node for the events of the mixer in the blocks since
the last run, in batches of blocks (`get_event_logs` of `client/zeth/core/contracts.py`), and lets the
wallet process them one after the other. Then the state and the tree of the wallet are saved, and the
root of the tree is compared with that of the last event. A wallet can be opened again from its files.

The node is represented by the logs of the mixer in each block. The generator of the events is the list
of them, and what is only printed is left out.

On a chain whose roots are right, the wallet after any number of runs depends on the height of the last
one only.

## Main definitions

* `getLogs`, `getEventLogs`, `getMixResults`.
* `Wallet.init`, `openWallet`, `Wallet.updateAndSaveState`, `Wallet.syncOnce`, `Wallet.doSync`.
* `Wallet.GoodChain`: the conditions on the events.
* `Wallet.SyncedTo`: the state of a wallet at a height.

## Main results

* `getMixResults_eq`: the batches do not matter.
* `Wallet.Saved.init`: a saved wallet opens as it was.
* `Wallet.SyncedTo.syncOnce`: one run takes the wallet from height to height.
* `Wallet.syncAll_sameOutcome`.
-/

namespace Zeth.Client

open ByteString Python Stateful List

/-! ### The events of the mixer -/

/-- The arguments of the event `LogMix` of the mixer. -/
structure LogMix where
  root : Bytes
  nullifiers : List.Vector Bytes jsInputs
  commitments : List.Vector Bytes jsOutputs
  ciphertexts : List.Vector Bytes jsOutputs

/-- A log of the mixer, by its topic. -/
inductive Log where
  | logMix (args : LogMix)
  | other

/-- The event of a log with the topic of `LogMix`. -/
def Log.logMix? : Log → Option LogMix
  | .logMix args => some args
  | .other => none

/-- The logs of the mixer in the blocks. -/
abbrev Chain := ℕ → List Log

/-- `web3.eth.getLogs`: the logs of an inclusive range of blocks. -/
def getLogs (chain : Chain) (fromBlock toBlock : ℕ) : List Log :=
  (List.range' fromBlock (toBlock + 1 - fromBlock)).flatMap chain

/-- `SYNC_BLOCKS_PER_BATCH`. -/
def syncBlocksPerBatch : ℕ+ := 1000

/-- `batch_size or SYNC_BLOCKS_PER_BATCH`. -/
def batchSizeOrDefault : Option ℕ → ℕ+
  | some (n + 1) => n.succPNat
  | _ => syncBlocksPerBatch

/-- The loop of `get_event_logs`. -/
def getEventLogs (chain : Chain) (startBlock endBlock : ℕ) (batchSize : ℕ+) : List LogMix :=
  if startBlock ≤ endBlock then
    let toBlock := min (startBlock + batchSize - 1) endBlock
    (getLogs chain startBlock toBlock).filterMap Log.logMix? ++
      getEventLogs chain (toBlock + 1) endBlock batchSize
  else []
termination_by endBlock + 1 - startBlock
decreasing_by
  have := batchSize.pos
  omega

/-- `event_args_to_mix_result`. -/
def eventArgsToMixResult (args : LogMix) : MixResult where
  newMerkleRoot := args.root
  nullifiers := args.nullifiers.toList
  outputEvents := List.zipWith MixOutputEvents.mk args.commitments.toList args.ciphertexts.toList

/-- `get_mix_results`. -/
def getMixResults (chain : Chain) (startBlock endBlock : ℕ) (batchSize : Option ℕ) :
    List MixResult :=
  (getEventLogs chain startBlock endBlock (batchSizeOrDefault batchSize)).map eventArgsToMixResult

/-- The results in a range of blocks. -/
def mixResultsOf (chain : Chain) (startBlock endBlock : ℕ) : List MixResult :=
  ((getLogs chain startBlock endBlock).filterMap Log.logMix?).map eventArgsToMixResult

section Events

variable (chain : Chain) {startBlock middle endBlock : ℕ}

theorem getLogs_append (hstart : startBlock ≤ middle + 1) (hend : middle ≤ endBlock) :
    getLogs chain startBlock endBlock =
      getLogs chain startBlock middle ++ getLogs chain (middle + 1) endBlock := by
  have hmiddle : middle + 1 = startBlock + 1 * (middle + 1 - startBlock) := by omega
  have hlength : endBlock + 1 - startBlock =
      (middle + 1 - startBlock) + (endBlock + 1 - (middle + 1)) := by omega
  rw [getLogs, getLogs, getLogs, ← flatMap_append, hlength, ← List.range'_append, ← hmiddle]

theorem getLogs_of_lt (h : endBlock < startBlock) : getLogs chain startBlock endBlock = [] := by
  rw [getLogs, Nat.sub_eq_zero_of_le h]
  rfl

/-- The batches cover the range. -/
theorem getEventLogs_eq (startBlock endBlock : ℕ) (batchSize : ℕ+) :
    getEventLogs chain startBlock endBlock batchSize =
      (getLogs chain startBlock endBlock).filterMap Log.logMix? := by
  fun_induction getEventLogs chain startBlock endBlock batchSize with
  | case1 startBlock hle toBlock ih =>
    have hpos := batchSize.pos
    rw [ih, ← filterMap_append, ← getLogs_append chain (by omega) (by omega)]
  | case2 startBlock hlt => rw [getLogs_of_lt chain (by omega), filterMap_nil]

/-- **The results do not depend on the size of the batches.** -/
theorem getMixResults_eq (startBlock endBlock : ℕ) (batchSize : Option ℕ) :
    getMixResults chain startBlock endBlock batchSize = mixResultsOf chain startBlock endBlock := by
  rw [getMixResults, getEventLogs_eq]
  rfl

theorem mixResultsOf_append (hle : middle ≤ endBlock) : mixResultsOf chain 1 endBlock =
    mixResultsOf chain 1 middle ++ mixResultsOf chain (middle + 1) endBlock := by
  rw [mixResultsOf, getLogs_append chain (Nat.le_add_left 1 middle) hle, filterMap_append, map_append]
  rfl

/-- Every result has outputs. -/
theorem outputEvents_of_mem_mixResultsOf {r : MixResult}
    (h : r ∈ mixResultsOf chain startBlock endBlock) : r.outputEvents.length = jsOutputs := by
  obtain ⟨args, -, rfl⟩ := mem_map.mp h
  simp [eventArgsToMixResult]

end Events

/-! ### Opening and saving -/

theorem MerkleTree.getNumEntries_perfect (hash : Bytes → Bytes → Bytes) (leaves : List Bytes) :
    (perfect hash zethMerkleTreeDepth leaves).getNumEntries = .ok leaves.length := by
  have hlayer : (mixedLayers hash zethMerkleTreeDepth leaves [] zethMerkleTreeDepth)[
      zethMerkleTreeDepth]? = some leaves := by
    refine (getElem?_mixedLayers leaves [] zethMerkleTreeDepth (Nat.zero_le _)).trans ?_
    rw [append_nil, ite_self, layerAt_zero (by decide)]
  rw [getNumEntries, perfect, index_of_getElem? hlayer]
  rfl

namespace Wallet

variable {C : Cryptography} (L : Stdlib) (W : Web3) (pp : PairingParameters)
  (hash : Bytes → Bytes → Bytes)

/-- The constructor of a wallet, with the files of its directory. -/
def init (username : String) (aSk : Bytes) (kSkReceiver : C.SecretKey) (disk : Disk) :
    Except Exc (Wallet C) := do
  assert ('_' ∉ username.toList) ""
  let state := disk.stateFile.getD ⟨1, 0, []⟩
  let merkleTree ← MerkleTree.openFile hash disk.treeFile (2 ^ zethMerkleTreeDepth)
  let nextAddr ← merkleTree.getNumEntries
  return ⟨username, aSk, kSkReceiver, state, merkleTree, false, nextAddr, disk, []⟩

/-- `_save_merkle_tree_if_changed`. -/
def saveMerkleTreeIfChanged : Stateful Exc (Wallet C) Unit := do
  let w ← get
  if w.merkleTreeChanged then
    modify fun w => { w with merkleTreeChanged := false }
    let (merkleTree, _) ← call (MerkleTree.recomputeRoot hash w.merkleTree)
    modify fun w => { w with merkleTree := merkleTree }
    perform (.writeTree merkleTree.treeData.toJsonDict)
  else return ()

/-- `update_and_save_state`. -/
def updateAndSaveState (nextBlock : ℕ) : Stateful Exc (Wallet C) Unit := do
  modify fun w => { w with state := { w.state with nextBlock := nextBlock } }
  let w ← get
  perform (.writeState w.state)
  saveMerkleTreeIfChanged hash

/-- The check at the end of `_do_sync`. -/
def checkRoot : Option Bytes → Stateful Exc (Wallet C) Unit
  | none => return ()
  -- the empty string counts as false
  | some [] => return ()
  | some (b :: bs) => do
    let w ← get
    let ourMerkleRoot ← call w.merkleTree.getRoot
    call (assert (b :: bs == ourMerkleRoot) "")

/-- `_do_sync`, when the number of blocks is the given one. -/
def syncOnce (chain : Chain) (batchSize : Option ℕ) (chainBlockNumber : ℕ) :
    Stateful Exc (Wallet C) ℕ := do
  let w ← get
  let walletNextBlock := w.state.nextBlock
  if chainBlockNumber ≥ walletNextBlock then
    let newMerkleRoot ← processResults L W pp
      (getMixResults chain walletNextBlock chainBlockNumber batchSize)
    updateAndSaveState hash (chainBlockNumber + 1)
    checkRoot newMerkleRoot
    return chainBlockNumber
  else return chainBlockNumber

/-- `do_sync`. With a transaction to wait for, there is a run before the wait, at the first of the
numbers of blocks. -/
def doSync (chain : Chain) (waitTx : Option ℕ) (chainBlockNumber : ℕ) (batchSize : Option ℕ) :
    Stateful Exc (Wallet C) ℕ :=
  match waitTx with
  | some numBefore => do
    let _ ← syncOnce L W pp hash chain batchSize numBefore
    syncOnce L W pp hash chain batchSize chainBlockNumber
  | none => syncOnce L W pp hash chain batchSize chainBlockNumber

end Wallet

/-- `WALLET_USERNAME`. -/
def walletUsername : String := "zeth"

/-- `open_wallet`. -/
def openWallet {C : Cryptography} (hash : Bytes → Bytes → Bytes) (aSk : Bytes)
    (kSkReceiver : C.SecretKey) (disk : Disk) : Except Exc (Wallet C) :=
  Wallet.init hash walletUsername aSk kSkReceiver disk

namespace Wallet

variable {C : Cryptography} {L : Stdlib} {W : Web3} {pp : PairingParameters}
  {hash : Bytes → Bytes → Bytes} {w : Wallet C} {leaves : List Bytes}

/-- The files of the wallet are those of its state and of its tree. -/
structure Saved (hash : Bytes → Bytes → Bytes) (leaves : List Bytes) (w : Wallet C) : Prop where
  tree : w.merkleTree = .perfect hash zethMerkleTreeDepth leaves
  nextAddr : w.nextAddr = leaves.length
  changed : w.merkleTreeChanged = false
  stateFile : w.disk.stateFile.getD ⟨1, 0, []⟩ = w.state
  treeFile : MerkleTree.openFile hash w.disk.treeFile (2 ^ zethMerkleTreeDepth) = .ok w.merkleTree

/-- **A saved wallet opens as it was.** -/
theorem Saved.init (h : Saved hash leaves w) (husername : '_' ∉ w.username.toList) :
    Wallet.init hash w.username w.aSk w.kSkReceiver w.disk = .ok { w with journal := [] } := by
  have hnum : w.merkleTree.getNumEntries = .ok w.nextAddr := by
    rw [h.tree, MerkleTree.getNumEntries_perfect, h.nextAddr]
  rw [Wallet.init, assert_decide husername, Except.ok_bind, h.treeFile, Except.ok_bind, hnum,
    Except.ok_bind, h.stateFile, ← h.changed]
  rfl

theorem Saved.pending (h : Saved hash leaves w) : w.Pending hash leaves [] := by
  refine ⟨h.tree.trans (MerkleTree.pending_nil leaves).symm, ?_⟩
  rw [h.nextAddr, append_nil]

/-- The operations that save a wallet. -/
def saveOps (hash : Bytes → Bytes → Bytes) (leaves : List Bytes) (nextBlock : ℕ) (w : Wallet C) :
    List FileOp :=
  .writeState { w.state with nextBlock := nextBlock } :: if w.merkleTreeChanged then
    [.writeTree (MerkleTree.perfect hash zethMerkleTreeDepth leaves).treeData.toJsonDict] else []

/-- The wallet after it was saved. -/
def save (hash : Bytes → Bytes → Bytes) (leaves : List Bytes) (nextBlock : ℕ) (w : Wallet C) :
    Wallet C :=
  { w with
    state := { w.state with nextBlock := nextBlock }
    merkleTree := .perfect hash zethMerkleTreeDepth leaves
    merkleTreeChanged := false
    disk := w.disk.applyAll (w.saveOps hash leaves nextBlock)
    journal := w.journal ++ w.saveOps hash leaves nextBlock }

/-- The tree of the wallet stands for the leaves, and it will be saved if it is not the saved one. -/
structure Savable (hash : Bytes → Bytes → Bytes) (leaves : List Bytes) (w : Wallet C) : Prop where
  pending : ∃ old new, w.Pending hash old new ∧ old ++ new = leaves
  le : leaves.length ≤ 2 ^ zethMerkleTreeDepth
  unchanged : w.merkleTreeChanged = false → w.merkleTree = .perfect hash zethMerkleTreeDepth leaves ∧
    MerkleTree.openFile hash w.disk.treeFile (2 ^ zethMerkleTreeDepth) = .ok w.merkleTree

theorem Savable.recomputeRoot (h : Savable hash leaves w) :
    MerkleTree.recomputeRoot hash w.merkleTree =
      .ok (.perfect hash zethMerkleTreeDepth leaves,
        PerfectTree.root hash zeroEntry zethMerkleTreeDepth leaves) := by
  obtain ⟨old, new, hpending, rfl⟩ := h.pending
  rw [hpending.tree]
  refine MerkleTree.recomputeRoot_pending (by decide) (.inl (by decide)) h.le (h.le.trans ?_)
  decide

/-- **`update_and_save_state`.** -/
theorem Savable.updateAndSaveState (h : Savable hash leaves w) (nextBlock : ℕ) :
    Wallet.updateAndSaveState hash nextBlock w = .ok () (w.save hash leaves nextBlock) := by
  refine Returns.eq_ok (returns_modify_bind (returns_get_bind (returns_modify_bind
    (returns_get_bind ?_))))
  by_cases hchanged : w.merkleTreeChanged = true
  · rw [if_pos hchanged]
    refine returns_modify_bind (returns_call_bind h.recomputeRoot (returns_modify_bind
      (returns_modify ⟨rfl, ?_⟩)))
    rw [save, saveOps, if_pos hchanged]
    simp [Disk.applyAll]
  · rw [if_neg hchanged]
    have hfalse := Bool.eq_false_iff.mpr hchanged
    refine returns_pure ⟨rfl, ?_⟩
    rw [save, saveOps, if_neg hchanged, ← hfalse, ← (h.unchanged hfalse).1]
    rfl

theorem Savable.nextAddr (h : Savable hash leaves w) : w.nextAddr = leaves.length := by
  obtain ⟨old, new, hpending, rfl⟩ := h.pending
  exact hpending.nextAddr

/-- What was saved is read back. -/
theorem Savable.saved (h : Savable hash leaves w) (nextBlock : ℕ) :
    Saved hash leaves (w.save hash leaves nextBlock) := by
  refine ⟨rfl, h.nextAddr, rfl, ?_, ?_⟩
  · rw [save, saveOps]
    split_ifs <;> rfl
  · rw [save, saveOps]
    split_ifs with hchanged
    · exact MerkleTree.reload_perfect (by decide) leaves
    · obtain ⟨htree, hfile⟩ := h.unchanged (Bool.eq_false_iff.mpr hchanged)
      rw [← htree]
      exact hfile

theorem save_noteFiles (nextBlock : ℕ) :
    (w.save hash leaves nextBlock).disk.noteFiles = w.disk.noteFiles := by
  rw [save, saveOps]
  split_ifs <;> rfl

theorem save_spentFiles (nextBlock : ℕ) :
    (w.save hash leaves nextBlock).disk.spentFiles = w.disk.spentFiles := by
  rw [save, saveOps]
  split_ifs <;> rfl

/-! ### One run -/

section Chain

variable {o : Owner C} {res : Residue} {chain : Chain} {height height' : ℕ}

/-- The outputs in the blocks up to a height. -/
def outputsTo (chain : Chain) (height : ℕ) : List MixOutputEvents :=
  outputsOf (mixResultsOf chain 1 height)

/-- The leaves of the tree at a height. -/
def leavesTo (chain : Chain) (height : ℕ) : List Bytes :=
  (outputsTo chain height).map MixOutputEvents.commitment

/-- The ledger at a height. -/
def ledgerTo (pp : PairingParameters) (o : Owner C) (chain : Chain) (height : ℕ) : Ledger :=
  o.ledger pp (mixResultsOf chain 1 height)

/-- The conditions on results: the root of each of them is that of the leaves so far, for which the
tree has room, all ciphertexts have the expected length, and the own notes have commitments that start
differently and different nullifiers. -/
structure GoodChain (pp : PairingParameters) (hash : Bytes → Bytes → Bytes) (o : Owner C)
    (mixResults : List MixResult) : Prop where
  roots : ∀ before r after, mixResults = before ++ r :: after →
    r.newMerkleRoot = PerfectTree.root hash zeroEntry zethMerkleTreeDepth
      ((outputsOf (before ++ [r])).map MixOutputEvents.commitment)
  receivable : Receivable [] (outputsOf mixResults)
  shortCommitments : ((o.received pp 0 (outputsOf mixResults)).map
    fun d => shortCommitment d.commitment).Nodup
  nullifiers : ((o.received pp 0 (outputsOf mixResults)).map o.nullifier).Nodup

theorem GoodChain.of_append {before after : List MixResult}
    (h : GoodChain pp hash o (before ++ after)) : GoodChain pp hash o before := by
  have houtputs : outputsOf (before ++ after) = outputsOf before ++ outputsOf after :=
    flatMap_append
  obtain ⟨hroots, ⟨hlen, hroom⟩, hshort, hnullifiers⟩ := h
  rw [houtputs] at hlen hroom hshort hnullifiers
  rw [Owner.received_append] at hshort hnullifiers
  refine ⟨fun done r rest hsplit => hroots done r (rest ++ after) ?_, ⟨fun outEv hmem => ?_, ?_⟩,
    hshort.sublist ((sublist_append_left _ _).map _),
    hnullifiers.sublist ((sublist_append_left _ _).map _)⟩
  · rw [hsplit, append_assoc, cons_append]
  · exact hlen outEv (mem_append_left _ hmem)
  · rw [length_append] at hroom
    omega

theorem GoodChain.of_le (h : GoodChain pp hash o (mixResultsOf chain 1 height'))
    (hle : height ≤ height') : GoodChain pp hash o (mixResultsOf chain 1 height) := by
  rw [mixResultsOf_append chain hle] at h
  exact h.of_append

/-- All results are good when no note lacks its file. -/
theorem GoodChain.goodResult {mixResults before after : List MixResult} {r : MixResult}
    (h : GoodChain pp hash o mixResults) (hfits : res.Fits pp o (outputsOf mixResults))
    (hmissing : res.missing = ∅) (hsplit : mixResults = before ++ r :: after) :
    GoodResult pp o res before r := by
  have houtputs : outputsOf mixResults = outputsOf (before ++ [r]) ++ outputsOf after := by
    rw [hsplit, outputsOf, outputsOf, outputsOf, ← flatMap_append, append_assoc]
    rfl
  refine ⟨(receivable_outputsOf_iff mixResults).mp h.receivable before r after hsplit,
    fun ns n ns' _ d hd _ => ⟨hmissing ▸ Set.notMem_empty d, fun d' hd' halike => ?_⟩⟩
  -- all files belong to received notes, whose commitments start differently
  have hledger := ((Owner.isOf_ledger pp o before).receive r.outputEvents).useAll ns
  rw [← outputsOf_concat] at hledger
  rw [houtputs] at hfits
  have hshort := h.shortCommitments
  rw [houtputs] at hshort
  refine inj_on_of_nodup_map hshort (mem_received_of_mem_files hfits hledger hd') ?_ halike
  rw [Owner.received_append]
  exact mem_append_left _ (hledger.mem_received hd)

theorem changedAfter_mixResultsOf {startBlock endBlock : ℕ} {changed : Bool}
    (h : mixResultsOf chain startBlock endBlock ≠ []) :
    changedAfter changed (mixResultsOf chain startBlock endBlock) = true := by
  obtain ⟨r, hr⟩ := Option.ne_none_iff_exists'.mp (mt List.getLast?_eq_none_iff.mp h)
  rw [changedAfter, hr, Option.map_some, Option.getD_some,
    outputEvents_of_mem_mixResultsOf chain (mem_of_getLast? hr)]
  rfl

theorem checkRoot_eq (htree : w.merkleTree = .perfect hash zethMerkleTreeDepth leaves)
    {newMerkleRoot : Option Bytes}
    (hroot : ∀ root ∈ newMerkleRoot, root = PerfectTree.root hash zeroEntry zethMerkleTreeDepth leaves) :
    checkRoot newMerkleRoot w = .ok () w := by
  match newMerkleRoot, hroot with
  | none, _ => rfl
  | some [], _ => rfl
  | some (b :: bs), hroot =>
    have hget : w.merkleTree.getRoot = .ok (b :: bs) := by
      rw [htree, MerkleTree.getRoot_perfect, ← hroot _ rfl]
    have hassert : assert (b :: bs == b :: bs) "" = .ok () := by
      rw [beq_self_eq_true, assert_true]
    refine Returns.eq_ok (returns_get_bind (returns_call_bind hget ?_))
    rw [hassert]
    exact returns_pure ⟨rfl, rfl⟩

theorem GoodChain.root_of_getLast? (hgood : GoodChain pp hash o (mixResultsOf chain 1 height'))
    (hle : height ≤ height') :
    ∀ root ∈ (mixResultsOf chain (height + 1) height').getLast?.map MixResult.newMerkleRoot,
      root = PerfectTree.root hash zeroEntry zethMerkleTreeDepth (leavesTo chain height') := by
  have hsplit := mixResultsOf_append chain hle
  intro root hroot
  obtain ⟨r, hlast, rfl⟩ := Option.map_eq_some_iff.mp hroot
  obtain ⟨done, hdone⟩ := List.getLast?_eq_some_iff.mp hlast
  rw [hdone, ← append_assoc] at hsplit
  rw [hgood.roots _ r [] hsplit, ← hsplit]
  rfl

theorem Holds.save {outs : List MixOutputEvents} {l : Ledger} (h : Holds W pp hash o res outs l w)
    (hsavable : Savable hash (outs.map MixOutputEvents.commitment) w) (nextBlock : ℕ) :
    Holds W pp hash o res outs l (w.save hash (outs.map MixOutputEvents.commitment) nextBlock) := by
  obtain ⟨howner, -, hle, hnum, hmap⟩ := h.remembers
  refine ⟨⟨howner, ⟨_, [], (hsavable.saved nextBlock).pending, append_nil _⟩, hle, hnum, hmap⟩,
    h.ledger, h.missing, ?_, ?_⟩
  · rw [save_noteFiles]
    exact h.noteFiles
  · rw [save_spentFiles]
    exact h.spentFiles

/-- The journal is not looked at. -/
theorem Holds.clearJournal {outs : List MixOutputEvents} {l : Ledger}
    (h : Holds W pp hash o res outs l w) :
    Holds W pp hash o res outs l { w with journal := [] } := by
  obtain ⟨howner, ⟨old, new, hpending, hleaves⟩, hle, hnum, hmap⟩ := h.remembers
  exact ⟨⟨howner, ⟨old, new, ⟨hpending.tree, hpending.nextAddr⟩, hleaves⟩, hle, hnum, hmap⟩,
    h.ledger, h.missing, h.noteFiles, h.spentFiles⟩

/-- The notes received in the blocks after a height. -/
def receivedFrom (pp : PairingParameters) (o : Owner C) (chain : Chain) (height height' : ℕ) :
    List ZethNoteDescription :=
  o.received pp (outputsTo chain height).length (outputsOf (mixResultsOf chain (height + 1) height'))

/-- A wallet is at a height when it holds the ledger of the blocks so far and was saved there. -/
structure SyncedTo (W : Web3) (pp : PairingParameters) (hash : Bytes → Bytes → Bytes) (o : Owner C)
    (res : Residue) (chain : Chain) (height : ℕ) (w : Wallet C) : Prop where
  holds : Holds W pp hash o res (outputsTo chain height) (ledgerTo pp o chain height) w
  saved : Saved hash (leavesTo chain height) w
  nextBlock : w.state.nextBlock = height + 1

/-- A run that has no blocks to look at. -/
theorem syncOnce_of_lt_nextBlock (hlt : height < w.state.nextBlock) (batchSize : Option ℕ) :
    syncOnce L W pp hash chain batchSize height w = .ok height w := by
  refine Returns.eq_ok (returns_get_bind ?_)
  simp only
  rw [if_neg (Nat.not_le.mpr hlt)]
  exact returns_pure ⟨rfl, rfl⟩

section Step

variable (husername : Literal o.username) (hvalue : W.Numeral)
  (hgood : GoodChain pp hash o (mixResultsOf chain 1 height'))
  (hfits : res.Fits pp o (outputsTo chain height')) (hmissing : res.missing = ∅)
  (h : SyncedTo W pp hash o res chain height w) (hle : height ≤ height')

include husername hvalue hgood hfits hmissing h hle

/-- The results of further blocks are processed. -/
theorem SyncedTo.processResults :
    ∃ w', processResults L W pp (mixResultsOf chain (height + 1) height') w =
        .ok ((mixResultsOf chain (height + 1) height').getLast?.map MixResult.newMerkleRoot) w' ∧
      Holds W pp hash o res (outputsTo chain height') (ledgerTo pp o chain height') w' ∧
      Performs W o (receivedFrom pp o chain height height') (ledgerTo pp o chain height').spent w w' ∧
      Savable hash (leavesTo chain height') w' ∧
      (w'.merkleTreeChanged = true → mixResultsOf chain (height + 1) height' ≠ []) := by
  have hsplit := mixResultsOf_append chain hle
  have hnodup := hgood.nullifiers
  have hall : ∀ done r after, mixResultsOf chain (height + 1) height' = done ++ r :: after →
      GoodResult pp o res (mixResultsOf chain 1 height ++ done) r := fun done r after hdone =>
    hgood.goodResult hfits hmissing (by rw [hsplit, hdone, append_assoc])
  rw [outputsTo, hsplit] at hfits
  rw [hsplit] at hnodup
  rcases processResults_returns_or_raises (L := L) husername hvalue hfits hnodup h.holds with
    ⟨-, root, w', hok, rfl, hchanged, hholds, hperforms⟩ | ⟨hnot, -⟩
  · rw [← hsplit] at hholds hperforms
    refine ⟨w', hok, hholds, hperforms, ⟨hholds.remembers.pending, ?_, fun hfalse => ?_⟩,
      fun htrue hnil => ?_⟩
    · rw [leavesTo, length_map]
      exact hholds.remembers.le
    · -- a result sets the flag, so there was none
      have hnil : mixResultsOf chain (height + 1) height' = [] := by
        by_contra hne
        rw [hchanged, changedAfter_mixResultsOf hne] at hfalse
        cases hfalse
      rw [hnil] at hok
      cases hok
      have hleaves : leavesTo chain height' = leavesTo chain height := by
        rw [leavesTo, outputsTo, hsplit, hnil, append_nil]
        rfl
      exact ⟨hleaves ▸ h.saved.tree, h.saved.treeFile⟩
    · rw [hchanged, hnil, changedAfter] at htrue
      exact Bool.false_ne_true (h.saved.changed.symm.trans htrue)
  · exact absurd hall hnot

/-- A run that has blocks to look at: the results are processed, and the wallet is saved. -/
theorem SyncedTo.syncOnce_of_lt (hlt : height < height') (batchSize : Option ℕ) :
    ∃ w', Holds W pp hash o res (outputsTo chain height') (ledgerTo pp o chain height') w' ∧
      Performs W o (receivedFrom pp o chain height height') (ledgerTo pp o chain height').spent w w' ∧
      Savable hash (leavesTo chain height') w' ∧
      (w'.merkleTreeChanged = true → mixResultsOf chain (height + 1) height' ≠ []) ∧
      Wallet.syncOnce L W pp hash chain batchSize height' w =
        .ok height' (w'.save hash (leavesTo chain height') (height' + 1)) := by
  obtain ⟨w', hprocess, hholds, hperforms, hsavable, hchanged⟩ :=
    SyncedTo.processResults (L := L) husername hvalue hgood hfits hmissing h hle
  have hsave := hsavable.updateAndSaveState (height' + 1)
  have hcheck := checkRoot_eq (hsavable.saved (height' + 1)).tree (hgood.root_of_getLast? hle)
  refine ⟨w', hholds, hperforms, hsavable, hchanged, Returns.eq_ok (returns_get_bind ?_)⟩
  simp only [h.nextBlock, getMixResults_eq]
  rw [if_pos (show height' ≥ height + 1 from hlt)]
  exact returns_bind_of_ok hprocess (returns_bind_of_ok hsave (returns_bind_of_ok hcheck
    (returns_pure ⟨rfl, rfl⟩)))

/-- **One run takes the wallet from height to height.** -/
theorem SyncedTo.syncOnce (batchSize : Option ℕ) :
    ∃ w', Wallet.syncOnce L W pp hash chain batchSize height' w = .ok height' w' ∧
      SyncedTo W pp hash o res chain height' w' := by
  rcases Nat.lt_or_ge height height' with hlt | hge
  · obtain ⟨w', hholds, -, hsavable, -, hok⟩ :=
      SyncedTo.syncOnce_of_lt (L := L) husername hvalue hgood hfits hmissing h hle hlt batchSize
    exact ⟨_, hok, hholds.save hsavable _, hsavable.saved _, rfl⟩
  · obtain rfl := Nat.le_antisymm hle hge
    exact ⟨w, syncOnce_of_lt_nextBlock (by rw [h.nextBlock]; omega) batchSize, h⟩

end Step

/-! ### Any number of runs -/

/-- A call of `do_sync`, on a wallet that is kept or opened again. -/
structure SyncCall where
  reopen : Bool
  waitTx : Option ℕ
  chainBlockNumber : ℕ
  batchSize : Option ℕ

/-- The numbers of blocks in the runs of a call. -/
def SyncCall.heights (c : SyncCall) : List ℕ := c.waitTx.toList ++ [c.chainBlockNumber]

/-- The wallet that a call starts from. -/
def reopenIf (hash : Bytes → Bytes → Bytes) (reopen : Bool) (w : Wallet C) : Except Exc (Wallet C) :=
  if reopen then openWallet hash w.aSk w.kSkReceiver w.disk else .ok w

/-- A call of `do_sync`. -/
def syncCall (L : Stdlib) (W : Web3) (pp : PairingParameters) (hash : Bytes → Bytes → Bytes)
    (chain : Chain) (w : Wallet C) (c : SyncCall) : Except Exc (Wallet C) := do
  let w ← reopenIf hash c.reopen w
  match doSync L W pp hash chain c.waitTx c.chainBlockNumber c.batchSize w with
  | .ok _ w => .ok w
  | .error e _ => .error e

/-- Calls of `do_sync` one after the other, on a wallet that starts without files. -/
def syncAll (L : Stdlib) (W : Web3) (pp : PairingParameters) (hash : Bytes → Bytes → Bytes)
    (aSk : Bytes) (kSkReceiver : C.SecretKey) (chain : Chain) (calls : List SyncCall) :
    Except Exc (Wallet C) := do
  calls.foldlM (syncCall L W pp hash chain) (← openWallet hash aSk kSkReceiver .empty)

/-- Two wallets with the same files, map of nullifiers, tree and counters. -/
structure SameOutcome (w w' : Wallet C) : Prop where
  noteFiles : w.disk.noteFiles.Perm w'.disk.noteFiles
  spentFiles : w.disk.spentFiles.Perm w'.disk.spentFiles
  nullifierMap : w.state.nullifierMap = w'.state.nullifierMap
  merkleTree : w.merkleTree = w'.merkleTree
  nextAddr : w.nextAddr = w'.nextAddr
  numNotes : w.state.numNotes = w'.state.numNotes
  nextBlock : w.state.nextBlock = w'.state.nextBlock

/-- The height and the residue determine what the wallet is. -/
theorem SyncedTo.sameOutcome {res' : Residue} {w' : Wallet C}
    (h : SyncedTo W pp hash o res chain height w) (h' : SyncedTo W pp hash o res' chain height w')
    (hfiles : ∀ d, d ∈ res.files (outputsTo chain height).length (ledgerTo pp o chain height) ↔
      d ∈ res'.files (outputsTo chain height).length (ledgerTo pp o chain height))
    (hspent : ∀ d, d ∈ res.spentFiles (ledgerTo pp o chain height) ↔
      d ∈ res'.spentFiles (ledgerTo pp o chain height)) : SameOutcome w w' where
  noteFiles := (h.holds.noteFiles.congr hfiles).perm h'.holds.noteFiles
  spentFiles := (h.holds.spentFiles.congr hspent).perm h'.holds.spentFiles
  nullifierMap := h.holds.remembers.nullifierMap.trans h'.holds.remembers.nullifierMap.symm
  merkleTree := h.saved.tree.trans h'.saved.tree.symm
  nextAddr := h.saved.nextAddr.trans h'.saved.nextAddr.symm
  numNotes := h.holds.remembers.numNotes.trans h'.holds.remembers.numNotes.symm
  nextBlock := h.nextBlock.trans h'.nextBlock.symm

/-- A new wallet is at height zero. -/
theorem syncedTo_new {username : String} {aSk : Bytes} {kSkReceiver : C.SecretKey}
    (hnew : new hash username aSk kSkReceiver = .ok w) :
    SyncedTo W pp hash ⟨username, aSk, kSkReceiver⟩ .none chain 0 w := by
  have hholds : Holds W pp hash ⟨username, aSk, kSkReceiver⟩ .none [] .empty w := holds_new hnew
  obtain ⟨-, rfl⟩ := new_eq_ok_iff.mp hnew
  exact ⟨hholds, ⟨rfl, rfl, rfl, rfl,
    (MerkleTree.openFile_two_pow (by decide) none).trans MerkleTree.emptyWithDepth_eq⟩, rfl⟩

/-- The wallet of `open_wallet`, and its owner. -/
def cliOwner (aSk : Bytes) (kSkReceiver : C.SecretKey) : Owner C :=
  ⟨walletUsername, aSk, kSkReceiver⟩

section Calls

variable (ho : o.username = walletUsername) (hvalue : W.Numeral)
  (hgood : GoodChain pp hash o (mixResultsOf chain 1 height'))

include ho

/-- A wallet at a height opens as it was. -/
theorem SyncedTo.reopen (h : SyncedTo W pp hash o res chain height w) :
    openWallet hash w.aSk w.kSkReceiver w.disk = .ok { w with journal := [] } := by
  have husername := (congrArg Owner.username h.holds.remembers.owner).trans ho
  rw [openWallet, ← show w.username = walletUsername from husername]
  exact h.saved.init (by rw [show w.username = walletUsername from husername]; decide)

/-- The username of the command line has no special characters. -/
theorem literal_username : Literal o.username := by
  rw [ho]
  decide

omit ho in

theorem SyncedTo.clearJournal (h : SyncedTo W pp hash o res chain height w) :
    SyncedTo W pp hash o res chain height { w with journal := [] } := by
  obtain ⟨htree, haddr, hchanged, hstate, hfile⟩ := h.saved
  exact ⟨h.holds.clearJournal, ⟨htree, haddr, hchanged, hstate, hfile⟩, h.nextBlock⟩

include hvalue hgood

/-- A call of `do_sync` at heights that do not decrease. -/
theorem SyncedTo.doSync (h : SyncedTo W pp hash o .none chain height w)
    {waitTx : Option ℕ} {chainBlockNumber : ℕ}
    (hsorted : (height :: (waitTx.toList ++ [chainBlockNumber])).Pairwise (· ≤ ·))
    (hle : chainBlockNumber ≤ height') (batchSize : Option ℕ) :
    ∃ w', doSync L W pp hash chain waitTx chainBlockNumber batchSize w = .ok chainBlockNumber w' ∧
      SyncedTo W pp hash o .none chain chainBlockNumber w' := by
  have hstep {m n : ℕ} (hmn : m ≤ n) (hn : n ≤ height') {w : Wallet C}
      (h : SyncedTo W pp hash o .none chain m w) :=
    h.syncOnce (L := L) (literal_username ho) hvalue (hgood.of_le hn) (Residue.fits_none _) rfl hmn
      batchSize
  match waitTx with
  | none =>
    exact hstep (rel_of_pairwise_cons hsorted mem_cons_self) hle h
  | some numBefore =>
    obtain ⟨hfirst, hrest⟩ := pairwise_cons.mp hsorted
    have hbefore : numBefore ≤ chainBlockNumber :=
      rel_of_pairwise_cons hrest mem_cons_self
    obtain ⟨w₁, hok₁, h₁⟩ := hstep (hfirst _ mem_cons_self) (hbefore.trans hle) h
    obtain ⟨w₂, hok₂, h₂⟩ := hstep hbefore hle h₁
    exact ⟨w₂, Returns.eq_ok (returns_bind_of_ok hok₁ ⟨_, _, hok₂, rfl, rfl⟩), h₂⟩

theorem SyncedTo.syncCall (h : SyncedTo W pp hash o .none chain height w) {c : SyncCall}
    (hsorted : (height :: c.heights).Pairwise (· ≤ ·)) (hle : c.chainBlockNumber ≤ height') :
    ∃ w', syncCall L W pp hash chain w c = .ok w' ∧
      SyncedTo W pp hash o .none chain c.chainBlockNumber w' := by
  obtain ⟨w₀, hopen, h₀⟩ : ∃ w₀, reopenIf hash c.reopen w = .ok w₀ ∧
      SyncedTo W pp hash o .none chain height w₀ := by
    by_cases hreopen : c.reopen = true
    · rw [reopenIf, if_pos hreopen]
      exact ⟨_, h.reopen ho, h.clearJournal⟩
    · rw [reopenIf, if_neg hreopen]
      exact ⟨w, rfl, h⟩
  obtain ⟨w', hok, h'⟩ := h₀.doSync (L := L) ho hvalue hgood hsorted hle c.batchSize
  refine ⟨w', ?_, h'⟩
  rw [Wallet.syncCall, hopen, Except.ok_bind, hok]

/-- Calls one after the other, by induction on them. -/
theorem SyncedTo.foldlM_syncCall {calls : List SyncCall}
    (h : SyncedTo W pp hash o .none chain height w)
    (hsorted : (height :: calls.flatMap SyncCall.heights).Pairwise (· ≤ ·))
    (hle : ∀ n ∈ calls.flatMap SyncCall.heights, n ≤ height') :
    ∃ w', calls.foldlM (Wallet.syncCall L W pp hash chain) w = .ok w' ∧
      SyncedTo W pp hash o .none chain ((calls.flatMap SyncCall.heights).getLast?.getD height) w' := by
  induction calls generalizing height w with
  | nil => exact ⟨w, rfl, h⟩
  | cons c calls ih =>
    rw [flatMap_cons] at hsorted hle ⊢
    have hlast : c.chainBlockNumber ∈ c.heights := mem_append_right _ mem_cons_self
    have hfirst : (height :: c.heights).Pairwise (· ≤ ·) := by
      rw [← cons_append] at hsorted
      exact (pairwise_append.mp hsorted).1
    obtain ⟨w₁, hok, h₁⟩ := h.syncCall (L := L) ho hvalue hgood hfirst
      (hle _ (mem_append_left _ hlast))
    have hrest : (c.chainBlockNumber :: calls.flatMap SyncCall.heights).Pairwise (· ≤ ·) := by
      refine hsorted.sublist (List.Sublist.cons _ ?_)
      rw [SyncCall.heights, append_assoc]
      exact sublist_append_right _ _
    obtain ⟨w', hoks, h'⟩ := ih h₁ hrest fun n hn => hle n (mem_append_right _ hn)
    refine ⟨w', ?_, ?_⟩
    · rw [foldlM_cons, hok]
      exact hoks
    · rw [List.getLast?_append, SyncCall.heights, List.getLast?_concat, Option.getD_or]
      exact h'

end Calls

/-- Calls from a wallet without files: the wallet is at the last of the heights. -/
theorem exists_syncAll {aSk : Bytes} {kSkReceiver : C.SecretKey} (hvalue : W.Numeral)
    (hgood : GoodChain pp hash (cliOwner aSk kSkReceiver) (mixResultsOf chain 1 height'))
    {calls : List SyncCall}
    (hsorted : (calls.flatMap SyncCall.heights).Pairwise (· ≤ ·))
    (hle : ∀ n ∈ calls.flatMap SyncCall.heights, n ≤ height') :
    ∃ w, syncAll L W pp hash aSk kSkReceiver chain calls = .ok w ∧
      SyncedTo W pp hash (cliOwner aSk kSkReceiver) .none chain
        ((calls.flatMap SyncCall.heights).getLast?.getD 0) w := by
  obtain ⟨w₀, hnew⟩ : ∃ w₀ : Wallet C, new hash walletUsername aSk kSkReceiver = .ok w₀ :=
    ⟨_, new_eq_ok_iff.mpr ⟨by decide, rfl⟩⟩
  have hopen : openWallet hash aSk kSkReceiver .empty = .ok w₀ := by
    rw [← hnew, openWallet, init, show Disk.empty.treeFile = none from rfl,
      MerkleTree.openFile_two_pow (by decide)]
    rfl
  have h₀ : SyncedTo W pp hash (cliOwner aSk kSkReceiver) .none chain 0 w₀ := syncedTo_new hnew
  obtain ⟨w, hok, h⟩ := h₀.foldlM_syncCall (L := L) rfl hvalue hgood
    (pairwise_cons.mpr ⟨fun n _ => Nat.zero_le n, hsorted⟩) hle
  refine ⟨w, ?_, h⟩
  rw [syncAll, hopen]
  exact hok

/-- **The outcome of synchronising does not depend on how the chain is cut up**: after calls of
`do_sync` at heights that do not decrease, with any sizes of the batches and on a wallet that is
opened again at will, the wallet is that of a single call at the last height. -/
theorem syncAll_sameOutcome {aSk : Bytes} {kSkReceiver : C.SecretKey} (hvalue : W.Numeral)
    {calls : List SyncCall} (hsorted : (calls.flatMap SyncCall.heights).Pairwise (· ≤ ·))
    (hlast : (calls.flatMap SyncCall.heights).getLast? = some height)
    (hgood : GoodChain pp hash (cliOwner aSk kSkReceiver) (mixResultsOf chain 1 height))
    (batchSize : Option ℕ) :
    ∃ w w' : Wallet C, syncAll L W pp hash aSk kSkReceiver chain calls = .ok w ∧
      syncAll L W pp hash aSk kSkReceiver chain [⟨false, none, height, batchSize⟩] = .ok w' ∧
      SameOutcome w w' ∧ w.state.nextBlock = height + 1 := by
  have hrun {calls : List SyncCall} (hsorted : (calls.flatMap SyncCall.heights).Pairwise (· ≤ ·))
      (hlast : (calls.flatMap SyncCall.heights).getLast? = some height) :
      ∃ w, syncAll L W pp hash aSk kSkReceiver chain calls = .ok w ∧
        SyncedTo W pp hash (cliOwner aSk kSkReceiver) .none chain height w := by
    have hle : ∀ n ∈ calls.flatMap SyncCall.heights, n ≤ height := by
      obtain ⟨before, hbefore⟩ := List.getLast?_eq_some_iff.mp hlast
      rw [hbefore] at hsorted ⊢
      intro n hn
      rcases mem_append.mp hn with hn | hn
      · exact (pairwise_append.mp hsorted).2.2 n hn _ mem_cons_self
      · exact (mem_singleton.mp hn).le
    obtain ⟨w, hok, h⟩ := exists_syncAll (L := L) hvalue hgood hsorted hle
    rw [hlast] at h
    exact ⟨w, hok, h⟩
  obtain ⟨w, hok, h⟩ := hrun hsorted hlast
  obtain ⟨w', hok', h'⟩ := @hrun [⟨false, none, height, batchSize⟩] (pairwise_singleton _ _) rfl
  exact ⟨w, w', hok, hok', h.sameOutcome h' (fun _ => .rfl) fun _ => .rfl, h.nextBlock⟩

end Chain

section Plain

/-- The commitment of a note, and a leaf that is not the commitment of the note it comes with. -/
def receivingEvent (rho : ℕ) : LogMix where
  root := zeroEntry
  nullifiers := ⟨[zeroEntry, zeroEntry], rfl⟩
  commitments := ⟨[commitmentOf rho, zeroEntry], rfl⟩
  ciphertexts := ⟨[(outputOf rho).ciphertext, (outputOf rho).ciphertext], rfl⟩

/-- The note is spent, and two leaves are added that are not commitments of the notes they come with. -/
def spendingEvent (rho : ℕ) : LogMix where
  root := zeroEntry
  nullifiers := ⟨[Blake2s.hash (toBig 32 (14 * 2 ^ 252) ++ toBig 32 rho), zeroEntry], rfl⟩
  commitments := ⟨[zeroEntry, zeroEntry], rfl⟩
  ciphertexts := ⟨[(outputOf rho).ciphertext, (outputOf rho).ciphertext], rfl⟩

/-- A note is received in the first block and spent in the second. -/
def twoBlocks (rho : ℕ) : Chain
  | 1 => [.other, .logMix (receivingEvent rho)]
  | 2 => [.logMix (spendingEvent rho), .other]
  | _ => []

/-- An output whose commitment is not that of its note is not an own one. -/
theorem own_of_ne (username : String) {rho : ℕ} {cm : Bytes} (hne : cm ≠ commitmentOf rho)
    (address : ℕ) :
    (plainOwner username).own altBN128 address ⟨cm, (outputOf rho).ciphertext⟩ = none := by
  have hopen : openNote plainCryptography ⟨cm, (outputOf rho).ciphertext⟩ () = .ok (cm, noteOf rho) := by
    simp only [openNote, decrypt_outputOf, Except.ok_bind, zethNoteFromBytes_noteBytes]
    rfl
  have hreceive : Client.receiveNote plainCryptography ⟨cm, (outputOf rho).ciphertext⟩ () =
      .ok (some (cm, noteOf rho)) := by
    simp only [Client.receiveNote, hopen]
  have hcheck : checkNote cm (noteOf rho) altBN128 = .ok false := by
    rw [checkNote, computeCommitment_noteOf, Except.ok_bind, beq_false_of_ne hne]
    rfl
  have hkey : (plainOwner username).kSkReceiver = () := rfl
  simp only [Owner.own, Owner.ownNote, hkey, hreceive, hcheck]
  rfl

theorem received_twoBlocks (username : String) :
    (plainOwner username).received altBN128 0 (outputsTo (twoBlocks 36692) 2) = [descOf 36692 0] := by
  have hne : zeroEntry ≠ commitmentOf 36692 := by
    rw [commitmentOf_alike.1]
    decide
  have houtputs : outputsTo (twoBlocks 36692) 2 = [outputOf 36692,
      ⟨zeroEntry, (outputOf 36692).ciphertext⟩, ⟨zeroEntry, (outputOf 36692).ciphertext⟩,
      ⟨zeroEntry, (outputOf 36692).ciphertext⟩] := rfl
  rw [houtputs]
  simp only [Owner.received, own_outputOf, own_of_ne username hne]
  rfl

theorem goodChain_twoBlocks :
    GoodChain altBN128 (fun _ _ => zeroEntry) (plainOwner walletUsername)
      (mixResultsOf (twoBlocks 36692) 1 2) := by
  refine ⟨fun before r after hsplit => ?_, ⟨fun outEv hmem => ?_, (by decide : 4 ≤ 2 ^ 32)⟩, ?_, ?_⟩
  · have hr : r ∈ mixResultsOf (twoBlocks 36692) 1 2 :=
      hsplit ▸ mem_append_right _ mem_cons_self
    rcases mem_pair.mp hr with rfl | rfl
    · rfl
    · rfl
  · have hciphertext : outEv.ciphertext = (outputOf 36692).ciphertext := by
      obtain ⟨r, hr, hmem⟩ := mem_flatMap.mp hmem
      rcases mem_pair.mp hr with rfl | rfl
      · rcases mem_pair.mp hmem with rfl | rfl
        · rfl
        · rfl
      · rcases mem_pair.mp hmem with rfl | rfl
        · rfl
        · rfl
    rw [hciphertext]
    exact length_ciphertext_outputOf 36692
  · have hreceived := received_twoBlocks walletUsername
    rw [outputsTo] at hreceived
    rw [hreceived]
    exact nodup_singleton _
  · have hreceived := received_twoBlocks walletUsername
    rw [outputsTo] at hreceived
    rw [hreceived]
    exact nodup_singleton _

/-- Two calls, the second one after a wait and on a wallet that is opened again. -/
def twoCalls : List SyncCall := [⟨false, none, 1, some 1⟩, ⟨true, some 1, 2, none⟩]

theorem syncAll_sameOutcome_twoBlocks :
    GoodChain altBN128 (fun _ _ => zeroEntry) (cliOwner (C := plainCryptography) zeroEntry ())
      (mixResultsOf (twoBlocks 36692) 1 2) ∧
    ∃ w w' : Wallet plainCryptography,
      syncAll plainStdlib plainWeb3 altBN128 (fun _ _ => zeroEntry) zeroEntry () (twoBlocks 36692)
        twoCalls = .ok w ∧
      syncAll plainStdlib plainWeb3 altBN128 (fun _ _ => zeroEntry) zeroEntry () (twoBlocks 36692)
        [⟨false, none, 2, some 7⟩] = .ok w' ∧
      SameOutcome w w' ∧ w.state.nextBlock = 3 :=
  ⟨goodChain_twoBlocks, syncAll_sameOutcome numeral_plainWeb3
    (by decide : (twoCalls.flatMap SyncCall.heights).Pairwise (· ≤ ·)) rfl goodChain_twoBlocks (some 7)⟩

end Plain

end Wallet

end Zeth.Client
