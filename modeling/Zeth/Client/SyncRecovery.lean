import Zeth.Client.Sync

/-!
# Recovering from a sync that stopped

A run of `do_sync` can stop before it is done: an error of the node is raised between two events, the
process dies between two operations on files, or the root of the last event is not that of the tree. The
wallet should then be opened from its files, and another run should lead to the same outcome as a run
that was not interrupted.

While events are processed, files of notes are written and moved, and the state in the file still is the
one before the run. The next run processes the events again: files of notes that are still to be
received are overwritten, and the file of a note that was received in the same run is written before it
is moved again. But the file of a note that was received in an earlier run is not written again, so when
such a file has been moved the next run raises. Once the state is saved, no event is processed again, so
a wallet whose tree was not saved, or that has seen other events, stays as it is. When the events seen
differ from the right ones in their roots only, that is what it should be.

## Main definitions

* `Wallet.Stop`, `Wallet.Stop.disk`: how a run stops, and the files that it leaves.
* `Wallet.Recovers`: the next run leads to the outcome of an uninterrupted run.
* `Wallet.Stop.Harmless`: the condition for this.

## Main results

* `Wallet.SyncedTo.exists_residue`: what operations on note files leave.
* `Wallet.SyncedTo.syncOnce_sameOutcome_iff`: a run over a residue.
* `Wallet.recovers_of_harmless`: with the converse for errors of the node and deaths of the process.
-/

namespace Zeth.Client

open ByteString Python Stateful List Owner

/-- What is processed of a result: all of it but the root. -/
def MixResult.events (r : MixResult) : List Bytes × List MixOutputEvents :=
  (r.nullifiers, r.outputEvents)

namespace Wallet

variable {C : Cryptography} {L : Stdlib} {W : Web3} {pp : PairingParameters}
  {hash : Bytes → Bytes → Bytes} {o : Owner C} {chain : Chain} {height height' : ℕ} {w : Wallet C}

/-! ### How a run stops -/

/-- How a run stops. -/
inductive Stop where
  /-- The node fails after the given number of events. -/
  | rpcError (numEvents : ℕ)
  /-- The process dies after the given number of operations on files. -/
  | death (numOps : ℕ)
  /-- The node has answered with the events of another chain, and the check of the root fails. -/
  | rootMismatch (seen : Chain)

section Stop

variable (L : Stdlib) (W : Web3) (pp : PairingParameters) (hash : Bytes → Bytes → Bytes)
  (chain : Chain) (batchSize : Option ℕ) (height : ℕ) (w : Wallet C)

/-- The operations on files of a whole run. -/
def runOps : List FileOp :=
  (finalState (syncOnce L W pp hash chain batchSize height w)).journal.drop w.journal.length

/-- The files when a run has stopped. -/
def Stop.disk : Stop → Disk
  | .rpcError numEvents => (finalState (processResults L W pp
      ((getMixResults chain w.state.nextBlock height batchSize).take numEvents) w)).disk
  | .death numOps => w.disk.applyAll ((runOps L W pp hash chain batchSize height w).take numOps)
  | .rootMismatch seen => (finalState (syncOnce L W pp hash seen batchSize height w)).disk

/-- A run stops in this way: the check of the root is reached and fails. -/
def Stop.Occurs : Stop → Prop
  | .rpcError _ => True
  | .death _ => True
  | .rootMismatch seen =>
    (Returns (processResults L W pp (getMixResults seen w.state.nextBlock height batchSize)) w
      fun _ _ => True) ∧
    Raises (syncOnce L W pp hash seen batchSize height) w (.assertionError "")

/-- All note files are still there. -/
def KeepsNoteFiles (before after : Disk) : Prop :=
  ∀ name ∈ before.noteFiles.map Prod.fst, name ∈ after.noteFiles.map Prod.fst

/-- A stop that does no harm: the state has not been saved and no note file has been moved that was
there before the run, or everything has been saved and the events seen were the right ones up to their
roots. -/
def Stop.Harmless (stop : Stop) : Prop :=
  match stop with
  | .rpcError _ => KeepsNoteFiles w.disk (stop.disk L W pp hash chain batchSize height w)
  | .death numOps =>
    ((∀ state, .writeState state ∉ (runOps L W pp hash chain batchSize height w).take numOps) ∧
      KeepsNoteFiles w.disk (stop.disk L W pp hash chain batchSize height w)) ∨
    (runOps L W pp hash chain batchSize height w).length ≤ numOps
  | .rootMismatch seen => (mixResultsOf seen w.state.nextBlock height).map MixResult.events =
      (mixResultsOf chain w.state.nextBlock height).map MixResult.events

/-- The wallet is opened from the files, and a run on the chain leads to the outcome of a run from
the wallet itself. -/
def Recovers (disk : Disk) : Prop :=
  ∃ w₁ w₂ w₃ : Wallet C, doSync L W pp hash chain none height batchSize w = .ok height w₁ ∧
    openWallet hash w.aSk w.kSkReceiver disk = .ok w₂ ∧
    doSync L W pp hash chain none height batchSize w₂ = .ok height w₃ ∧ SameOutcome w₃ w₁

end Stop

/-! ### What operations on note files leave -/

/-- The files after operations on note files: those of notes that were unspent before or that are
received in the run, and in the subdirectory those of notes that were spent or will be. -/
structure FilesLeft (W : Web3) (o : Owner C) (l : Ledger) (received spent : List ZethNoteDescription)
    (disk : Disk) (isNote isSpent : ZethNoteDescription → Prop) : Prop where
  noteFiles : Keyed (o.noteName W) disk.noteFiles isNote
  spentFiles : Keyed (o.noteName W) disk.spentFiles isSpent
  note : ∀ d, isNote d → d ∈ l.unspent ∨ d ∈ received
  kept : ∀ d ∈ l.spent, isSpent d
  moved : ∀ d, isSpent d → d ∈ l.spent ∨ d ∈ spent
  gone : ∀ d ∈ l.unspent, ¬ isNote d → d ∈ spent

/-- Notes of the ledger, received in the run or spent by it have different files. -/
def NamesDiffer (W : Web3) (o : Owner C) (l : Ledger) (received spent : List ZethNoteDescription) :
    Prop :=
  ∀ d ∈ l.unspent ++ l.spent ++ received ++ spent,
    ∀ d' ∈ l.unspent ++ l.spent ++ received ++ spent, o.noteName W d = o.noteName W d' → d = d'

section FilesLeft

variable {l : Ledger} {received spent : List ZethNoteDescription} {disk : Disk}
  {isNote isSpent : ZethNoteDescription → Prop}

/-- One operation. -/
theorem FilesLeft.apply (h : FilesLeft W o l received spent disk isNote isSpent)
    (hinj : NamesDiffer W o l received spent)
    {op : FileOp} (hop : IsNoteOp W o received spent op) :
    ∃ isNote' isSpent', FilesLeft W o l received spent (disk.apply op) isNote' isSpent' := by
  simp only [NamesDiffer, mem_append] at hinj
  rcases hop with ⟨d, hd, rfl⟩ | ⟨d, hd, rfl⟩
  · refine ⟨_, isSpent, h.noteFiles.set fun d' hd' => hinj d' ?_ d (.inl (.inr hd)), h.spentFiles, ?_,
      h.kept, h.moved, fun d' hd' hnot => h.gone d' hd' fun hnote => hnot (.inl hnote)⟩
    · rcases h.note d' hd' with hd' | hd'
      · exact .inl (.inl (.inl hd'))
      · exact .inl (.inr hd')
    · rintro d' (hd' | rfl)
      · exact h.note d' hd'
      · exact .inr hd
  · by_cases hnote : isNote d
    · have hdisk : disk.apply (.moveToSpent (o.noteName W d)) = { disk with
          noteFiles := dictErase disk.noteFiles (o.noteName W d)
          spentFiles := dictSet disk.spentFiles (o.noteName W d) d } := by
        rw [Disk.apply, h.noteFiles.lookup hnote]
      rw [hdisk]
      refine ⟨_, _, h.noteFiles.erase hnote, h.spentFiles.set fun d' hd' => hinj d' ?_ d (.inr hd),
        fun d' hd' => h.note d' hd'.1, fun d' hd' => .inl (h.kept d' hd'), ?_, ?_⟩
      · rcases h.moved d' hd' with hd' | hd'
        · exact .inl (.inl (.inr hd'))
        · exact .inr hd'
      · rintro d' (hd' | rfl)
        · exact h.moved d' hd'
        · exact .inr hd
      · intro d' hd' hnot
        by_cases heq : d' = d
        · rw [heq]
          exact hd
        · exact h.gone d' hd' fun hnote' => hnot ⟨hnote', heq⟩
    · -- there is no file of this name
      have hlookup : disk.noteFiles.lookup (o.noteName W d) = none := by
        refine lookup_eq_none fun hmem => hnote ?_
        obtain ⟨d', hd', heq⟩ := h.noteFiles.mem_keys_iff.mp hmem
        rcases h.note d' hd' with hmem | hmem
        · rwa [← hinj d' (.inl (.inl (.inl hmem))) d (.inr hd) heq]
        · rwa [← hinj d' (.inl (.inr hmem)) d (.inr hd) heq]
      refine ⟨isNote, isSpent, ?_⟩
      rw [Disk.apply, hlookup]
      exact h

/-- Operations one after the other. -/
theorem FilesLeft.applyAll {ops : List FileOp}
    (h : FilesLeft W o l received spent disk isNote isSpent)
    (hinj : NamesDiffer W o l received spent)
    (hops : ∀ op ∈ ops, IsNoteOp W o received spent op) :
    ∃ isNote' isSpent', FilesLeft W o l received spent (disk.applyAll ops) isNote' isSpent' := by
  induction ops generalizing disk isNote isSpent with
  | nil => exact ⟨isNote, isSpent, h⟩
  | cons op ops ih =>
    obtain ⟨isNote', isSpent', h'⟩ := h.apply hinj (hops op mem_cons_self)
    exact ih h' fun op' hop' => hops op' (mem_cons_of_mem _ hop')

variable (disk) in
/-- Operations on note files save nothing else. -/
theorem applyAll_noteOps {ops : List FileOp} (hops : ∀ op ∈ ops, IsNoteOp W o received spent op) :
    (disk.applyAll ops).stateFile = disk.stateFile ∧
      (disk.applyAll ops).treeFile = disk.treeFile := by
  induction ops generalizing disk with
  | nil => exact ⟨rfl, rfl⟩
  | cons op ops ih =>
    have hrest : ((disk.apply op).applyAll ops).stateFile = (disk.apply op).stateFile ∧
        ((disk.apply op).applyAll ops).treeFile = (disk.apply op).treeFile :=
      ih _ fun op' hop' => hops op' (mem_cons_of_mem _ hop')
    have hone : (disk.apply op).stateFile = disk.stateFile ∧
        (disk.apply op).treeFile = disk.treeFile := by
      rcases hops op mem_cons_self with ⟨d, -, rfl⟩ | ⟨d, -, rfl⟩
      · exact ⟨rfl, rfl⟩
      · rw [Disk.apply]
        split
        · exact ⟨rfl, rfl⟩
        · exact ⟨rfl, rfl⟩
    exact ⟨hrest.1.trans hone.1, hrest.2.trans hone.2⟩

end FilesLeft

theorem received_outputsTo (hle : height ≤ height') :
    o.received pp 0 (outputsTo chain height') =
      o.received pp 0 (outputsTo chain height) ++ receivedFrom pp o chain height height' := by
  rw [outputsTo, mixResultsOf_append chain hle, outputsOf, flatMap_append,
    received_append, Nat.zero_add]
  rfl

/-- The operations are on the files of notes that are received or spent in the blocks after a
height. -/
def AreNoteOps (W : Web3) (pp : PairingParameters) (o : Owner C) (chain : Chain) (height height' : ℕ)
    (ops : List FileOp) : Prop :=
  ∀ op ∈ ops, IsNoteOp W o (receivedFrom pp o chain height height') (ledgerTo pp o chain height').spent
    op

section Residue

variable (hvalue : W.Numeral) (hle : height ≤ height')

include hvalue hle

variable (pp o chain) in
theorem namesDiffer_blocks :
    NamesDiffer W o (ledgerTo pp o chain height) (receivedFrom pp o chain height height')
      (ledgerTo pp o chain height').spent := by
  have hall : ∀ d ∈ (ledgerTo pp o chain height).unspent ++ (ledgerTo pp o chain height).spent ++
      receivedFrom pp o chain height height' ++ (ledgerTo pp o chain height').spent,
      d ∈ o.received pp 0 (outputsTo chain height') := by
    intro d hd
    rcases mem_append.mp hd with hd | hd
    · rw [received_outputsTo hle]
      rcases mem_append.mp hd with hd | hd
      · exact mem_append_left _ ((isOf_ledger pp o _).mem_iff.mp hd)
      · exact mem_append_right _ hd
    · exact (isOf_ledger pp o _).mem_iff.mp (mem_append_right _ hd)
  exact fun d hd d' hd' => inj_on_of_nodup_map (nodup_noteName_received hvalue _)
    (hall d hd) (hall d' hd')

/-- **What operations on note files leave**, as a wallet that is opened from the files sees it. -/
theorem SyncedTo.exists_residue (h : SyncedTo W pp hash o .none chain height w)
    (hgood : GoodChain pp hash o (mixResultsOf chain 1 height')) {ops : List FileOp}
    (hops : AreNoteOps W pp o chain height height' ops) :
    ∃ res : Residue, res.Fits pp o (outputsTo chain height') ∧
      SyncedTo W pp hash o res chain height
        { w with disk := w.disk.applyAll ops, journal := [] } ∧
      (∀ d ∈ res.missing, d ∈ (ledgerTo pp o chain height').spent) ∧
      (∀ d ∈ res.moved, d ∈ (ledgerTo pp o chain height').spent) ∧
      (res.missing = ∅ ↔ KeepsNoteFiles w.disk (w.disk.applyAll ops)) := by
  have hledger := isOf_ledger pp o (mixResultsOf chain 1 height)
  have hledger' := isOf_ledger pp o (mixResultsOf chain 1 height')
  have hinj := namesDiffer_blocks pp o chain hvalue hle
  have hnoteFiles := h.holds.noteFiles
  have hspentFiles := h.holds.spentFiles
  rw [Residue.files_none] at hnoteFiles
  rw [Residue.spentFiles_none] at hspentFiles
  have hstart : FilesLeft W o (ledgerTo pp o chain height) (receivedFrom pp o chain height height')
      (ledgerTo pp o chain height').spent w.disk (· ∈ (ledgerTo pp o chain height).unspent)
      (· ∈ (ledgerTo pp o chain height).spent) :=
    ⟨hnoteFiles, hspentFiles, fun d => .inl, fun d => id, fun d => .inl,
      fun d hd hnot => absurd hd hnot⟩
  obtain ⟨isNote, isSpent, hleft⟩ := hstart.applyAll hinj hops
  have hreceived : ∀ d ∈ receivedFrom pp o chain height height',
      d ∈ o.received pp 0 (outputsTo chain height') ∧ (outputsTo chain height).length ≤ d.address :=
    fun d hd => ⟨by rw [received_outputsTo hle]; exact mem_append_right _ hd,
      (isOwn_of_mem_received hd).2.1⟩
  have hspent : ∀ d ∈ (ledgerTo pp o chain height').spent,
      d ∈ o.received pp 0 (outputsTo chain height') := fun d hd =>
    hledger'.mem_iff.mp (mem_append_right _ hd)
  let res : Residue := ⟨{d | d ∈ (ledgerTo pp o chain height).unspent ∧ ¬ isNote d},
    {d | isNote d ∧ d ∈ receivedFrom pp o chain height height'},
    {d | isSpent d ∧ d ∉ (ledgerTo pp o chain height).spent}⟩
  have hmoved : ∀ d ∈ res.moved, d ∈ (ledgerTo pp o chain height').spent := fun d hd =>
    (hleft.moved d hd.1).resolve_left hd.2
  have hmissing : ∀ d ∈ res.missing, d ∈ (ledgerTo pp o chain height').spent := fun d hd =>
    hleft.gone d hd.1 hd.2
  have hfiles : ∀ d, isNote d ↔
      d ∈ res.files (outputsTo chain height).length (ledgerTo pp o chain height) := by
    intro d
    constructor
    · intro hd
      rcases hleft.note d hd with hunspent | hnew
      · exact .inl ⟨hunspent, fun hmiss => hmiss.2 hd⟩
      · exact .inr ⟨⟨hd, hnew⟩, (hreceived d hnew).2⟩
    · rintro (⟨hunspent, hnot⟩ | ⟨hearly, -⟩)
      · exact not_not.mp fun hnote => hnot ⟨hunspent, hnote⟩
      · exact hearly.1
  have hspentIff : ∀ d, isSpent d ↔ d ∈ res.spentFiles (ledgerTo pp o chain height) := by
    intro d
    constructor
    · intro hd
      by_cases hmem : d ∈ (ledgerTo pp o chain height).spent
      · exact .inl hmem
      · exact .inr ⟨hd, hmem⟩
    · rintro (hmem | hmem)
      · exact hleft.kept d hmem
      · exact hmem.1
  obtain ⟨hstate, htree⟩ := applyAll_noteOps w.disk hops
  refine ⟨res, ⟨fun d hd => (hreceived d hd.2).1, fun d hd => hspent d (hmoved d hd), ?_⟩,
    ⟨⟨?_, hledger, fun d hd => hd.1, hleft.noteFiles.congr hfiles,
      hleft.spentFiles.congr hspentIff⟩, ?_, h.nextBlock⟩, hmissing, hmoved, ?_⟩
  · intro d hd d' hd' halike
    exact inj_on_of_nodup_map hgood.shortCommitments hd' (hspent d (hmissing d hd)) halike
  · obtain ⟨howner, ⟨old, new, hpending, hleaves⟩, hlen, hnum, hmap⟩ := h.holds.remembers
    exact ⟨howner, ⟨old, new, ⟨hpending.tree, hpending.nextAddr⟩, hleaves⟩, hlen, hnum, hmap⟩
  · obtain ⟨htree', haddr, hchanged, hstateFile, htreeFile⟩ := h.saved
    exact ⟨htree', haddr, hchanged, hstate ▸ hstateFile, htree ▸ htreeFile⟩
  · constructor
    · intro hempty name hname
      obtain ⟨d, hd, rfl⟩ := hnoteFiles.mem_keys_iff.mp hname
      refine hleft.noteFiles.mem_keys_iff.mpr ⟨d, not_not.mp fun hnot => ?_, rfl⟩
      exact Set.eq_empty_iff_forall_notMem.mp hempty d ⟨hd, hnot⟩
    · intro hkeeps
      refine Set.eq_empty_iff_forall_notMem.mpr fun d hd => hd.2 ?_
      obtain ⟨d', hd', heq⟩ := hleft.noteFiles.mem_keys_iff.mp
        (hkeeps _ (hnoteFiles.mem_keys_iff.mpr ⟨d, hd.1, rfl⟩))
      have hunspent := hd.1
      refine hinj d' ?_ d ?_ heq ▸ hd'
      · rcases hleft.note d' hd' with hunspent' | hnew
        · simp only [mem_append, hunspent', true_or]
        · simp only [mem_append, hnew, true_or, or_true]
      · simp only [mem_append, hunspent, true_or]

end Residue

/-- The file of a note that was unspent and no longer is, is gone. -/
theorem not_keepsNoteFiles_of_spent (hvalue : W.Numeral) (hle : height ≤ height') {w' : Wallet C}
    (h : Holds W pp hash o .none (outputsTo chain height) (ledgerTo pp o chain height) w)
    (h' : Holds W pp hash o .none (outputsTo chain height') (ledgerTo pp o chain height') w')
    {d : ZethNoteDescription} (hd : d ∈ (ledgerTo pp o chain height).unspent)
    (hd' : d ∉ (ledgerTo pp o chain height').unspent) : ¬ KeepsNoteFiles w.disk w'.disk := by
  intro hkeeps
  have hbefore := h.noteFiles
  have hafter := h'.noteFiles
  rw [Residue.files_none] at hbefore hafter
  obtain ⟨d', hunspent, hname⟩ := hafter.mem_keys_iff.mp
    (hkeeps _ (hbefore.mem_keys_iff.mpr ⟨d, hd, rfl⟩))
  have hreceived : d ∈ o.received pp 0 (outputsTo chain height') := by
    rw [received_outputsTo hle]
    exact mem_append_left _ (h.ledger.mem_received hd)
  have heq := inj_on_of_nodup_map (nodup_noteName_received hvalue _)
    (h'.ledger.mem_received hunspent) hreceived hname
  exact hd' (heq ▸ hunspent)

/-! ### A run over a residue -/

section Replay

variable {res : Residue} (husername : Literal o.username) (hvalue : W.Numeral)
  (hgood : GoodChain pp hash o (mixResultsOf chain 1 height'))
  (hfits : res.Fits pp o (outputsTo chain height'))
  (hmoved : ∀ d ∈ res.moved, d ∈ (ledgerTo pp o chain height').spent)

include hfits hmoved in
/-- At the end of the run nothing is left of a residue in which no file is missing. -/
theorem SyncedTo.sameOutcome_of_residue (hmissing : res.missing = ∅) {w' : Wallet C}
    (h : SyncedTo W pp hash o res chain height' w)
    (h' : SyncedTo W pp hash o .none chain height' w') : SameOutcome w w' := by
  have hearly : ∀ d ∈ res.early, ¬ (outputsTo chain height').length ≤ d.address := fun d hd => by
    have hlt := (isOwn_of_mem_received (hfits.early d hd)).2.2
    omega
  have hfiles : ∀ d, d ∈ res.files (outputsTo chain height').length (ledgerTo pp o chain height') ↔
      d ∈ Residue.none.files (outputsTo chain height').length (ledgerTo pp o chain height') := by
    intro d
    rw [Residue.files_none]
    constructor
    · rintro (⟨hd, -⟩ | ⟨hd, hle⟩)
      · exact hd
      · exact absurd hle (hearly d hd)
    · exact fun hd => .inl ⟨hd, hmissing ▸ Set.notMem_empty d⟩
  have hspent : ∀ d, d ∈ res.spentFiles (ledgerTo pp o chain height') ↔
      d ∈ Residue.none.spentFiles (ledgerTo pp o chain height') := by
    intro d
    rw [Residue.spentFiles_none]
    exact ⟨fun hd => hd.elim id (hmoved d), .inl⟩
  exact h.sameOutcome h' hfiles hspent

include husername hvalue hgood hfits

/-- A file that is missing and will be looked for makes the run raise. -/
theorem SyncedTo.syncOnce_raises_of_missing (h : SyncedTo W pp hash o res chain height w)
    (hlt : height < height') (hgone : ∀ d ∈ res.missing, d ∈ (ledgerTo pp o chain height').spent)
    (hmissing : res.missing ≠ ∅) (batchSize : Option ℕ) :
    ∃ e, Raises (Wallet.syncOnce L W pp hash chain batchSize height') w e := by
  have hsplit := mixResultsOf_append chain hlt.le
  have hnodup := hgood.nullifiers
  rw [outputsTo, hsplit] at hfits
  rw [hsplit] at hnodup
  rcases processResults_returns_or_raises (L := L) husername hvalue hfits hnodup h.holds with
    ⟨-, _, w', -, -, -, hholds, -⟩ | ⟨-, e, hraises⟩
  · -- a run that returns leaves the note unspent
    obtain ⟨d, hd⟩ := Set.nonempty_iff_ne_empty.mpr hmissing
    rw [← hsplit] at hholds
    have hdisjoint := (nodup_append.mp hholds.ledger.nodup).2.2
    exact absurd rfl (hdisjoint d (hholds.missing d hd) d (hgone d hd))
  · refine ⟨e, raises_get_bind ?_⟩
    simp only [h.nextBlock, getMixResults_eq]
    rw [if_pos (show height' ≥ height + 1 from hlt)]
    exact hraises.bind _

include hmoved

/-- **A run over a residue** leads to the outcome of a run without one exactly when no file is
missing. -/
theorem SyncedTo.syncOnce_sameOutcome_iff (h : SyncedTo W pp hash o res chain height w)
    (hlt : height < height') (hgone : ∀ d ∈ res.missing, d ∈ (ledgerTo pp o chain height').spent)
    {w₁ : Wallet C} (h₁ : SyncedTo W pp hash o .none chain height' w₁) (batchSize : Option ℕ) :
    (∃ w', Wallet.syncOnce L W pp hash chain batchSize height' w = .ok height' w' ∧
      SameOutcome w' w₁) ↔ res.missing = ∅ := by
  constructor
  · rintro ⟨w', hok, -⟩
    by_contra hmissing
    obtain ⟨e, s, hraises⟩ := SyncedTo.syncOnce_raises_of_missing (L := L) husername hvalue hgood
      hfits h hlt hgone hmissing batchSize
    rw [hok] at hraises
    cases hraises
  · intro hmissing
    obtain ⟨w', hok, h'⟩ := SyncedTo.syncOnce (L := L) husername hvalue hgood hfits hmissing h hlt.le
      batchSize
    exact ⟨w', hok, SyncedTo.sameOutcome_of_residue hfits hmoved hmissing h' h₁⟩

end Replay

/-! ### Stops before the state is saved -/

section Cli

variable (ho : o.username = walletUsername) (hvalue : W.Numeral)
  (hgood : GoodChain pp hash o (mixResultsOf chain 1 height'))
  (h : SyncedTo W pp hash o .none chain height w) (batchSize : Option ℕ)

section Files

variable {disk : Disk} {w₁ w₂ : Wallet C}
  (h₁ : Wallet.syncOnce L W pp hash chain batchSize height' w = .ok height' w₁)
  (hopen : openWallet hash w.aSk w.kSkReceiver disk = .ok w₂)

include h₁ hopen

/-- What it takes to recover from given files: the outcome of the uninterrupted run is fixed. -/
theorem recovers_iff_exists :
    Recovers L W pp hash chain batchSize height' w disk ↔
      ∃ w₃, Wallet.syncOnce L W pp hash chain batchSize height' w₂ = .ok height' w₃ ∧
        SameOutcome w₃ w₁ := by
  constructor
  · rintro ⟨w₁', w₂', w₃, hfull, hopen', hok, hsame⟩
    rw [hopen] at hopen'
    cases hopen'
    have hw₁ : w₁' = w₁ := by
      change Wallet.syncOnce L W pp hash chain batchSize height' w = _ at hfull
      rw [h₁] at hfull
      cases hfull
      rfl
    exact ⟨w₃, hok, hw₁ ▸ hsame⟩
  · rintro ⟨w₃, hok, hsame⟩
    exact ⟨w₁, w₂, w₃, h₁, hopen, hok, hsame⟩

/-- When the state has been saved, the next run changes nothing. -/
theorem recovers_iff_of_lt_nextBlock (hlt : height' < w₂.state.nextBlock) :
    Recovers L W pp hash chain batchSize height' w disk ↔ SameOutcome w₂ w₁ := by
  rw [recovers_iff_exists batchSize h₁ hopen, syncOnce_of_lt_nextBlock hlt]
  constructor
  · rintro ⟨w₃, hok, hsame⟩
    cases hok
    exact hsame
  · exact fun hsame => ⟨w₂, rfl, hsame⟩

end Files

include ho hvalue hgood h

/-- **Files that operations on note files leave**: the next run recovers exactly when the note files
from before the run are all there. -/
theorem SyncedTo.recovers_applyAll_iff (hlt : height < height') {ops : List FileOp}
    (hops : AreNoteOps W pp o chain height height' ops) :
    Recovers L W pp hash chain batchSize height' w (w.disk.applyAll ops) ↔
      KeepsNoteFiles w.disk (w.disk.applyAll ops) := by
  have husername := literal_username ho
  obtain ⟨w₁, hok₁, h₁⟩ := h.syncOnce (L := L) husername hvalue hgood (Residue.fits_none _) rfl hlt.le
    batchSize
  obtain ⟨res, hfits, hres, hgone, hmoved, hkeeps⟩ := h.exists_residue hvalue hlt.le hgood hops
  have hopen : openWallet hash w.aSk w.kSkReceiver (w.disk.applyAll ops) = _ := hres.reopen ho
  rw [recovers_iff_exists batchSize hok₁ hopen, ← hkeeps]
  exact SyncedTo.syncOnce_sameOutcome_iff husername hvalue hgood hfits hmoved hres.clearJournal hlt
    hgone h₁ batchSize

/-- The operations of the first results are among those of all results. -/
theorem SyncedTo.processResults_take (hle : height ≤ height') (numEvents : ℕ) :
    ∃ root w' ops, Wallet.processResults L W pp
        ((mixResultsOf chain (height + 1) height').take numEvents) w = .ok root w' ∧
      w'.disk = w.disk.applyAll ops ∧ AreNoteOps W pp o chain height height' ops := by
  let results := mixResultsOf chain (height + 1) height'
  have hsplit : mixResultsOf chain 1 height' = (mixResultsOf chain 1 height ++
      results.take numEvents) ++ results.drop numEvents := by
    rw [append_assoc, take_append_drop]
    exact mixResultsOf_append chain hle
  have hprefix : GoodChain pp hash o (mixResultsOf chain 1 height ++ results.take numEvents) := by
    rw [hsplit] at hgood
    exact hgood.of_append
  rcases processResults_returns_or_raises (L := L) (literal_username ho) hvalue
      (Residue.fits_none _) hprefix.nullifiers h.holds with
    ⟨-, root, w', hok, -, -, -, hperforms⟩ | ⟨hnot, -⟩
  · obtain ⟨ops, hdisk, -, hops⟩ := hperforms.ops
    refine ⟨root, w', ops, hok, hdisk, fun op hop => (hops op hop).mono ?_ ?_⟩
    · have houtputs : outputsOf results =
          outputsOf (results.take numEvents) ++ outputsOf (results.drop numEvents) := by
        rw [outputsOf, outputsOf, outputsOf, ← flatMap_append, take_append_drop]
      rw [receivedFrom, houtputs, received_append]
      exact subset_append_left _ _
    · rw [ledgerTo, hsplit]
      exact spent_subset_ledger_append pp _ _ _
  · refine absurd (fun done r after hdone => ?_) hnot
    exact hprefix.goodResult (Residue.fits_none _) rfl (by rw [hdone, append_assoc])

/-- An error of the node. -/
theorem SyncedTo.recovers_rpcError_iff (hlt : height < height') (numEvents : ℕ) :
    Recovers L W pp hash chain batchSize height' w
        ((Stop.rpcError numEvents).disk L W pp hash chain batchSize height' w) ↔
      (Stop.rpcError numEvents).Harmless L W pp hash chain batchSize height' w := by
  obtain ⟨root, w', ops, hok, hdisk, hops⟩ :=
    h.processResults_take (L := L) ho hvalue hgood hlt.le numEvents
  have hstop : (Stop.rpcError numEvents).disk L W pp hash chain batchSize height' w =
      w.disk.applyAll ops := by
    rw [Stop.disk, h.nextBlock, getMixResults_eq, hok]
    exact hdisk
  rw [Stop.Harmless, hstop]
  exact h.recovers_applyAll_iff ho hvalue hgood batchSize hlt hops

/-! ### The death of the process -/

/-- The operations of a run: those on note files, then those that save the wallet. -/
theorem SyncedTo.runOps_eq (hlt : height < height') :
    ∃ (w' : Wallet C) (ops : List FileOp), AreNoteOps W pp o chain height height' ops ∧
      w'.disk = w.disk.applyAll ops ∧
      (w'.merkleTreeChanged = true → mixResultsOf chain (height + 1) height' ≠ []) ∧
      runOps L W pp hash chain batchSize height' w =
        ops ++ w'.saveOps hash (leavesTo chain height') (height' + 1) ∧
      Wallet.syncOnce L W pp hash chain batchSize height' w =
        .ok height' (w'.save hash (leavesTo chain height') (height' + 1)) := by
  obtain ⟨w', hholds, hperforms, -, hchanged, hok⟩ := SyncedTo.syncOnce_of_lt (L := L)
    (literal_username ho) hvalue hgood (Residue.fits_none _) rfl h hlt.le hlt batchSize
  obtain ⟨ops, hdisk, hjournal, hops⟩ := hperforms.ops
  refine ⟨w', ops, hops, hdisk, hchanged, ?_, hok⟩
  rw [runOps, hok]
  change (w'.journal ++ w'.saveOps hash (leavesTo chain height') (height' + 1)).drop _ = _
  rw [hjournal, append_assoc, drop_left]

omit ho hvalue hgood in
/-- A wallet whose state was saved and whose tree was not has lost leaves. -/
theorem SyncedTo.not_recovers_of_state_only (hle : height ≤ height')
    (hne : mixResultsOf chain (height + 1) height' ≠ []) {w₁ : Wallet C}
    (hok₁ : Wallet.syncOnce L W pp hash chain batchSize height' w = .ok height' w₁)
    (hsaved₁ : Saved hash (leavesTo chain height') w₁) {disk : Disk} {state : WalletState}
    (hstate : disk.stateFile = some state) (hnext : state.nextBlock = height' + 1)
    (htree : disk.treeFile = w.disk.treeFile) :
    ¬ Recovers L W pp hash chain batchSize height' w disk := by
  have hnum : w.merkleTree.getNumEntries = .ok w.nextAddr := by
    rw [h.saved.tree, MerkleTree.getNumEntries_perfect, h.saved.nextAddr]
  have hopen : openWallet hash w.aSk w.kSkReceiver disk = .ok ⟨walletUsername, w.aSk, w.kSkReceiver,
      state, w.merkleTree, false, w.nextAddr, disk, []⟩ := by
    rw [openWallet, Wallet.init, assert_decide (by decide : '_' ∉ walletUsername.toList),
      Except.ok_bind, htree, h.saved.treeFile, Except.ok_bind, hnum, Except.ok_bind, hstate]
    rfl
  have hlength : (leavesTo chain height').length =
      (leavesTo chain height).length + (outputsOf (mixResultsOf chain (height + 1) height')).length := by
    rw [leavesTo, leavesTo, length_map, length_map, outputsTo,
      mixResultsOf_append chain hle, outputsOf, flatMap_append, length_append]
    rfl
  have hpos : 0 < (outputsOf (mixResultsOf chain (height + 1) height')).length := by
    obtain ⟨r, hr⟩ := exists_mem_of_ne_nil _ hne
    have houtput : 0 < r.outputEvents.length := by
      rw [outputEvents_of_mem_mixResultsOf chain hr]
      decide
    obtain ⟨outEv, hmem⟩ := exists_mem_of_length_pos houtput
    exact length_pos_of_mem (mem_flatMap.mpr ⟨r, hr, hmem⟩)
  rw [recovers_iff_of_lt_nextBlock batchSize hok₁ hopen (by
    change height' < state.nextBlock
    omega)]
  intro hsame
  have haddr : w.nextAddr = w₁.nextAddr := hsame.nextAddr
  rw [h.saved.nextAddr, hsaved₁.nextAddr, hlength] at haddr
  omega

omit hvalue hgood in
/-- The next run after a run that was completed. -/
theorem SyncedTo.recovers_of_completed {w₁ : Wallet C}
    (hok₁ : Wallet.syncOnce L W pp hash chain batchSize height' w = .ok height' w₁)
    (h₁ : SyncedTo W pp hash o .none chain height' w₁) :
    Recovers L W pp hash chain batchSize height' w w₁.disk := by
  have howner : w.owner = w₁.owner := h.holds.remembers.owner.trans h₁.holds.remembers.owner.symm
  have hopen : openWallet hash w.aSk w.kSkReceiver w₁.disk = .ok { w₁ with journal := [] } := by
    rw [show w.aSk = w₁.aSk from congrArg Owner.aSk howner,
      show w.kSkReceiver = w₁.kSkReceiver from congrArg Owner.kSkReceiver howner]
    exact h₁.reopen ho
  rw [recovers_iff_of_lt_nextBlock batchSize hok₁ hopen (by
    change height' < w₁.state.nextBlock
    rw [h₁.nextBlock]
    omega)]
  exact h₁.clearJournal.sameOutcome h₁ (fun _ => .rfl) fun _ => .rfl

/-- The process dies. -/
theorem SyncedTo.recovers_death_iff (hlt : height < height') (numOps : ℕ) :
    Recovers L W pp hash chain batchSize height' w
        ((Stop.death numOps).disk L W pp hash chain batchSize height' w) ↔
      (Stop.death numOps).Harmless L W pp hash chain batchSize height' w := by
  obtain ⟨w₁, hok₁, h₁⟩ := h.syncOnce (L := L) (literal_username ho) hvalue hgood
    (Residue.fits_none _) rfl hlt.le batchSize
  obtain ⟨w', ops, hops, hdisk, hchanged, hrun, hok⟩ :=
    h.runOps_eq (L := L) ho hvalue hgood batchSize hlt
  have hw₁ : w₁ = w'.save hash (leavesTo chain height') (height' + 1) := by
    rw [hok] at hok₁
    cases hok₁
    rfl
  have hnotSave : ∀ op ∈ ops, ∀ state, op ≠ .writeState state := by
    rintro op hop state rfl
    rcases hops _ hop with ⟨d, -, heq⟩ | ⟨d, -, heq⟩
    · cases heq
    · cases heq
  rw [Stop.Harmless, Stop.disk, hrun]
  rcases Nat.lt_or_ge ops.length numOps with hlate | hearly
  · by_cases hall : (ops ++ w'.saveOps hash (leavesTo chain height') (height' + 1)).length ≤ numOps
    · refine iff_of_true ?_ (.inr hall)
      rw [take_of_length_le hall, Disk.applyAll, foldl_append]
      change Recovers L W pp hash chain batchSize height' w
        ((w.disk.applyAll ops).applyAll (w'.saveOps hash (leavesTo chain height') (height' + 1)))
      have hdisk₁ : w₁.disk = w'.disk.applyAll
          (w'.saveOps hash (leavesTo chain height') (height' + 1)) := by
        rw [hw₁]
        rfl
      rw [← hdisk, ← hdisk₁]
      exact h.recovers_of_completed ho batchSize hok₁ h₁
    · -- the tree was to be saved, and only the state is
      have htrue : w'.merkleTreeChanged = true := by
        by_contra hfalse
        rw [saveOps, if_neg hfalse, length_append, length_singleton] at hall
        omega
      rw [saveOps, if_pos htrue] at hall ⊢
      rw [length_append, length_cons, length_singleton] at hall
      obtain rfl : numOps = ops.length + 1 := by omega
      rw [take_length_add_append, take_succ_cons, take_zero]
      refine iff_of_false ?_ ?_
      · have hstate : (w.disk.applyAll (ops ++ [.writeState { w'.state with
            nextBlock := height' + 1 }])).stateFile =
            some { w'.state with nextBlock := height' + 1 } := by
          rw [Disk.applyAll, foldl_append]
          rfl
        refine h.not_recovers_of_state_only batchSize hlt.le (hchanged htrue) hok₁ h₁.saved hstate rfl ?_
        rw [Disk.applyAll, foldl_append]
        exact (applyAll_noteOps w.disk hops).2
      · rintro (⟨hnone, -⟩ | hlength)
        · exact hnone _ (mem_append_right _ mem_cons_self)
        · rw [length_append, length_cons, length_singleton] at hlength
          omega
  · rw [take_append_of_le_length hearly]
    rw [h.recovers_applyAll_iff ho hvalue hgood batchSize hlt fun op hop =>
      hops op (mem_of_mem_take hop)]
    have hnone : ∀ state, FileOp.writeState state ∉ ops.take numOps := fun state hmem =>
      hnotSave _ (mem_of_mem_take hmem) state rfl
    have hmore : ¬ (ops ++ w'.saveOps hash (leavesTo chain height') (height' + 1)).length ≤ numOps := by
      rw [length_append, saveOps, length_cons]
      omega
    rw [or_iff_left hmore, and_iff_right hnone]

end Cli

/-! ### A wrong root -/

section Seen

variable {seen : Chain} {leaves : List Bytes}

/-- Results that differ in their roots only have the same effect on the wallet. -/
theorem processResults_of_events_eq {results results' : List MixResult}
    (heq : results.map MixResult.events = results'.map MixResult.events)
    {root₀ root : Option Bytes} (root₀' : Option Bytes) {w w' : Wallet C}
    (hok : results.foldlM (processResult L W pp) root₀ w = .ok root w') :
    ∃ root', results'.foldlM (processResult L W pp) root₀' w = .ok root' w' := by
  induction results generalizing results' root₀ root₀' w with
  | nil =>
    obtain rfl := map_eq_nil_iff.mp heq.symm
    cases hok
    exact ⟨root₀', rfl⟩
  | cons r results ih =>
    obtain ⟨r', results', rfl, hr, hrest⟩ := map_eq_cons_iff.mp heq.symm
    have hnullifiers : r'.nullifiers = r.nullifiers := congrArg Prod.fst hr
    have houtputs : r'.outputEvents = r.outputEvents := congrArg Prod.snd hr
    rw [foldlM_cons] at hok
    obtain ⟨_, w₁, hstep, hok⟩ := bind_eq_ok hok
    obtain ⟨_, w₂, hreceive, hstep⟩ := bind_eq_ok hstep
    obtain ⟨_, w₃, hmark, hpure⟩ := bind_eq_ok hstep
    cases hpure
    have hstep' : processResult L W pp root₀' r' w = .ok (some r'.newMerkleRoot) w₁ := by
      rw [processResult, houtputs, hnullifiers, bind_of_ok _ hreceive, bind_of_ok _ hmark]
      rfl
    rw [foldlM_cons, bind_of_ok _ hstep']
    exact ih hrest.symm _ hok

/-- The check of the root does not change the wallet. -/
theorem finalState_checkRoot (newMerkleRoot : Option Bytes) (w : Wallet C) :
    finalState (checkRoot newMerkleRoot w) = w := by
  match newMerkleRoot with
  | none => rfl
  | some [] => rfl
  | some (b :: bs) =>
    change finalState ((call w.merkleTree.getRoot >>= _) w) = w
    cases w.merkleTree.getRoot with
    | error e => rfl
    | ok root =>
      change finalState (call (assert (b :: bs == root) "") w) = w
      cases assert (b :: bs == root) "" with
      | error e => rfl
      | ok _ => rfl

/-- A run that processes all events saves the wallet, whatever the root. -/
theorem Savable.finalState_syncOnce {w' : Wallet C} (h : Savable hash leaves w')
    (batchSize : Option ℕ) (hheight : w.state.nextBlock ≤ height') {root : Option Bytes}
    (hprocess : processResults L W pp (mixResultsOf seen w.state.nextBlock height') w =
      .ok root w') :
    finalState (syncOnce L W pp hash seen batchSize height' w) =
      w'.save hash leaves (height' + 1) := by
  have hrun : syncOnce L W pp hash seen batchSize height' w =
      (checkRoot root >>= fun _ => pure height') (w'.save hash leaves (height' + 1)) := by
    change (if height' ≥ w.state.nextBlock then _ else _ : Stateful Exc (Wallet C) ℕ) w = _
    rw [if_pos hheight, getMixResults_eq, bind_of_ok _ hprocess,
      bind_of_ok _ (h.updateAndSaveState (height' + 1))]
  rw [hrun, finalState_bind_pure, finalState_checkRoot]

end Seen

/-- The root of the last event is not that of the tree, but the events were right otherwise. -/
theorem SyncedTo.recovers_rootMismatch (ho : o.username = walletUsername) (hvalue : W.Numeral)
    (hgood : GoodChain pp hash o (mixResultsOf chain 1 height'))
    (h : SyncedTo W pp hash o .none chain height w) (batchSize : Option ℕ) (hlt : height < height')
    {seen : Chain}
    (hseen : (Stop.rootMismatch seen).Harmless L W pp hash chain batchSize height' w) :
    Recovers L W pp hash chain batchSize height' w
      ((Stop.rootMismatch seen).disk L W pp hash chain batchSize height' w) := by
  obtain ⟨w₁, hok₁, h₁⟩ := h.syncOnce (L := L) (literal_username ho) hvalue hgood
    (Residue.fits_none _) rfl hlt.le batchSize
  obtain ⟨w', hprocess, -, -, hsavable, -⟩ := h.processResults (L := L) (literal_username ho) hvalue
    hgood (Residue.fits_none _) rfl hlt.le
  rw [← h.nextBlock] at hprocess
  have hheight : w.state.nextBlock ≤ height' := by
    rw [h.nextBlock]
    exact hlt
  obtain ⟨root, hprocess'⟩ := processResults_of_events_eq hseen.symm none hprocess
  have hw₁ := hsavable.finalState_syncOnce batchSize hheight hprocess
  rw [hok₁] at hw₁
  rw [Stop.disk, hsavable.finalState_syncOnce batchSize hheight hprocess', ← hw₁]
  exact h.recovers_of_completed ho batchSize hok₁ h₁

/-- A run that has no blocks to look at. -/
theorem SyncedTo.recovers_iff_harmless_of_le (ho : o.username = walletUsername)
    (h : SyncedTo W pp hash o .none chain height w) (batchSize : Option ℕ) {stop : Stop}
    (hoccurs : stop.Occurs L W pp hash batchSize height w) :
    Recovers L W pp hash chain batchSize height w
        (stop.disk L W pp hash chain batchSize height w) ↔
      stop.Harmless L W pp hash chain batchSize height w := by
  have hlt : height < w.state.nextBlock := by
    rw [h.nextBlock]
    omega
  have hnoop (chain : Chain) : Wallet.syncOnce L W pp hash chain batchSize height w = .ok height w :=
    syncOnce_of_lt_nextBlock hlt batchSize
  have hrecovers := h.recovers_of_completed ho batchSize (hnoop chain) h
  cases stop with
  | rpcError numEvents =>
    have hstop : (Stop.rpcError numEvents).disk L W pp hash chain batchSize height w = w.disk := by
      rw [Stop.disk, getMixResults_eq, mixResultsOf, getLogs_of_lt chain hlt, filterMap_nil,
        map_nil, take_nil]
      rfl
    rw [Stop.Harmless, hstop]
    exact iff_of_true hrecovers fun name hname => hname
  | death numOps =>
    have hrun : runOps L W pp hash chain batchSize height w = [] := by
      rw [runOps, hnoop]
      exact drop_length
    rw [Stop.Harmless, Stop.disk, hrun, take_nil]
    exact iff_of_true hrecovers (.inr (Nat.zero_le _))
  | rootMismatch seen =>
    obtain ⟨w', hraises⟩ := hoccurs.2
    rw [hnoop] at hraises
    cases hraises

/-- **The next run recovers from the harmless stops**: after any calls of `do_sync`, when a run stops
at any point, the wallet is opened again, and another run is made. From an error of the node and from
the death of the process it recovers in no other case. -/
theorem recovers_of_harmless {aSk : Bytes} {kSkReceiver : C.SecretKey} (hvalue : W.Numeral)
    {calls : List SyncCall} (hcalls : syncAll L W pp hash aSk kSkReceiver chain calls = .ok w)
    (hsorted : (calls.flatMap SyncCall.heights ++ [height]).Pairwise (· ≤ ·))
    (hgood : GoodChain pp hash (cliOwner aSk kSkReceiver) (mixResultsOf chain 1 height))
    (batchSize : Option ℕ) {stop : Stop} (hoccurs : stop.Occurs L W pp hash batchSize height w) :
    (stop.Harmless L W pp hash chain batchSize height w →
      Recovers L W pp hash chain batchSize height w
        (stop.disk L W pp hash chain batchSize height w)) ∧
    ((∀ seen, stop ≠ .rootMismatch seen) →
      Recovers L W pp hash chain batchSize height w
        (stop.disk L W pp hash chain batchSize height w) →
      stop.Harmless L W pp hash chain batchSize height w) := by
  obtain ⟨hbefore, -, hlast⟩ := pairwise_append.mp hsorted
  have hle : ∀ n ∈ calls.flatMap SyncCall.heights, n ≤ height := fun n hn =>
    hlast n hn height mem_cons_self
  obtain ⟨w', hok, h⟩ := exists_syncAll (L := L) hvalue hgood hbefore hle
  have hw : w' = w := Except.ok.inj (hok.symm.trans hcalls)
  subst hw
  have hheight : (calls.flatMap SyncCall.heights).getLast?.getD 0 ≤ height := by
    cases hget : (calls.flatMap SyncCall.heights).getLast? with
    | none => exact Nat.zero_le _
    | some n => exact hle n (mem_of_getLast? hget)
  rcases hheight.lt_or_eq with hlt | heq
  · cases stop with
    | rpcError numEvents =>
      have hiff := h.recovers_rpcError_iff (L := L) rfl hvalue hgood batchSize hlt numEvents
      exact ⟨hiff.mpr, fun _ => hiff.mp⟩
    | death numOps =>
      have hiff := h.recovers_death_iff (L := L) rfl hvalue hgood batchSize hlt numOps
      exact ⟨hiff.mpr, fun _ => hiff.mp⟩
    | rootMismatch seen =>
      exact ⟨h.recovers_rootMismatch rfl hvalue hgood batchSize hlt, fun hne => absurd rfl (hne seen)⟩
  · rw [heq] at h
    have hiff := h.recovers_iff_harmless_of_le rfl batchSize hoccurs
    exact ⟨hiff.mpr, fun _ => hiff.mp⟩

section Plain

/-- A new wallet recovers from an error of the node after the first event. -/
theorem recovers_rpcError_of_new :
    ∃ w : Wallet plainCryptography, syncAll plainStdlib plainWeb3 altBN128 (fun _ _ => zeroEntry)
        zeroEntry () (twoBlocks 36692) [] = .ok w ∧
      Recovers plainStdlib plainWeb3 altBN128 (fun _ _ => zeroEntry) (twoBlocks 36692) none 2 w
        ((Stop.rpcError 1).disk plainStdlib plainWeb3 altBN128 (fun _ _ => zeroEntry)
          (twoBlocks 36692) none 2 w) := by
  obtain ⟨w, hok, h⟩ := exists_syncAll (L := plainStdlib) numeral_plainWeb3 goodChain_twoBlocks
    (by decide : (([] : List SyncCall).flatMap SyncCall.heights).Pairwise (· ≤ ·)) (by decide)
  have hoccurs : (Stop.rpcError 1).Occurs plainStdlib plainWeb3 altBN128 (fun _ _ => zeroEntry) none
    2 w := trivial
  refine ⟨w, hok, (recovers_of_harmless numeral_plainWeb3 hok (pairwise_singleton _ _)
    goodChain_twoBlocks none hoccurs).1 fun name hname => ?_⟩
  have hfiles := h.holds.noteFiles
  rw [Residue.files_none] at hfiles
  obtain ⟨d, hd, -⟩ := hfiles.mem_keys_iff.mp hname
  cases hd

/-- The nullifier of the note in the first block. -/
theorem nullifier_ne_zeroEntry :
    Blake2s.hash (toBig 32 (14 * 2 ^ 252) ++ toBig 32 36692) ≠ zeroEntry := by
  decide +kernel

/-- The note is unspent after the first block, and it is not after the second. -/
theorem mem_unspent_twoBlocks (username : String) :
    descOf 36692 0 ∈ (ledgerTo altBN128 (plainOwner username) (twoBlocks 36692) 1).unspent ∧
      descOf 36692 0 ∉ (ledgerTo altBN128 (plainOwner username) (twoBlocks 36692) 2).unspent := by
  have hone : mixResultsOf (twoBlocks 36692) 1 1 =
      [] ++ [eventArgsToMixResult (receivingEvent 36692)] := rfl
  have htwo : mixResultsOf (twoBlocks 36692) 1 2 =
      [eventArgsToMixResult (receivingEvent 36692)] ++
        [eventArgsToMixResult (spendingEvent 36692)] := rfl
  rw [ledgerTo, ledgerTo, hone, htwo, ledger_concat, ledger_concat,
    Ledger.mem_unspent_useAll, Ledger.mem_unspent_useAll, nullifier_descOf]
  refine ⟨⟨mem_append_right _ ?_, ?_⟩, fun hmem => hmem.2 mem_cons_self⟩
  · change descOf 36692 0 ∈ (plainOwner username).received altBN128 0
      (outputOf 36692 :: [⟨zeroEntry, (outputOf 36692).ciphertext⟩])
    rw [Owner.received, own_outputOf]
    exact mem_cons_self
  · change _ ∉ [zeroEntry, zeroEntry]
    rw [mem_pair, or_self]
    exact nullifier_ne_zeroEntry

/-- A note is received in a first run. The second run has moved its file when the node fails, and the
next run raises. -/
theorem not_recovers_of_moved :
    ∃ w : Wallet plainCryptography, syncAll plainStdlib plainWeb3 altBN128 (fun _ _ => zeroEntry)
        zeroEntry () (twoBlocks 36692) [⟨false, none, 1, none⟩] = .ok w ∧
      GoodChain altBN128 (fun _ _ => zeroEntry) (cliOwner (C := plainCryptography) zeroEntry ())
        (mixResultsOf (twoBlocks 36692) 1 2) ∧
      ¬ Recovers plainStdlib plainWeb3 altBN128 (fun _ _ => zeroEntry) (twoBlocks 36692) none 2 w
        ((Stop.rpcError 1).disk plainStdlib plainWeb3 altBN128 (fun _ _ => zeroEntry)
          (twoBlocks 36692) none 2 w) := by
  have hgood := goodChain_twoBlocks
  let calls : List SyncCall := [⟨false, none, 1, none⟩]
  obtain ⟨w, hok, h⟩ := exists_syncAll (L := plainStdlib) numeral_plainWeb3 hgood
    (by decide : (calls.flatMap SyncCall.heights).Pairwise (· ≤ ·)) (by decide)
  refine ⟨w, hok, hgood, ?_⟩
  change SyncedTo _ _ _ (cliOwner zeroEntry ()) _ _ 1 w at h
  rw [h.recovers_rpcError_iff rfl numeral_plainWeb3 hgood none (by decide)]
  intro hkeeps
  obtain ⟨w', hprocess, hholds, -⟩ := SyncedTo.processResults (L := plainStdlib)
    (literal_username rfl) numeral_plainWeb3 hgood
    (Residue.fits_none _) rfl h one_le_two
  have hstop : (Stop.rpcError 1).disk plainStdlib plainWeb3 altBN128 (fun _ _ => zeroEntry)
      (twoBlocks 36692) none 2 w = w'.disk := by
    have htake : (mixResultsOf (twoBlocks 36692) (1 + 1) 2).take 1 =
        mixResultsOf (twoBlocks 36692) (1 + 1) 2 := rfl
    rw [Stop.disk, h.nextBlock, getMixResults_eq, htake, hprocess]
    rfl
  have howner : plainOwner walletUsername = cliOwner zeroEntry () := rfl
  obtain ⟨hunspent, hspent⟩ := mem_unspent_twoBlocks walletUsername
  rw [howner] at hunspent hspent
  rw [Stop.Harmless, hstop] at hkeeps
  exact not_keepsNoteFiles_of_spent numeral_plainWeb3 one_le_two h.holds hholds hunspent hspent hkeeps

end Plain

end Wallet

end Zeth.Client
