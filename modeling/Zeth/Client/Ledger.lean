import Zeth.Client.WalletNotes

/-!
# The ledger of a wallet

What a wallet should know of its notes is a ledger: the unspent notes in the order in which they were
received, and the spent ones in the order in which they were spent. A result of a call of `mix` adds
the notes in its outputs, and then moves those with one of its nullifiers.

The state of a wallet follows the ledger as long as the outputs can be taken in and, whenever a note is
spent, its file is the only one for a commitment that starts with the same four bytes; otherwise the
wallet raises. The username is assumed to have no character that is special to `glob`.

The files may differ from the ledger by what an earlier run has left behind, a `Residue`: files of
notes that are still to be received, notes that are unspent and have no file, and notes in the
subdirectory that are still to be spent.

## Main definitions

* `Ledger`, `Owner.ledger`: the ledger after results.
* `Wallet.Remembers`: the map of nullifiers is that of the unspent notes.
* `Wallet.Residue`, `Wallet.Holds`: the state of the wallet is that of a ledger, up to a residue.
* `Wallet.Performs`: the operations on files that were performed.
* `Wallet.GoodResult`: a result that can be processed.

## Main results

* `Wallet.findNoteFile_eq_some`: what is found for a commitment.
* `Wallet.Remembers.receive`, `Wallet.Remembers.spend`: the map of nullifiers, whatever the files.
* `Wallet.processResult_returns`, `Wallet.processResult_raises`: one result.
-/

namespace Zeth.Client

open ByteString Python Stateful List Owner

/-- The outputs of results one after the other. -/
def outputsOf (mixResults : List MixResult) : List MixOutputEvents :=
  mixResults.flatMap MixResult.outputEvents

/-- The nullifiers of results one after the other. -/
def nullifiersOf (mixResults : List MixResult) : List Bytes :=
  mixResults.flatMap MixResult.nullifiers

theorem outputsOf_concat (before : List MixResult) (r : MixResult) :
    outputsOf (before ++ [r]) = outputsOf before ++ r.outputEvents := by
  rw [outputsOf, flatMap_append, flatMap_singleton]
  rfl

theorem nullifiersOf_concat (before : List MixResult) (r : MixResult) :
    nullifiersOf (before ++ [r]) = nullifiersOf before ++ r.nullifiers := by
  rw [nullifiersOf, flatMap_append, flatMap_singleton]
  rfl

/-! ### Ledgers -/

/-- The unspent notes in the order of their receipt, the spent ones in the order of their use. -/
structure Ledger where
  unspent : List ZethNoteDescription
  spent : List ZethNoteDescription

namespace Ledger

variable {C : Cryptography}

/-- No notes. -/
def empty : Ledger := ⟨[], []⟩

/-- Notes are received. -/
def receive (l : Ledger) (ds : List ZethNoteDescription) : Ledger :=
  { l with unspent := l.unspent ++ ds }

/-- A nullifier appears. -/
def use (o : Owner C) (l : Ledger) (n : Bytes) : Ledger where
  unspent := l.unspent.filter fun d => o.nullifier d ≠ n
  spent := l.spent ++ l.unspent.filter fun d => o.nullifier d = n

/-- Nullifiers appear one after the other. -/
def useAll (o : Owner C) (l : Ledger) (ns : List Bytes) : Ledger := ns.foldl (use o) l

theorem useAll_concat (o : Owner C) (l : Ledger) (ns : List Bytes) (n : Bytes) :
    l.useAll o (ns ++ [n]) = (l.useAll o ns).use o n := by
  rw [useAll, foldl_append]
  rfl

/-- A note is unspent as long as its nullifier does not appear. -/
theorem mem_unspent_useAll (o : Owner C) (l : Ledger) (ns : List Bytes) (d : ZethNoteDescription) :
    d ∈ (l.useAll o ns).unspent ↔ d ∈ l.unspent ∧ o.nullifier d ∉ ns := by
  induction ns generalizing l with
  | nil => exact (and_iff_left not_mem_nil).symm
  | cons n ns ih =>
    refine (ih (l.use o n)).trans ?_
    rw [use, mem_filter, decide_eq_true_iff, mem_cons, not_or, and_assoc]

/-- The notes of the ledger are the received ones. -/
def IsOf (pp : PairingParameters) (o : Owner C) (outs : List MixOutputEvents) (l : Ledger) : Prop :=
  (l.unspent ++ l.spent).Perm (o.received pp 0 outs)

variable {pp : PairingParameters} {o : Owner C} {outs : List MixOutputEvents} {l : Ledger}

theorem IsOf.receive (h : l.IsOf pp o outs) (outs' : List MixOutputEvents) :
    (l.receive (o.received pp outs.length outs')).IsOf pp o (outs ++ outs') := by
  rw [IsOf, received_append, Nat.zero_add]
  change (l.unspent ++ o.received pp outs.length outs' ++ l.spent).Perm _
  rw [append_assoc]
  refine (List.Perm.append_left _ perm_append_comm).trans ?_
  rw [← append_assoc]
  exact h.append_right _

theorem IsOf.use (h : l.IsOf pp o outs) (n : Bytes) : (l.use o n).IsOf pp o outs := by
  refine List.Perm.trans ?_ h
  change (l.unspent.filter (fun d => o.nullifier d ≠ n) ++
    (l.spent ++ l.unspent.filter fun d => o.nullifier d = n)).Perm _
  have hsplit := filter_append_perm (fun d => decide (o.nullifier d ≠ n)) l.unspent
  have hnot : l.unspent.filter (fun d => !decide (o.nullifier d ≠ n)) =
      l.unspent.filter fun d => o.nullifier d = n :=
    filter_congr fun d _ => by simp
  rw [hnot] at hsplit
  refine (List.Perm.append_left _ perm_append_comm).trans ?_
  rw [← append_assoc]
  exact hsplit.append_right _

theorem IsOf.useAll (h : l.IsOf pp o outs) (ns : List Bytes) : (l.useAll o ns).IsOf pp o outs := by
  induction ns generalizing l with
  | nil => exact h
  | cons n ns ih => exact ih (h.use n)

theorem spent_subset_use (o : Owner C) (l : Ledger) (n : Bytes) : l.spent ⊆ (l.use o n).spent :=
  subset_append_left _ _

theorem spent_subset_useAll (o : Owner C) (l : Ledger) (ns : List Bytes) :
    l.spent ⊆ (l.useAll o ns).spent := by
  induction ns generalizing l with
  | nil => exact List.Subset.refl _
  | cons n ns ih => exact fun d hd => ih _ (l.spent_subset_use o n hd)

theorem IsOf.mem_received (h : l.IsOf pp o outs) {d : ZethNoteDescription} (hd : d ∈ l.unspent) :
    d ∈ o.received pp 0 outs :=
  h.mem_iff.mp (mem_append_left _ hd)

theorem IsOf.isOwn (h : l.IsOf pp o outs) {d : ZethNoteDescription} (hd : d ∈ l.unspent) :
    Owner.IsOwn d :=
  (isOwn_of_mem_received (h.mem_received hd)).1

theorem IsOf.nodup (h : l.IsOf pp o outs) : (l.unspent ++ l.spent).Nodup :=
  h.nodup_iff.mpr (List.Nodup.of_map _ (nodup_address_received 0 outs))

/-- Different notes have different nullifiers when the received ones do. -/
theorem IsOf.nodup_nullifier (h : l.IsOf pp o outs)
    (hnodup : ((o.received pp 0 outs).map o.nullifier).Nodup) :
    ((l.unspent ++ l.spent).map o.nullifier).Nodup :=
  (h.map _).nodup_iff.mpr hnodup

end Ledger

/-! ### Ledgers of results -/

namespace Owner

variable {C : Cryptography} (pp : PairingParameters) (o : Owner C)

/-- The number of outputs and the ledger after one more result. -/
def ledgerStep (s : ℕ × Ledger) (r : MixResult) : ℕ × Ledger :=
  (s.1 + r.outputEvents.length, (s.2.receive (o.received pp s.1 r.outputEvents)).useAll o r.nullifiers)

/-- The ledger after results. -/
def ledger (mixResults : List MixResult) : Ledger :=
  (mixResults.foldl (o.ledgerStep pp) (0, .empty)).2

variable {pp o}

theorem foldl_ledgerStep_fst (mixResults : List MixResult) (s : ℕ × Ledger) :
    (mixResults.foldl (o.ledgerStep pp) s).1 = s.1 + (outputsOf mixResults).length := by
  induction mixResults generalizing s with
  | nil => rfl
  | cons r mixResults ih =>
    have houtputs : outputsOf (r :: mixResults) = r.outputEvents ++ outputsOf mixResults :=
      flatMap_cons
    rw [foldl_cons, ih, houtputs, length_append, ← Nat.add_assoc]
    rfl

theorem ledger_concat (before : List MixResult) (r : MixResult) :
    o.ledger pp (before ++ [r]) =
      ((o.ledger pp before).receive (o.received pp (outputsOf before).length r.outputEvents)).useAll o
        r.nullifiers := by
  have hfst : (before.foldl (o.ledgerStep pp) (0, .empty)).1 = (outputsOf before).length := by
    rw [foldl_ledgerStep_fst, Nat.zero_add]
  rw [ledger, foldl_append, foldl_cons, foldl_nil, ledgerStep, hfst]
  rfl

variable (pp o) in
/-- The notes of the ledger are those in the outputs. -/
theorem isOf_ledger (mixResults : List MixResult) :
    (o.ledger pp mixResults).IsOf pp o (outputsOf mixResults) := by
  induction mixResults using List.reverseRecOn with
  | nil => exact .refl _
  | append_singleton before r ih =>
    rw [ledger_concat, outputsOf_concat]
    exact (ih.receive r.outputEvents).useAll _

variable (pp o) in
/-- A spent note stays spent. -/
theorem spent_subset_ledger_append (before after : List MixResult) :
    (o.ledger pp before).spent ⊆ (o.ledger pp (before ++ after)).spent := by
  induction after using List.reverseRecOn with
  | nil =>
    rw [append_nil]
    exact List.Subset.refl _
  | append_singleton after r ih =>
    rw [← append_assoc, ledger_concat]
    exact fun d hd => Ledger.spent_subset_useAll o ((o.ledger pp _).receive _) _ (ih hd)

end Owner

/-! ### Looking for a file -/

namespace Wallet

variable {C : Cryptography} {L : Stdlib} {W : Web3} {pp : PairingParameters} {o : Owner C}

section Find

variable (husername : Literal o.username) (hvalue : W.Numeral) {w : Wallet C}
  (howner : w.owner = o) {P : ZethNoteDescription → Prop}
  (hfiles : Keyed (o.noteName W) w.disk.noteFiles P) (hown : ∀ d, P d → Owner.IsOwn d)
  {d : ZethNoteDescription}

omit hfiles hown in
/-- The pattern for a commitment, and what is made of the files that match it. -/
theorem findNoteFile_shortCommitment (howner : w.owner = o) {cm : Bytes} (hcm : cm.length = 32) :
    findNoteFile L w (shortCommitment cm) = globOne L w
      ("note_" ++ o.username ++ "_*_" ++ shortCommitment cm ++ "_*") := by
  have hlength : ¬ (shortCommitment cm).length < 5 := by
    rw [shortCommitment, length_hex, length_take, hcm]
    decide
  rw [findNoteFile, if_neg hlength, ← howner]
  rfl

include husername hvalue howner hfiles hown

/-- The file of a note is found when no other file starts alike. -/
theorem findNoteFile_eq_some (hd : P d)
    (hunique : ∀ d', P d' → shortCommitment d'.commitment = shortCommitment d.commitment → d' = d) :
    findNoteFile L w (shortCommitment d.commitment) = some (o.noteName W d) := by
  have hcandidates := hfiles.filter_keys_of_unique hd
    ((fnmatch_noteName L husername hvalue (hown d hd).isHex d.commitment).mpr rfl)
    fun d' hd' hmatch => hunique d' hd'
      ((fnmatch_noteName L husername hvalue (hown d' hd').isHex d.commitment).mp hmatch)
  rw [findNoteFile_shortCommitment howner (hown d hd).length, globOne, hcandidates]
  rfl

/-- No file is found when the file of another note starts alike. -/
theorem findNoteFile_eq_none {d' : ZethNoteDescription} (hd : P d) (hd' : P d') (hne : d' ≠ d)
    (halike : shortCommitment d'.commitment = shortCommitment d.commitment) :
    findNoteFile L w (shortCommitment d.commitment) = none := by
  rw [findNoteFile_shortCommitment howner (hown d hd).length, globOne]
  refine if_neg fun hone => hne ?_
  exact hfiles.eq_of_filter_keys hone hd
    ((fnmatch_noteName L husername hvalue (hown d hd).isHex d.commitment).mpr rfl) hd'
    ((fnmatch_noteName L husername hvalue (hown d' hd').isHex d.commitment).mpr halike)

/-- No file is found when none starts alike. -/
theorem findNoteFile_eq_none_of_missing (hlength : d.commitment.length = 32)
    (hmissing : ∀ d', P d' → shortCommitment d'.commitment ≠ shortCommitment d.commitment) :
    findNoteFile L w (shortCommitment d.commitment) = none := by
  have hcandidates : (w.disk.noteFiles.map Prod.fst).filter
      (L.fnmatch ("note_" ++ o.username ++ "_*_" ++ shortCommitment d.commitment ++ "_*")) = [] := by
    refine filter_eq_nil_iff.mpr fun name hname hmatch => ?_
    obtain ⟨d', hd', rfl⟩ := hfiles.mem_keys_iff.mp hname
    exact hmissing d' hd'
      ((fnmatch_noteName L husername hvalue (hown d' hd').isHex d.commitment).mp hmatch)
  rw [findNoteFile_shortCommitment howner hlength, globOne, hcandidates]
  rfl

end Find

/-! ### What the wallet remembers -/

/-- The wallet has taken in the outputs, and its map of nullifiers is that of the given notes. -/
structure Remembers (hash : Bytes → Bytes → Bytes) (o : Owner C) (outs : List MixOutputEvents)
    (unspent : List ZethNoteDescription) (w : Wallet C) : Prop where
  owner : w.owner = o
  pending : ∃ old new, w.Pending hash old new ∧ old ++ new = outs.map MixOutputEvents.commitment
  le : outs.length ≤ 2 ^ zethMerkleTreeDepth
  numNotes : w.state.numNotes = outs.length
  nullifierMap : w.state.nullifierMap = unspent.map o.entry

variable {hash : Bytes → Bytes → Bytes} {outs : List MixOutputEvents}
  {unspent : List ZethNoteDescription} {w : Wallet C}

section Remembers

variable (h : Remembers hash o outs unspent w)

include h

/-- Outputs that can be taken in. -/
theorem Remembers.receive {outs' : List MixOutputEvents}
    (hnodup : ((unspent ++ o.received pp outs.length outs').map o.nullifier).Nodup)
    (hrec : Receivable (outs.map MixOutputEvents.commitment) outs') :
    ∃ w', receiveNotes W pp outs' w = .ok (o.received pp outs.length outs') w' ∧
      Remembers hash o (outs ++ outs') (unspent ++ o.received pp outs.length outs') w' ∧
      w'.disk = w.disk.applyAll (o.writes W (o.received pp outs.length outs')) ∧
      w'.journal = w.journal ++ o.writes W (o.received pp outs.length outs') ∧
      w'.merkleTreeChanged = (outs'.length != 0) ∧
      w'.state.nextBlock = w.state.nextBlock := by
  obtain ⟨old, new, hpending, hleaves⟩ := h.pending
  have howner := h.owner
  subst howner
  have haddr : w.nextAddr = outs.length := by rw [hpending.nextAddr, hleaves, length_map]
  have hkeys := hnodup.map hex_injective
  rw [map_map, map_append] at hkeys
  rw [← hleaves] at hrec
  have hreceive := receiveNotes_eq W pp hpending hrec
  refine ⟨w.receive W pp hash old new outs', haddr ▸ hreceive, ⟨rfl, ⟨old, _,
    hpending.receive W pp outs', by rw [map_append, ← hleaves, append_assoc]⟩, ?_, ?_, ?_⟩,
    haddr ▸ rfl, haddr ▸ rfl, rfl, rfl⟩
  · rw [length_append, ← length_map MixOutputEvents.commitment, ← hleaves]
    exact hrec.2
  · rw [length_append, ← h.numNotes]
    rfl
  · change (w.owner.received pp w.nextAddr outs').foldl _ w.state.nullifierMap = _
    rw [h.nullifierMap, haddr, map_append]
    refine foldl_dictSet (fun d => hex (w.owner.nullifier d))
      (fun d => shortCommitment d.commitment) _ ?_
    rw [map_map]
    exact hkeys

/-- Outputs that cannot be taken in. -/
theorem Remembers.receiveNotes_raises {outs' : List MixOutputEvents}
    (hrec : ¬ Receivable (outs.map MixOutputEvents.commitment) outs') :
    ∃ e, Raises (receiveNotes W pp outs') w e := by
  obtain ⟨old, new, hpending, hleaves⟩ := h.pending
  rw [← hleaves] at hrec
  refine Wallet.receiveNotes_raises W pp hpending ?_ hrec
  rw [hleaves, length_map]
  exact h.le

variable {n : Bytes}

/-- A nullifier of none of the notes is not in the map. -/
theorem Remembers.lookup_eq_none (hn : ∀ d ∈ unspent, o.nullifier d ≠ n) :
    w.state.nullifierMap.lookup (hex n) = none := by
  refine Python.lookup_eq_none fun hmem => ?_
  rw [h.nullifierMap, map_map] at hmem
  obtain ⟨d, hd, hhex⟩ := mem_map.mp hmem
  exact hn d hd (hex_injective hhex)

variable {d : ZethNoteDescription} (hnodup : (unspent.map o.nullifier).Nodup) (hd : d ∈ unspent)

include hnodup hd

theorem Remembers.lookup_nullifier :
    w.state.nullifierMap.lookup (hex (o.nullifier d)) = some (shortCommitment d.commitment) := by
  rw [h.nullifierMap]
  refine lookup_of_mem ?_ (mem_map_of_mem (f := o.entry) hd)
  have hkeys := hnodup.map hex_injective
  rw [map_map] at hkeys ⊢
  exact hkeys

omit hnodup hd in
/-- A note whose file was found is forgotten. -/
theorem Remembers.spend (n : Bytes) (noteFile : String) :
    Remembers hash o outs (unspent.filter fun d => o.nullifier d ≠ n) (w.spend n noteFile) := by
  obtain ⟨old, new, hpending, hleaves⟩ := h.pending
  refine ⟨h.owner, ⟨old, new, hpending.spend _ _, hleaves⟩, h.le, h.numNotes, ?_⟩
  change dictErase w.state.nullifierMap _ = _
  rw [h.nullifierMap, dictErase, filter_map]
  refine congrArg (List.map _) (filter_congr fun d' _ => ?_)
  exact decide_eq_decide.mpr (not_congr hex_injective.eq_iff)

variable (hown : Owner.IsOwn d) (commits : List String)

include hown

theorem Remembers.markNullifier_of_some {noteFile : String}
    (hfind : findNoteFile L w (shortCommitment d.commitment) = some noteFile) :
    markNullifier L commits (o.nullifier d) w =
      .ok (commits ++ [shortCommitment d.commitment]) (w.spend (o.nullifier d) noteFile) :=
  Wallet.markNullifier_of_some (h.lookup_nullifier hnodup hd) hown.shortCommitment_ne_empty hfind
    commits

theorem Remembers.markNullifier_raises
    (hfind : findNoteFile L w (shortCommitment d.commitment) = none) :
    Raises (markNullifier L commits (o.nullifier d)) w
      (.exception ("expected to find file for commit " ++ shortCommitment d.commitment)) :=
  Wallet.markNullifier_raises (h.lookup_nullifier hnodup hd) hown.shortCommitment_ne_empty hfind
    commits

end Remembers

/-! ### Operations on note files -/

/-- The file of one of the first notes is written, or that of one of the second is moved. -/
def IsNoteOp (W : Web3) (o : Owner C) (received spent : List ZethNoteDescription) (op : FileOp) :
    Prop :=
  (∃ d ∈ received, op = .writeNote (o.noteName W d) d) ∨
    ∃ d ∈ spent, op = .moveToSpent (o.noteName W d)

/-- Between the two states, note files were written and moved and nothing else was saved. -/
structure Performs (W : Web3) (o : Owner C) (received spent : List ZethNoteDescription)
    (w w' : Wallet C) : Prop where
  nextBlock : w'.state.nextBlock = w.state.nextBlock
  ops : ∃ ops, w'.disk = w.disk.applyAll ops ∧ w'.journal = w.journal ++ ops ∧
    ∀ op ∈ ops, IsNoteOp W o received spent op

section Performs

variable {received spent : List ZethNoteDescription} {w w' w'' : Wallet C}

theorem IsNoteOp.mono {received' spent' : List ZethNoteDescription} (hreceived : received ⊆ received')
    (hspent : spent ⊆ spent') {op : FileOp} (h : IsNoteOp W o received spent op) :
    IsNoteOp W o received' spent' op := by
  rcases h with ⟨d, hd, rfl⟩ | ⟨d, hd, rfl⟩
  · exact .inl ⟨d, hreceived hd, rfl⟩
  · exact .inr ⟨d, hspent hd, rfl⟩

theorem Performs.refl (w : Wallet C) : Performs W o received spent w w :=
  ⟨rfl, [], rfl, (append_nil _).symm, forall_mem_nil _⟩

theorem Performs.trans {received' spent' : List ZethNoteDescription}
    (h : Performs W o received spent w w') (h' : Performs W o received' spent' w' w'')
    (hspent : spent ⊆ spent') : Performs W o (received ++ received') spent' w w'' := by
  obtain ⟨ops, hdisk, hjournal, hops⟩ := h.ops
  obtain ⟨ops', hdisk', hjournal', hops'⟩ := h'.ops
  refine ⟨h'.nextBlock.trans h.nextBlock, ops ++ ops', ?_, ?_, fun op hop => ?_⟩
  · rw [hdisk', hdisk, Disk.applyAll, Disk.applyAll, Disk.applyAll, foldl_append]
  · rw [hjournal', hjournal, append_assoc]
  · rcases mem_append.mp hop with hop | hop
    · exact (hops op hop).mono (subset_append_left _ _) hspent
    · exact (hops' op hop).mono (subset_append_right _ _) (List.Subset.refl _)

end Performs

/-! ### The state of a ledger -/

/-- What an earlier run has left on the disk: unspent notes without a file, files of notes that are
still to be received, and files in the subdirectory of notes that are still to be spent. -/
structure Residue where
  missing : Set ZethNoteDescription
  early : Set ZethNoteDescription
  moved : Set ZethNoteDescription

namespace Residue

/-- Nothing is left. -/
def none : Residue := ⟨∅, ∅, ∅⟩

/-- The notes that have a file after the given number of outputs. -/
def files (res : Residue) (numOutputs : ℕ) (l : Ledger) : Set ZethNoteDescription :=
  {d | (d ∈ l.unspent ∧ d ∉ res.missing) ∨ (d ∈ res.early ∧ numOutputs ≤ d.address)}

/-- The notes that have a file in the subdirectory. -/
def spentFiles (res : Residue) (l : Ledger) : Set ZethNoteDescription :=
  {d | d ∈ l.spent ∨ d ∈ res.moved}

/-- The residue of a run over the given outputs. The notes without a file are not mistaken for
others. -/
structure Fits (pp : PairingParameters) (o : Owner C) (total : List MixOutputEvents) (res : Residue) :
    Prop where
  early : ∀ d ∈ res.early, d ∈ o.received pp 0 total
  moved : ∀ d ∈ res.moved, d ∈ o.received pp 0 total
  missing : ∀ d ∈ res.missing, ∀ d' ∈ o.received pp 0 total,
    shortCommitment d'.commitment = shortCommitment d.commitment → d' = d

theorem fits_none (total : List MixOutputEvents) : Residue.none.Fits pp o total :=
  ⟨nofun, nofun, nofun⟩

theorem files_none (numOutputs : ℕ) (l : Ledger) : Residue.none.files numOutputs l = {d | d ∈ l.unspent} := by
  ext d
  simp [files, none]

theorem spentFiles_none (l : Ledger) : Residue.none.spentFiles l = {d | d ∈ l.spent} := by
  ext d
  simp [spentFiles, none]

end Residue

/-- The state of a wallet with the given ledger, up to a residue. -/
structure Holds (W : Web3) (pp : PairingParameters) (hash : Bytes → Bytes → Bytes) (o : Owner C)
    (res : Residue) (outs : List MixOutputEvents) (l : Ledger) (w : Wallet C) : Prop where
  remembers : Remembers hash o outs l.unspent w
  ledger : l.IsOf pp o outs
  missing : ∀ d ∈ res.missing, d ∈ l.unspent
  noteFiles : Keyed (o.noteName W) w.disk.noteFiles (· ∈ res.files outs.length l)
  spentFiles : Keyed (o.noteName W) w.disk.spentFiles (· ∈ res.spentFiles l)

/-- The file of an unspent note with the given nullifier is found. -/
def Markable (o : Owner C) (res : Residue) (numOutputs : ℕ) (l : Ledger) (n : Bytes) : Prop :=
  ∀ d ∈ l.unspent, o.nullifier d = n → d ∉ res.missing ∧ ∀ d' ∈ res.files numOutputs l,
    shortCommitment d'.commitment = shortCommitment d.commitment → d' = d

variable {l : Ledger} {res : Residue} {rest : List MixOutputEvents}

section Files

variable (hfits : res.Fits pp o (outs ++ rest)) (hledger : l.IsOf pp o outs)

include hfits hledger

theorem mem_received_of_mem_files {d : ZethNoteDescription} (hd : d ∈ res.files outs.length l) :
    d ∈ o.received pp 0 (outs ++ rest) := by
  rcases hd with ⟨hd, -⟩ | ⟨hd, -⟩
  · rw [received_append]
    exact mem_append_left _ (hledger.mem_received hd)
  · exact hfits.early d hd

theorem mem_received_of_mem_spentFiles {d : ZethNoteDescription} (hd : d ∈ res.spentFiles l) :
    d ∈ o.received pp 0 (outs ++ rest) := by
  rcases hd with hd | hd
  · rw [received_append]
    exact mem_append_left _ (hledger.mem_iff.mp (mem_append_right _ hd))
  · exact hfits.moved d hd

end Files

/-- The files after outputs were taken in: a file that was there early now is that of an unspent
note. -/
theorem mem_files_receive {outs' : List MixOutputEvents}
    (hfits : res.Fits pp o (outs ++ (outs' ++ rest))) (hledger : l.IsOf pp o outs)
    (hmissing : ∀ d ∈ res.missing, d ∈ l.unspent) (d : ZethNoteDescription) :
    (d ∈ res.files outs.length l ∨ d ∈ o.received pp outs.length outs') ↔
      d ∈ res.files (outs.length + outs'.length) (l.receive (o.received pp outs.length outs')) := by
  have hnew : d ∈ o.received pp outs.length outs' → d ∉ res.missing := fun hd hmiss => by
    have hlt := (isOwn_of_mem_received (hledger.mem_received (hmissing d hmiss))).2.2
    have hle := (isOwn_of_mem_received hd).2.1
    omega
  have hearly : d ∈ res.early → outs.length ≤ d.address →
      ¬ outs.length + outs'.length ≤ d.address → d ∈ o.received pp outs.length outs' := by
    intro hd hle hlt
    have hmem := hfits.early d hd
    rw [received_append, received_append, Nat.zero_add] at hmem
    rcases mem_append.mp hmem with hmem | hmem
    · have := (isOwn_of_mem_received hmem).2.2
      omega
    · rcases mem_append.mp hmem with hmem | hmem
      · exact hmem
      · exact absurd (isOwn_of_mem_received hmem).2.1 hlt
  simp only [Residue.files, Set.mem_ofPred_eq, Ledger.receive, mem_append]
  by_cases hle : outs.length + outs'.length ≤ d.address
  · have hle' : outs.length ≤ d.address := by omega
    tauto
  · by_cases hle' : outs.length ≤ d.address
    · tauto
    · tauto

/-- Outputs that can be taken in. -/
theorem Holds.receive (hvalue : W.Numeral) (h : Holds W pp hash o res outs l w)
    {outs' : List MixOutputEvents} (hfits : res.Fits pp o (outs ++ (outs' ++ rest)))
    (hnodup : ((o.received pp 0 (outs ++ outs')).map o.nullifier).Nodup)
    (hrec : Receivable (outs.map MixOutputEvents.commitment) outs') :
    Returns (receiveNotes W pp outs') w fun _ w' =>
      Holds W pp hash o res (outs ++ outs') (l.receive (o.received pp outs.length outs')) w' ∧
        Performs W o (o.received pp outs.length outs') l.spent w w' ∧
        w'.merkleTreeChanged = (outs'.length != 0) := by
  have hledger := h.ledger.receive outs'
  have hkeys := (hledger.nodup_nullifier hnodup).sublist ((sublist_append_left _ _).map _)
  obtain ⟨w', hok, hremembers, hdisk, hjournal, hchanged, hblock⟩ :=
    h.remembers.receive (W := W) hkeys hrec
  -- all files are those of notes that are received at some time
  have hinj : ∀ d ∈ o.received pp 0 (outs ++ (outs' ++ rest)),
      ∀ d' ∈ o.received pp 0 (outs ++ (outs' ++ rest)), o.noteName W d = o.noteName W d' → d = d' :=
    fun d hd d' hd' => inj_on_of_nodup_map (nodup_noteName_received hvalue _) hd hd'
  have hall : ∀ d, d ∈ res.files outs.length l ∨ d ∈ o.received pp outs.length outs' →
      d ∈ o.received pp 0 (outs ++ (outs' ++ rest)) := by
    rintro d (hd | hd)
    · exact mem_received_of_mem_files hfits h.ledger hd
    · rw [received_append, received_append, Nat.zero_add]
      exact mem_append_right _ (mem_append_left _ hd)
  refine ⟨_, w', hok, ⟨hremembers, hledger, fun d hd => mem_append_left _ (h.missing d hd), ?_, ?_⟩,
    ⟨hblock, _, hdisk, hjournal, fun op hop => ?_⟩, hchanged⟩
  · rw [hdisk, applyAll_writes]
    refine (h.noteFiles.foldl_set _ fun d d' hd hd' =>
      hinj d (hall d hd) d' (hall d' hd')).congr fun d => ?_
    rw [length_append]
    exact mem_files_receive hfits h.ledger h.missing d
  · rw [hdisk, applyAll_writes]
    exact h.spentFiles
  · obtain ⟨d, hd, rfl⟩ := mem_map.mp hop
    exact .inl ⟨d, hd, rfl⟩

section Mark

variable (h : Holds W pp hash o res outs l w) (hfits : res.Fits pp o (outs ++ rest))
  (hnodup : ((o.received pp 0 outs).map o.nullifier).Nodup) {n : Bytes}

include h

/-- A nullifier of no unspent note changes nothing. -/
theorem Holds.of_unused (hn : ∀ d ∈ l.unspent, o.nullifier d ≠ n) :
    Holds W pp hash o res outs (l.use o n) w := by
  have hunspent : l.unspent.filter (fun d => o.nullifier d ≠ n) = l.unspent :=
    filter_eq_self.mpr fun d hd => decide_eq_true (hn d hd)
  have hnone : l.unspent.filter (fun d => o.nullifier d = n) = [] :=
    filter_eq_nil_iff.mpr fun d hd heq => hn d hd (of_decide_eq_true heq)
  have huse : l.use o n = l := by
    rw [Ledger.use, hunspent, hnone, append_nil]
  rwa [huse]

theorem Holds.address_lt {d : ZethNoteDescription} (hd : d ∈ l.unspent) : d.address < outs.length := by
  have hlt := (isOwn_of_mem_received (h.ledger.mem_received hd)).2.2
  rwa [Nat.zero_add] at hlt

include hfits

theorem Holds.isOwn_of_mem_files : ∀ d ∈ res.files outs.length l, Owner.IsOwn d := fun _ hd =>
  (isOwn_of_mem_received (mem_received_of_mem_files hfits h.ledger hd)).1

include hnodup

/-- The state after the file of an unspent note was moved. -/
theorem Holds.spend (hvalue : W.Numeral) {d : ZethNoteDescription} (hd : d ∈ l.unspent)
    (hfile : d ∉ res.missing) :
    Holds W pp hash o res outs (l.use o (o.nullifier d))
      (w.spend (o.nullifier d) (o.noteName W d)) := by
  have hnullifiers := h.ledger.nodup_nullifier hnodup
  have hsame {d' : ZethNoteDescription} (hd' : d' ∈ l.unspent) :
      o.nullifier d' = o.nullifier d ↔ d' = d := by
    refine ⟨fun heq => ?_, fun heq => by rw [heq]⟩
    exact inj_on_of_nodup_map hnullifiers (mem_append_left _ hd')
      (mem_append_left _ hd) heq
  have hmem : d ∈ res.files outs.length l := .inl ⟨hd, hfile⟩
  have hdisk : (w.spend (o.nullifier d) (o.noteName W d)).disk = { w.disk with
      noteFiles := dictErase w.disk.noteFiles (o.noteName W d)
      spentFiles := dictSet w.disk.spentFiles (o.noteName W d) d } := by
    rw [spend_disk, Disk.apply, h.noteFiles.lookup hmem]
  refine ⟨h.remembers.spend _ _, h.ledger.use _, fun d' hd' => ?_, ?_, ?_⟩
  · refine mem_filter.mpr ⟨h.missing d' hd', decide_eq_true fun heq => hfile ?_⟩
    rwa [← (hsame (h.missing d' hd')).mp heq]
  · rw [hdisk]
    refine (h.noteFiles.erase hmem).congr fun d' => ?_
    have hearly : outs.length ≤ d'.address → d' ≠ d := by
      rintro hle rfl
      exact absurd (h.address_lt hd) (Nat.not_lt.mpr hle)
    have hunspent : d' ∈ (l.use o (o.nullifier d)).unspent ↔ d' ∈ l.unspent ∧ d' ≠ d := by
      rw [Ledger.use, mem_filter, decide_eq_true_iff]
      exact and_congr_right fun hd' => not_congr (hsame hd')
    simp only [Residue.files, Set.mem_ofPred_eq, hunspent]
    tauto
  · rw [hdisk]
    have hall : ∀ d' ∈ res.spentFiles l, d' ∈ o.received pp 0 (outs ++ rest) := fun d' =>
      mem_received_of_mem_spentFiles hfits h.ledger
    refine (h.spentFiles.set fun d' hd' heq => ?_).congr fun d' => ?_
    · exact inj_on_of_nodup_map (nodup_noteName_received hvalue _) (hall d' hd')
        (mem_received_of_mem_files hfits h.ledger hmem) heq
    · have hspent : d' ∈ (l.use o (o.nullifier d)).spent ↔ d' ∈ l.spent ∨ d' = d := by
        rw [Ledger.use, mem_append, mem_filter, decide_eq_true_iff]
        refine or_congr_right ⟨fun hd' => (hsame hd'.1).mp hd'.2, ?_⟩
        rintro rfl
        exact ⟨hd, rfl⟩
      simp only [Residue.spentFiles, Set.mem_ofPred_eq, hspent]
      tauto

/-- A nullifier whose file is found is marked. -/
theorem Holds.markNullifier_returns (husername : Literal o.username) (hvalue : W.Numeral)
    (hmark : Markable o res outs.length l n) (commits : List String) :
    Returns (markNullifier L commits n) w fun _ w' =>
      Holds W pp hash o res outs (l.use o n) w' ∧ Performs W o [] (l.use o n).spent w w' ∧
        w'.merkleTreeChanged = w.merkleTreeChanged := by
  by_cases hn : ∃ d ∈ l.unspent, o.nullifier d = n
  · obtain ⟨d, hd, rfl⟩ := hn
    obtain ⟨hfile, hunique⟩ := hmark d hd rfl
    have hfind : findNoteFile L w (shortCommitment d.commitment) = some (o.noteName W d) :=
      findNoteFile_eq_some husername hvalue h.remembers.owner h.noteFiles
        (h.isOwn_of_mem_files hfits) (.inl ⟨hd, hfile⟩) hunique
    have hkeys := (h.ledger.nodup_nullifier hnodup).sublist ((sublist_append_left _ _).map _)
    refine ⟨_, _, h.remembers.markNullifier_of_some hkeys hd (h.ledger.isOwn hd) commits hfind,
      h.spend hfits hnodup hvalue hd hfile, ⟨rfl, _, rfl, rfl, fun op hop => ?_⟩, rfl⟩
    refine .inr ⟨d, ?_, mem_singleton.mp hop⟩
    exact mem_append_right _ (mem_filter.mpr ⟨hd, decide_eq_true rfl⟩)
  · have hnone : ∀ d ∈ l.unspent, o.nullifier d ≠ n := fun d hd heq => hn ⟨d, hd, heq⟩
    exact ⟨_, _, markNullifier_of_none (h.remembers.lookup_eq_none hnone) commits,
      h.of_unused hnone, .refl w, rfl⟩

/-- A nullifier whose file is not found makes the loop raise. -/
theorem Holds.markNullifier_raises (husername : Literal o.username) (hvalue : W.Numeral)
    (hmark : ¬ Markable o res outs.length l n) (commits : List String) :
    ∃ e, Raises (markNullifier L commits n) w e := by
  have hkeys := (h.ledger.nodup_nullifier hnodup).sublist ((sublist_append_left _ _).map _)
  rw [Markable] at hmark
  push Not at hmark
  obtain ⟨d, hd, rfl, hbad⟩ := hmark
  have hfind : findNoteFile L w (shortCommitment d.commitment) = none := by
    by_cases hfile : d ∈ res.missing
    · refine findNoteFile_eq_none_of_missing husername hvalue h.remembers.owner h.noteFiles
        (h.isOwn_of_mem_files hfits) (h.ledger.isOwn hd).length fun d' hd' halike => ?_
      obtain rfl := hfits.missing d hfile d' (mem_received_of_mem_files hfits h.ledger hd') halike
      rcases hd' with ⟨-, hfile'⟩ | ⟨-, hle⟩
      · exact hfile' hfile
      · exact absurd (h.address_lt hd) (Nat.not_lt.mpr hle)
    · obtain ⟨d', hd', halike, hne⟩ := hbad hfile
      exact findNoteFile_eq_none husername hvalue h.remembers.owner h.noteFiles
        (h.isOwn_of_mem_files hfits) (.inl ⟨hd, hfile⟩) hd' hne halike
  exact ⟨_, h.remembers.markNullifier_raises hkeys hd (h.ledger.isOwn hd) commits hfind⟩

/-- The loop of `mark_nullifiers_used`. -/
theorem Holds.markNullifiersUsed (husername : Literal o.username) (hvalue : W.Numeral)
    (ns : List Bytes) :
    ((∀ before n after, ns = before ++ n :: after →
        Markable o res outs.length (l.useAll o before) n) ∧
      Returns (Wallet.markNullifiersUsed L ns) w fun _ w' =>
        Holds W pp hash o res outs (l.useAll o ns) w' ∧ Performs W o [] (l.useAll o ns).spent w w' ∧
          w'.merkleTreeChanged = w.merkleTreeChanged) ∨
    ((¬ ∀ before n after, ns = before ++ n :: after →
        Markable o res outs.length (l.useAll o before) n) ∧
      ∃ e, Raises (Wallet.markNullifiersUsed L ns) w e) := by
  have htotal : ns = [] ++ ns ++ [] := by rw [nil_append, append_nil]
  refine foldlM_returns_or_raises (fun before _ w' => Holds W pp hash o res outs (l.useAll o before) w' ∧
      Performs W o [] (l.useAll o before).spent w w' ∧ w'.merkleTreeChanged = w.merkleTreeChanged)
    (fun before n => Markable o res outs.length (l.useAll o before) n) ?_ ?_ ns htotal
    ⟨h, .refl w, rfl⟩
  · rintro before n _ commits w' _ ⟨hw', hops, hchanged⟩ hmark
    rw [Ledger.useAll_concat]
    refine (hw'.markNullifier_returns hfits hnodup husername hvalue hmark commits).mono ?_
    rintro _ w'' ⟨hw'', hops', hchanged'⟩
    exact ⟨hw'', hops.trans hops' (Ledger.spent_subset_use o _ n), hchanged'.trans hchanged⟩
  · rintro before n _ commits w' _ ⟨hw', -⟩ hmark
    exact hw'.markNullifier_raises hfits hnodup husername hvalue hmark commits

end Mark

/-! ### Results -/

/-- The outputs of a result can be taken in, and its nullifiers can be marked. -/
def GoodResult (pp : PairingParameters) (o : Owner C) (res : Residue) (before : List MixResult)
    (r : MixResult) : Prop :=
  Receivable ((outputsOf before).map MixOutputEvents.commitment) r.outputEvents ∧
    ∀ ns n ns', r.nullifiers = ns ++ n :: ns' →
      Markable o res (outputsOf (before ++ [r])).length (((o.ledger pp before).receive
        (o.received pp (outputsOf before).length r.outputEvents)).useAll o ns) n

section Result

variable {before : List MixResult} {r : MixResult}
  (hfits : res.Fits pp o (outputsOf (before ++ [r]) ++ rest))
  (hnodup : ((o.received pp 0 (outputsOf (before ++ [r]))).map o.nullifier).Nodup)
  (husername : Literal o.username) (hvalue : W.Numeral)
  (h : Holds W pp hash o res (outputsOf before) (o.ledger pp before) w) (root : Option Bytes)

include hfits hnodup husername hvalue h

/-- A good result is processed. -/
theorem processResult_returns (hgood : GoodResult pp o res before r) :
    Returns (processResult L W pp root r) w fun root' w' =>
      root' = some r.newMerkleRoot ∧ w'.merkleTreeChanged = (r.outputEvents.length != 0) ∧
        Holds W pp hash o res (outputsOf (before ++ [r])) (o.ledger pp (before ++ [r])) w' ∧
        Performs W o (o.received pp (outputsOf before).length r.outputEvents)
          (o.ledger pp (before ++ [r])).spent w w' := by
  rw [GoodResult, outputsOf_concat] at hgood
  rw [outputsOf_concat] at hnodup hfits ⊢
  rw [append_assoc] at hfits
  rw [ledger_concat]
  refine .bind (h.receive hvalue hfits hnodup hgood.1) ?_
  rintro _ w' ⟨hw', hops, hchanged⟩
  rw [← append_assoc] at hfits
  rcases hw'.markNullifiersUsed (L := L) hfits hnodup husername hvalue r.nullifiers with
    ⟨-, hreturns⟩ | ⟨hnot, -⟩
  · refine .bind hreturns ?_
    rintro _ w'' ⟨hw'', hops', hchanged'⟩
    have hperforms := hops.trans hops' (Ledger.spent_subset_useAll o
      ((o.ledger pp before).receive _) r.nullifiers)
    rw [append_nil] at hperforms
    exact returns_pure ⟨rfl, hchanged'.trans hchanged, hw'', hperforms⟩
  · exact absurd hgood.2 hnot

/-- A result that is not good raises. -/
theorem processResult_raises (hbad : ¬ GoodResult pp o res before r) :
    ∃ e, Raises (processResult L W pp root r) w e := by
  rw [GoodResult, outputsOf_concat] at hbad
  rw [outputsOf_concat] at hnodup hfits
  by_cases hrec : Receivable ((outputsOf before).map MixOutputEvents.commitment) r.outputEvents
  · rw [append_assoc] at hfits
    obtain ⟨_, w', hok, hw', -⟩ := h.receive hvalue hfits hnodup hrec
    rw [← append_assoc] at hfits
    rcases hw'.markNullifiersUsed (L := L) hfits hnodup husername hvalue r.nullifiers with
      ⟨hall, -⟩ | ⟨-, e, hraises⟩
    · exact absurd ⟨hrec, hall⟩ hbad
    · exact ⟨e, raises_bind_of_ok hok (hraises.bind _)⟩
  · obtain ⟨e, hraises⟩ : ∃ e, Raises (receiveNotes W pp r.outputEvents) w e :=
      h.remembers.receiveNotes_raises hrec
    exact ⟨e, hraises.bind _⟩

end Result

/-- The flag of the tree after results: it is set anew by each of them. -/
def changedAfter (changed : Bool) (mixResults : List MixResult) : Bool :=
  (mixResults.getLast?.map fun r => r.outputEvents.length != 0).getD changed

/-- Results one after the other. -/
theorem processResults_returns_or_raises (husername : Literal o.username) (hvalue : W.Numeral)
    {before mixResults : List MixResult}
    (hfits : res.Fits pp o (outputsOf (before ++ mixResults)))
    (hnodup : ((o.received pp 0 (outputsOf (before ++ mixResults))).map o.nullifier).Nodup)
    (h : Holds W pp hash o res (outputsOf before) (o.ledger pp before) w) :
    ((∀ done r after, mixResults = done ++ r :: after → GoodResult pp o res (before ++ done) r) ∧
      Returns (processResults L W pp mixResults) w fun root w' =>
        root = mixResults.getLast?.map MixResult.newMerkleRoot ∧
        w'.merkleTreeChanged = changedAfter w.merkleTreeChanged mixResults ∧
        Holds W pp hash o res (outputsOf (before ++ mixResults))
          (o.ledger pp (before ++ mixResults)) w' ∧
        Performs W o (o.received pp (outputsOf before).length (outputsOf mixResults))
          (o.ledger pp (before ++ mixResults)).spent w w') ∨
    ((¬ ∀ done r after, mixResults = done ++ r :: after →
        GoodResult pp o res (before ++ done) r) ∧
      ∃ e, Raises (processResults L W pp mixResults) w e) := by
  have htotal : mixResults = [] ++ mixResults ++ [] := by rw [nil_append, append_nil]
  have houtputs {done after : List MixResult} {r : MixResult}
      (hsplit : mixResults = done ++ r :: after) :
      outputsOf (before ++ mixResults) = outputsOf (before ++ done ++ [r]) ++ outputsOf after := by
    rw [hsplit, outputsOf, outputsOf, outputsOf, ← flatMap_append]
    simp only [append_assoc, singleton_append]
  refine foldlM_returns_or_raises
    (fun done root w' => root = done.getLast?.map MixResult.newMerkleRoot ∧
      w'.merkleTreeChanged = changedAfter w.merkleTreeChanged done ∧
      Holds W pp hash o res (outputsOf (before ++ done)) (o.ledger pp (before ++ done)) w' ∧
      Performs W o (o.received pp (outputsOf before).length (outputsOf done))
        (o.ledger pp (before ++ done)).spent w w')
    (fun done r => GoodResult pp o res (before ++ done) r) ?_ ?_ mixResults htotal
    ⟨rfl, rfl, by rwa [append_nil], .refl w⟩
  · rintro done r after root w' hsplit ⟨-, -, hw', hops⟩ hgood
    rw [houtputs hsplit] at hfits hnodup
    rw [received_append] at hnodup
    refine (processResult_returns hfits (hnodup.sublist ((sublist_append_left _ _).map _))
      husername hvalue hw' root hgood).mono ?_
    rintro root' w'' ⟨hroot, hchanged, hw'', hops'⟩
    rw [append_assoc] at hw'' hops'
    refine ⟨?_, ?_, hw'', ?_⟩
    · rw [hroot, List.getLast?_concat]
      rfl
    · rw [hchanged, changedAfter, List.getLast?_concat]
      rfl
    · have hspent := spent_subset_ledger_append pp o (before ++ done) [r]
      rw [append_assoc] at hspent
      have hperforms := hops.trans hops' hspent
      have hlength : (outputsOf (before ++ done)).length =
          (outputsOf before).length + (outputsOf done).length := by
        rw [outputsOf, flatMap_append, length_append]
        rfl
      rwa [hlength, ← received_append, ← outputsOf_concat] at hperforms
  · rintro done r after root w' hsplit ⟨-, -, hw', -⟩ hbad
    rw [houtputs hsplit] at hfits hnodup
    rw [received_append] at hnodup
    exact processResult_raises hfits (hnodup.sublist ((sublist_append_left _ _).map _))
      husername hvalue hw' root hbad

theorem holds_new {username : String} {aSk : Bytes} {kSkReceiver : C.SecretKey}
    (hnew : new hash username aSk kSkReceiver = .ok w) :
    Holds W pp hash ⟨username, aSk, kSkReceiver⟩ .none [] .empty w := by
  obtain ⟨-, rfl⟩ := new_eq_ok_iff.mp hnew
  have hempty (P : ZethNoteDescription → Prop) (hP : ∀ d, ¬ P d) :
      Keyed (Owner.noteName W ⟨username, aSk, kSkReceiver⟩) [] P :=
    ⟨nodup_nil, fun p => iff_of_false not_mem_nil fun hp => hP _ hp.2⟩
  refine ⟨⟨rfl, ⟨[], [], ⟨(MerkleTree.pending_nil []).symm, rfl⟩, rfl⟩, Nat.zero_le _, rfl, rfl⟩,
    .refl _, nofun, hempty _ fun d hd => ?_, hempty _ fun d hd => ?_⟩
  · rw [Residue.files_none] at hd
    cases hd
  · rw [Residue.spentFiles_none] at hd
    cases hd

end Wallet

end Zeth.Client
