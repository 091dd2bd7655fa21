import Zeth.Client.NoteFiles

/-!
# Unspent and spent notes of the wallet

For every result of a call of `mix`, the wallet first takes in the outputs and then looks for its own
notes among the nullifiers (`Wallet.mark_nullifiers_used` of `client/zeth/core/wallet.py`). The file of
a note that was spent is moved to a subdirectory, and the note is removed from the map of nullifiers.
That map has only the first four bytes of the commitments, and these are all that the file is looked
for by.

Whether an output holds a note of the wallet, and the nullifier of a note, are functions of the output
and of the note (`Owner.own`, `Owner.nullifier`). The received notes and the nullifiers so far say
which notes are unspent, and the state of the wallet is described by them.

## Main definitions

* `Wallet.markNoteSpent`, `Wallet.markNullifiersUsed`, `Wallet.processResult`.
* `Owner.own`, `Owner.nullifier`, `Owner.received`.

## Main results

* `Wallet.receiveNotes_eq`: the effect of `receive_notes`.
-/

namespace Zeth.Client

open ByteString Python Stateful List

/-- `MixResult` -/
structure MixResult where
  newMerkleRoot : Bytes
  nullifiers : List Bytes
  outputEvents : List MixOutputEvents
  deriving DecidableEq, Repr

namespace Wallet

variable {C : Cryptography} (L : Stdlib) (W : Web3) (pp : PairingParameters)

/-- `_mark_note_spent`. -/
def markNoteSpent (nullifierHex shortCommit : String) : Stateful Exc (Wallet C) Unit := do
  let w ← get
  match findNoteFile L w shortCommit with
  | none => throw (.exception ("expected to find file for commit " ++ shortCommit))
  | some noteFile =>
    perform (.moveToSpent noteFile)
    let w ← get
    let nullifierMap ← call (delItem w.state.nullifierMap nullifierHex)
    modify fun w => { w with state := { w.state with nullifierMap := nullifierMap } }

/-- The body of the loop of `mark_nullifiers_used`. -/
def markNullifier (commits : List String) (nullifier : Bytes) :
    Stateful Exc (Wallet C) (List String) := do
  let w ← get
  match w.state.nullifierMap.lookup (hex nullifier) with
  | none => return commits
  | some shortCommit =>
    -- the empty string counts as false
    if shortCommit = "" then return commits
    else
      markNoteSpent L (hex nullifier) shortCommit
      return commits ++ [shortCommit]

/-- `mark_nullifiers_used`. -/
def markNullifiersUsed (nullifiers : List Bytes) : Stateful Exc (Wallet C) (List String) :=
  nullifiers.foldlM (markNullifier L) []

/-- What is done with every result: its outputs are taken in, then its nullifiers are marked. The
root of the result is kept. -/
def processResult (_ : Option Bytes) (mixResult : MixResult) :
    Stateful Exc (Wallet C) (Option Bytes) := do
  let _ ← receiveNotes W pp mixResult.outputEvents
  let _ ← markNullifiersUsed L mixResult.nullifiers
  return some mixResult.newMerkleRoot

/-- Results one after the other, and the root of the last one. -/
def processResults (mixResults : List MixResult) : Stateful Exc (Wallet C) (Option Bytes) :=
  mixResults.foldlM (processResult L W pp) none

end Wallet

/-! ### Own notes -/

namespace Owner

variable {C : Cryptography} (W : Web3) (pp : PairingParameters) (o : Owner C)

/-- The note in an output, if it can be decrypted and its commitment is the one of the output. -/
def ownNote (outEv : MixOutputEvents) : Option ZethNote :=
  match receiveNote C outEv o.kSkReceiver with
  | .ok (some (commit, note)) => if checkNote commit note pp = .ok true then some note else none
  | _ => none

/-- The note in the output at an address. -/
def own (address : ℕ) (outEv : MixOutputEvents) : Option ZethNoteDescription :=
  (o.ownNote pp outEv).map fun note => ⟨note, address, outEv.commitment⟩

/-- The notes in outputs, of which the first has the given address. -/
def received : ℕ → List MixOutputEvents → List ZethNoteDescription
  | _, [] => []
  | address, outEv :: outputEvents =>
    (o.own pp address outEv).toList ++ received (address + 1) outputEvents

/-- The nullifier of a note. -/
def nullifier (noteDesc : ZethNoteDescription) : Bytes :=
  (computeNullifier noteDesc.note o.aSk).toOption.getD []

/-- The entry of a note in the map of nullifiers. -/
def entry (noteDesc : ZethNoteDescription) : String × String :=
  (hex (o.nullifier noteDesc), shortCommitment noteDesc.commitment)

/-- Note files being written. -/
def writes (noteDescs : List ZethNoteDescription) : List FileOp :=
  noteDescs.map fun noteDesc => .writeNote (o.noteName W noteDesc) noteDesc

/-- What is known of an own note. -/
structure IsOwn (noteDesc : ZethNoteDescription) : Prop where
  isHex : noteDesc.note.IsHex
  length : noteDesc.commitment.length = 32

variable {pp o}

theorem length_computeCommitment {note : ZethNote} {cm : Bytes}
    (h : computeCommitment note pp = .ok cm) : cm.length = 32 := by
  obtain ⟨trapR, -, h⟩ := Except.bind_eq_ok.mp h
  obtain ⟨apk, -, h⟩ := Except.bind_eq_ok.mp h
  obtain ⟨rho, -, h⟩ := Except.bind_eq_ok.mp h
  obtain ⟨value, -, h⟩ := Except.bind_eq_ok.mp h
  exact length_of_toBytesBig h

variable (pp o) in
/-- An output with a ciphertext of the right length, as `receive_note` sees it. -/
theorem ownNote_cases (outEv : MixOutputEvents)
    (hlen : outEv.ciphertext.length = encryptedNoteLengthBytes) :
    (receiveNote C outEv o.kSkReceiver = .ok none ∧ o.ownNote pp outEv = none) ∨
    ∃ note : ZethNote, note.IsHex ∧
      receiveNote C outEv o.kSkReceiver = .ok (some (outEv.commitment, note)) ∧
      ((checkNote outEv.commitment note pp = .ok true ∧ o.ownNote pp outEv = some note ∧
          outEv.commitment.length = 32) ∨
        (checkNote outEv.commitment note pp = .ok false ∧ o.ownNote pp outEv = none)) := by
  rcases exists_receiveNote o.kSkReceiver hlen with hnone | ⟨note, hhex, hsome⟩
  · exact .inl ⟨hnone, by rw [ownNote, hnone]⟩
  · obtain ⟨cm, hcm⟩ := exists_computeCommitment hhex pp
    have hcheck : checkNote outEv.commitment note pp = .ok (outEv.commitment == cm) := by
      rw [checkNote, hcm, Except.ok_bind]
      rfl
    refine .inr ⟨note, hhex, hsome, ?_⟩
    by_cases heq : outEv.commitment = cm
    · rw [beq_iff_eq.mpr heq] at hcheck
      refine .inl ⟨hcheck, ?_, heq ▸ length_computeCommitment hcm⟩
      rw [ownNote, hsome]
      exact if_pos hcheck
    · rw [beq_false_of_ne heq] at hcheck
      refine .inr ⟨hcheck, ?_⟩
      rw [ownNote, hsome]
      exact if_neg (by rw [hcheck]; decide)

theorem ownNote_of_length_ne {outEv : MixOutputEvents}
    (hlen : outEv.ciphertext.length ≠ encryptedNoteLengthBytes) : o.ownNote pp outEv = none := by
  rw [ownNote, receiveNote_of_length_ne o.kSkReceiver hlen]

theorem isOwn_of_own {address : ℕ} {outEv : MixOutputEvents} {d : ZethNoteDescription}
    (h : o.own pp address outEv = some d) : IsOwn d ∧ d.address = address := by
  obtain ⟨note, hnote, rfl⟩ := Option.map_eq_some_iff.mp h
  by_cases hlen : outEv.ciphertext.length = encryptedNoteLengthBytes
  · rcases ownNote_cases pp o outEv hlen with
      ⟨-, hnone⟩ | ⟨note', hhex, -, ⟨-, hsome, hlength⟩ | ⟨-, hnone⟩⟩
    · rw [hnone] at hnote
      cases hnote
    · obtain rfl := Option.some.inj (hsome.symm.trans hnote)
      exact ⟨⟨hhex, hlength⟩, rfl⟩
    · rw [hnone] at hnote
      cases hnote
  · rw [ownNote_of_length_ne hlen] at hnote
    cases hnote

theorem received_append (address : ℕ) (outs outs' : List MixOutputEvents) :
    o.received pp address (outs ++ outs') =
      o.received pp address outs ++ o.received pp (address + outs.length) outs' := by
  induction outs generalizing address with
  | nil => rfl
  | cons outEv outs ih =>
    rw [cons_append, received, received, ih, append_assoc, length_cons,
      Nat.add_assoc, Nat.add_comm 1]

/-- Received notes are own notes, at addresses from the first one on. -/
theorem isOwn_of_mem_received {address : ℕ} {outs : List MixOutputEvents}
    {d : ZethNoteDescription} (h : d ∈ o.received pp address outs) :
    IsOwn d ∧ address ≤ d.address ∧ d.address < address + outs.length := by
  induction outs generalizing address with
  | nil => cases h
  | cons outEv outs ih =>
    rw [length_cons]
    rcases mem_append.mp h with h | h
    · obtain ⟨hown, haddr⟩ := isOwn_of_own (Option.mem_toList.mp h)
      exact ⟨hown, by omega, by omega⟩
    · obtain ⟨hown, hle, hlt⟩ := ih h
      exact ⟨hown, by omega, by omega⟩

theorem nodup_address_received (address : ℕ) (outs : List MixOutputEvents) :
    ((o.received pp address outs).map ZethNoteDescription.address).Nodup := by
  induction outs generalizing address with
  | nil => exact nodup_nil
  | cons outEv outs ih =>
    rw [received, map_append, nodup_append]
    refine ⟨?_, ih _, fun a ha b hb => ?_⟩
    · cases o.own pp address outEv with
      | none => exact nodup_nil
      | some d => exact nodup_singleton _
    · obtain ⟨d, hd, rfl⟩ := mem_map.mp ha
      obtain ⟨d', hd', rfl⟩ := mem_map.mp hb
      have haddr := (isOwn_of_own (Option.mem_toList.mp hd)).2
      have hle := (isOwn_of_mem_received hd').2.1
      omega

/-- The files of received notes have different names. -/
theorem nodup_noteName_received {W : Web3} (hvalue : W.Numeral) (outs : List MixOutputEvents) :
    ((o.received pp 0 outs).map (o.noteName W)).Nodup := by
  have haddr : ((o.received pp 0 outs).map _).Nodup := nodup_address_received 0 outs
  refine List.Nodup.map_on (fun d hd d' hd' hname => ?_) (List.Nodup.of_map _ haddr)
  exact inj_on_of_nodup_map haddr hd hd' (noteName_inj hvalue
    (isOwn_of_mem_received hd).1.isHex (isOwn_of_mem_received hd').1.isHex hname)

theorem nullifier_eq {d : ZethNoteDescription} (h : d.note.IsHex) :
    computeNullifier d.note o.aSk = .ok (o.nullifier d) := by
  obtain ⟨nf, hnf⟩ := exists_computeNullifier h o.aSk
  rw [nullifier, hnf]
  rfl

theorem hex_injective : Function.Injective hex := by
  intro a b h
  have hread := congrArg fromhex h
  rw [fromhex_hex, fromhex_hex] at hread
  exact Except.ok.inj hread

theorem IsOwn.shortCommitment_ne_empty {d : ZethNoteDescription} (h : IsOwn d) :
    shortCommitment d.commitment ≠ "" := by
  intro hempty
  have hlength : (shortCommitment d.commitment).length = 8 := by
    rw [shortCommitment, length_hex, length_take, h.length]
    rfl
  rw [hempty] at hlength
  exact absurd hlength (by decide)

end Owner

/-! ### Taking in outputs -/

namespace Wallet

variable {C : Cryptography} (W : Web3) (pp : PairingParameters)

/-- The wallet after notes were found: their files were written and their nullifiers entered. -/
def takeIn (w : Wallet C) (noteDescs : List ZethNoteDescription) : Wallet C :=
  { w with
    state := { w.state with
      nullifierMap := noteDescs.foldl (fun nullifierMap noteDesc =>
        dictSet nullifierMap (hex (w.owner.nullifier noteDesc))
          (shortCommitment noteDesc.commitment)) w.state.nullifierMap }
    disk := w.disk.applyAll (w.owner.writes W noteDescs)
    journal := w.journal ++ w.owner.writes W noteDescs }

theorem applyAll_writes (o : Owner C) (disk : Disk) (ds : List ZethNoteDescription) :
    disk.applyAll (o.writes W ds) = { disk with
      noteFiles := ds.foldl (fun files d => dictSet files (o.noteName W d) d) disk.noteFiles } := by
  induction ds generalizing disk with
  | nil => rfl
  | cons d ds ih => exact ih (disk.apply (.writeNote (o.noteName W d) d))

theorem takeIn_nil (w : Wallet C) : w.takeIn W [] = w := by
  simp [takeIn, Owner.writes, Disk.applyAll]

/-- `receive_note` on an output with a ciphertext of the right length. -/
theorem receiveNote_eq (w : Wallet C) (commAddr : ℕ) {outEv : MixOutputEvents}
    (hlen : outEv.ciphertext.length = encryptedNoteLengthBytes) :
    receiveNote W pp commAddr outEv w =
      .ok (w.owner.own pp commAddr outEv) (w.takeIn W (w.owner.own pp commAddr outEv).toList) := by
  refine Returns.eq_ok (returns_get_bind ?_)
  rcases Owner.ownNote_cases pp w.owner outEv hlen with
    ⟨hreceive, hown⟩ | ⟨note, hhex, hreceive, ⟨hcheck, hown, -⟩ | ⟨hcheck, hown⟩⟩
  · refine returns_call_bind hreceive (returns_pure ?_)
    rw [Owner.own, hown]
    exact ⟨rfl, (takeIn_nil W w).symm⟩
  · refine returns_call_bind hreceive (returns_call_bind hcheck ?_)
    rw [if_pos rfl, Owner.own, hown]
    let noteDesc : ZethNoteDescription := ⟨note, commAddr, outEv.commitment⟩
    have hname : noteBasename W w.owner.username noteDesc = .ok (w.owner.noteName W noteDesc) :=
      Owner.noteBasename_eq hhex
    have hnf : computeNullifier note w.owner.aSk = .ok (w.owner.nullifier noteDesc) :=
      Owner.nullifier_eq (d := noteDesc) hhex
    have hwrite : writeNote W noteDesc w = .ok () { w with
        disk := w.disk.apply (.writeNote (w.owner.noteName W noteDesc) noteDesc)
        journal := w.journal ++ [.writeNote (w.owner.noteName W noteDesc) noteDesc] } :=
      (returns_get_bind (returns_call_bind hname (returns_modify ⟨rfl, rfl⟩))).eq_ok
    exact returns_bind_of_ok hwrite (returns_call_bind hnf (returns_modify_bind
      (returns_pure ⟨rfl, rfl⟩)))
  · refine returns_call_bind hreceive (returns_call_bind hcheck ?_)
    rw [if_neg Bool.false_ne_true, Owner.own, hown]
    exact returns_pure ⟨rfl, (takeIn_nil W w).symm⟩

/-- The tree stands for the leaves `old` with the leaves `new` inserted since its root was computed,
and the next address is their number. -/
structure Pending (hash : Bytes → Bytes → Bytes) (w : Wallet C) (old new : List Bytes) : Prop where
  tree : w.merkleTree = MerkleTree.pending hash zethMerkleTreeDepth old new
  nextAddr : w.nextAddr = (old ++ new).length

/-- The wallet after the loop of `receive_notes`. -/
def grow (hash : Bytes → Bytes → Bytes) (w : Wallet C) (old new : List Bytes)
    (outputEvents : List MixOutputEvents) : Wallet C :=
  { w.takeIn W (w.owner.received pp w.nextAddr outputEvents) with
    merkleTree := MerkleTree.pending hash zethMerkleTreeDepth old
      (new ++ outputEvents.map MixOutputEvents.commitment)
    nextAddr := w.nextAddr + outputEvents.length }

theorem grow_append (hash : Bytes → Bytes → Bytes) (w : Wallet C) (old new : List Bytes)
    (outs outs' : List MixOutputEvents) :
    (w.grow W pp hash old new outs).grow W pp hash old
        (new ++ outs.map MixOutputEvents.commitment) outs' =
      w.grow W pp hash old new (outs ++ outs') := by
  simp [grow, takeIn, owner, Owner.received_append, Owner.writes, Disk.applyAll, Nat.add_assoc]

section Grow

variable {hash : Bytes → Bytes → Bytes} {w : Wallet C} {old new : List Bytes}

/-- One turn of the loop. -/
theorem receiveEvent_eq (hw : w.Pending hash old new) {outEv : MixOutputEvents}
    (hlt : (old ++ new).length < 2 ^ zethMerkleTreeDepth)
    (hlen : outEv.ciphertext.length = encryptedNoteLengthBytes)
    (newNotes : List ZethNoteDescription) :
    receiveEvent W pp newNotes outEv w =
      .ok (newNotes ++ (w.owner.own pp w.nextAddr outEv).toList)
        (w.grow W pp hash old new [outEv]) := by
  have hinsert : w.merkleTree.insert outEv.commitment =
      .ok (MerkleTree.pending hash zethMerkleTreeDepth old (new ++ [outEv.commitment])) := by
    rw [hw.tree]
    exact MerkleTree.insert_pending (by decide) hlt _
  have hleaf : insertLeaf outEv.commitment w = .ok () { w with
      merkleTree := MerkleTree.pending hash zethMerkleTreeDepth old (new ++ [outEv.commitment]) } :=
    (returns_get_bind (returns_call_bind hinsert (returns_modify ⟨rfl, rfl⟩))).eq_ok
  refine Returns.eq_ok (returns_bind_of_ok hleaf (returns_get_bind (returns_bind_of_ok
    (receiveNote_eq W pp _ _ hlen) (returns_modify_bind (returns_pure ⟨rfl, ?_⟩)))))
  rw [grow, Owner.received, Owner.received, append_nil]
  rfl

/-- The loop of `receive_notes`. -/
theorem receiveEvents_eq {outputEvents : List MixOutputEvents} (hw : w.Pending hash old new)
    (hrec : Receivable (old ++ new) outputEvents) (newNotes : List ZethNoteDescription) :
    receiveEvents W pp newNotes outputEvents w =
      .ok (newNotes ++ w.owner.received pp w.nextAddr outputEvents)
        (w.grow W pp hash old new outputEvents) := by
  induction outputEvents generalizing w new newNotes with
  | nil =>
    refine Returns.eq_ok (returns_pure ⟨(append_nil newNotes).symm, ?_⟩)
    rw [grow, Owner.received, takeIn_nil, map_nil, append_nil, ← hw.tree]
    rfl
  | cons outEv outputEvents ih =>
    obtain ⟨⟨hlt, hlen⟩, hrest⟩ := receivable_cons.mp hrec
    have hpending : (w.grow W pp hash old new [outEv]).Pending hash old
        (new ++ [outEv.commitment]) := by
      refine ⟨rfl, ?_⟩
      change w.nextAddr + 1 = _
      simp only [hw.nextAddr, length_append, length_singleton, Nat.add_assoc]
    rw [append_assoc] at hrest
    refine Returns.eq_ok (returns_bind_of_ok (receiveEvent_eq W pp hw hlt hlen newNotes) ?_)
    refine ⟨_, _, ih hpending hrest _, ?_, ?_⟩
    · rw [append_assoc]
      rfl
    · exact grow_append W pp hash w old new [outEv] outputEvents

/-- The wallet after `receive_notes`. -/
def receive (hash : Bytes → Bytes → Bytes) (w : Wallet C) (old new : List Bytes)
    (outputEvents : List MixOutputEvents) : Wallet C :=
  { w.grow W pp hash old new outputEvents with
    merkleTreeChanged := outputEvents.length != 0
    state := { (w.grow W pp hash old new outputEvents).state with
      numNotes := w.state.numNotes + outputEvents.length } }

/-- **`receive_notes`** on outputs that can be taken in. -/
theorem receiveNotes_eq {outputEvents : List MixOutputEvents} (hw : w.Pending hash old new)
    (hrec : Receivable (old ++ new) outputEvents) :
    receiveNotes W pp outputEvents w =
      .ok (w.owner.received pp w.nextAddr outputEvents) (w.receive W pp hash old new outputEvents) := by
  let w₀ : Wallet C := { w with merkleTreeChanged := outputEvents.length != 0 }
  have hw₀ : w₀.Pending hash old new := ⟨hw.tree, hw.nextAddr⟩
  have hevents := receiveEvents_eq W pp hw₀ hrec []
  exact Returns.eq_ok (returns_modify_bind (returns_bind_of_ok hevents (returns_modify_bind
    (returns_pure ⟨rfl, rfl⟩))))

theorem Pending.receive (hw : w.Pending hash old new) (outputEvents : List MixOutputEvents) :
    (w.receive W pp hash old new outputEvents).Pending hash old
      (new ++ outputEvents.map MixOutputEvents.commitment) := by
  refine ⟨rfl, ?_⟩
  change w.nextAddr + outputEvents.length = _
  simp only [hw.nextAddr, length_append, length_map, Nat.add_assoc]

theorem Pending.holdsLeaves (hw : w.Pending hash old new)
    (hle : (old ++ new).length ≤ 2 ^ zethMerkleTreeDepth) : HoldsLeaves w (old ++ new) := by
  refine ⟨?_, ?_, hw.nextAddr, hle⟩
  · rw [hw.tree]
    refine (MerkleTree.getElem?_mixedLayers old new 0 (Nat.zero_le _)).trans ?_
    rw [if_pos le_rfl, MerkleTree.layerAt_zero (by decide)]
  · rw [hw.tree]
    rfl

/-- Outputs that cannot be taken in make `receive_notes` raise. -/
theorem receiveNotes_raises {outputEvents : List MixOutputEvents} (hw : w.Pending hash old new)
    (hle : (old ++ new).length ≤ 2 ^ zethMerkleTreeDepth)
    (hrec : ¬ Receivable (old ++ new) outputEvents) :
    ∃ e, Raises (receiveNotes W pp outputEvents) w e := by
  have hleaves := hw.holdsLeaves hle
  obtain ⟨e, he⟩ := receiveEvents_raises W pp
    (w := { w with merkleTreeChanged := outputEvents.length != 0 })
    ⟨hleaves.layer, hleaves.max, hleaves.nextAddr, hleaves.le⟩ hrec []
  exact ⟨e, raises_modify_bind (he.bind _)⟩

end Grow

/-! ### Marking nullifiers -/

section Mark

variable {L : Stdlib} {w : Wallet C} {n : Bytes} {shortCommit : String}

/-- The wallet after a note was marked: its file was moved and its nullifier deleted. -/
def spend (w : Wallet C) (n : Bytes) (noteFile : String) : Wallet C :=
  { w with
    state := { w.state with nullifierMap := dictErase w.state.nullifierMap (hex n) }
    disk := w.disk.apply (.moveToSpent noteFile)
    journal := w.journal ++ [.moveToSpent noteFile] }

theorem spend_disk (w : Wallet C) (n : Bytes) (noteFile : String) :
    (w.spend n noteFile).disk = w.disk.apply (.moveToSpent noteFile) := rfl

theorem Pending.spend {hash : Bytes → Bytes → Bytes} {old new : List Bytes}
    (h : w.Pending hash old new) (n : Bytes) (noteFile : String) :
    (w.spend n noteFile).Pending hash old new :=
  ⟨h.tree, h.nextAddr⟩

theorem markNullifier_of_none (h : w.state.nullifierMap.lookup (hex n) = none)
    (commits : List String) : markNullifier L commits n w = .ok commits w := by
  refine Returns.eq_ok (returns_get_bind ?_)
  rw [h]
  exact returns_pure ⟨rfl, rfl⟩

theorem markNullifier_of_some (h : w.state.nullifierMap.lookup (hex n) = some shortCommit)
    (hne : shortCommit ≠ "") {noteFile : String}
    (hfind : findNoteFile L w shortCommit = some noteFile) (commits : List String) :
    markNullifier L commits n w = .ok (commits ++ [shortCommit]) (w.spend n noteFile) := by
  have hdel : delItem w.state.nullifierMap (hex n) =
      .ok (dictErase w.state.nullifierMap (hex n)) := by
    rw [delItem, h]
    rfl
  have hmark : markNoteSpent L (hex n) shortCommit w = .ok () (w.spend n noteFile) := by
    refine Returns.eq_ok (returns_get_bind ?_)
    rw [hfind]
    exact returns_modify_bind (returns_get_bind (returns_call_bind hdel (returns_modify ⟨rfl, rfl⟩)))
  refine Returns.eq_ok (returns_get_bind ?_)
  rw [h]
  simp only [if_neg hne]
  exact returns_bind_of_ok hmark (returns_pure ⟨rfl, rfl⟩)

theorem markNullifier_raises (h : w.state.nullifierMap.lookup (hex n) = some shortCommit)
    (hne : shortCommit ≠ "") (hfind : findNoteFile L w shortCommit = none)
    (commits : List String) :
    Raises (markNullifier L commits n) w
      (.exception ("expected to find file for commit " ++ shortCommit)) := by
  refine raises_get_bind ?_
  rw [h]
  simp only [if_neg hne]
  refine Raises.bind (raises_get_bind ?_) _
  rw [hfind]
  exact ⟨w, rfl⟩

end Mark

end Wallet

end Zeth.Client
