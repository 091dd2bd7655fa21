import Zeth.Client.MerkleTreeRoot
import Zeth.Client.Note
import Zeth.Foundation.Dict
import Zeth.Foundation.Stateful

/-!
# The wallet

A wallet follows the outputs of the mixer: it appends every commitment to its copy of the tree,
and keeps the notes that it can decrypt and whose commitment is the one of the output
(`client/zeth/core/wallet.py`).

The state of a wallet survives an exception, so the methods are computations of `Stateful`. The
directory of the wallet is the list of its note files, each with the description it was written
from, the same for the subdirectory of spent notes, and the files of the state and of the tree.
Operations on files do not fail; they are recorded in a journal, which is not part of the program.

## Main definitions

* `Disk`, `FileOp`, `Disk.apply`: the files of a wallet and the operations on them.
* `Wallet`, `Wallet.receiveNote`, `Wallet.receiveNotes`.
* `Wallet.HoldsLeaves`: the tree has the given leaves, and the next address is their number.
* `Wallet.Synced`: all outputs were taken in.

## Main results

* `Wallet.holdsLeaves_new`: a new wallet holds no leaves.
* `Wallet.receiveEvent_returns`, `Wallet.receiveEvents_returns`: one output, and a list of them.
* `Wallet.receiveNotes_synced_iff`: the outputs are taken in exactly when all ciphertexts have the
  expected length and the tree has room.
-/

namespace Zeth.Client

open ByteString Python Stateful List

/-- `ZETH_MERKLE_TREE_DEPTH`. -/
def zethMerkleTreeDepth : ℕ := 32

/-- `ZETH_PUBLIC_UNIT_VALUE`. -/
def zethPublicUnitValue : ℕ := 1000000000000

/-- The conversions of the `web3` library that are used: amounts of 256 bits are converted. -/
structure Web3 where
  /-- `Web3.toWei(amount, "wei")` -/
  toWei : ℕ → Except Exc ℕ
  toWei_eq : ∀ amount, amount < 2 ^ 256 → toWei amount = .ok amount
  /-- `str(Web3.fromWei(amount, "ether"))` -/
  fromWei : ℕ → Except Exc String
  exists_fromWei : ∀ amount, amount < 2 ^ 256 → ∃ s, fromWei amount = .ok s

/-- `ZethNoteDescription` -/
structure ZethNoteDescription where
  note : ZethNote
  address : ℕ
  commitment : Bytes
  deriving DecidableEq, Repr

/-- `WalletState` -/
structure WalletState where
  nextBlock : ℕ
  numNotes : ℕ
  nullifierMap : List (String × String)
  deriving DecidableEq, Repr

/-- The files of a wallet. -/
structure Disk where
  /-- The note files of the directory. -/
  noteFiles : List (String × ZethNoteDescription)
  /-- The note files of the subdirectory `SPENT_SUBDIRECTORY`. -/
  spentFiles : List (String × ZethNoteDescription)
  /-- The file of the state; `WalletState.to_json` reads back. -/
  stateFile : Option WalletState
  /-- `MERKLE_TREE_FILE`. -/
  treeFile : Option MerkleTreeJson
  deriving DecidableEq, Repr

/-- The operations on files. -/
inductive FileOp where
  | writeNote (filename : String) (noteDesc : ZethNoteDescription)
  | moveToSpent (filename : String)
  | writeState (state : WalletState)
  | writeTree (json : MerkleTreeJson)
  deriving DecidableEq, Repr

namespace Disk

/-- A directory without files. -/
def empty : Disk := ⟨[], [], none, none⟩

/-- The files after an operation. A file is moved over one of the same name. -/
def apply (disk : Disk) : FileOp → Disk
  | .writeNote filename noteDesc =>
    { disk with noteFiles := dictSet disk.noteFiles filename noteDesc }
  | .moveToSpent filename =>
    match disk.noteFiles.lookup filename with
    | some noteDesc =>
      { disk with
        noteFiles := dictErase disk.noteFiles filename
        spentFiles := dictSet disk.spentFiles filename noteDesc }
    | none => disk
  | .writeState state => { disk with stateFile := some state }
  | .writeTree json => { disk with treeFile := some json }

/-- The files after operations one after the other. -/
def applyAll (disk : Disk) (ops : List FileOp) : Disk := ops.foldl apply disk

end Disk

/-- `Wallet`, with the files of its directory and the operations on them so far. -/
structure Wallet (C : Cryptography) where
  username : String
  aSk : Bytes
  kSkReceiver : C.SecretKey
  state : WalletState
  merkleTree : MerkleTree
  merkleTreeChanged : Bool
  nextAddr : ℕ
  disk : Disk
  journal : List FileOp

/-- `short_commitment`. -/
def shortCommitment (cm : Bytes) : String := hex (cm.take 4)

/-- `_check_note`. -/
def checkNote (commit : Bytes) (note : ZethNote) (pp : PairingParameters) : Except Exc Bool := do
  let cm ← computeCommitment note pp
  return commit == cm

namespace Wallet

variable {C : Cryptography} (W : Web3) (pp : PairingParameters)

/-- The constructor of a wallet without files. -/
def new (hash : Bytes → Bytes → Bytes) (username : String) (aSk : Bytes)
    (kSkReceiver : C.SecretKey) : Except Exc (Wallet C) := do
  assert ('_' ∉ username.toList) ""
  let merkleTree ← MerkleTree.emptyWithDepth hash zethMerkleTreeDepth
  let nextAddr ← merkleTree.getNumEntries
  return ⟨username, aSk, kSkReceiver, ⟨1, 0, []⟩, merkleTree, false, nextAddr, .empty, []⟩

/-- An operation on the files. -/
def perform (op : FileOp) : Stateful Exc (Wallet C) Unit :=
  modify fun w => { w with disk := w.disk.apply op, journal := w.journal ++ [op] }

/-- `_note_basename`. -/
def noteBasename (username : String) (noteDesc : ZethNoteDescription) : Except Exc String := do
  let value ← intHex noteDesc.note.value
  let wei ← W.toWei (value * zethPublicUnitValue)
  let valueEth ← W.fromWei wei
  return "note_" ++ username ++ "_" ++ format04d noteDesc.address ++ "_" ++
    shortCommitment noteDesc.commitment ++ "_" ++ valueEth

/-- `_write_note`. -/
def writeNote (noteDesc : ZethNoteDescription) : Stateful Exc (Wallet C) Unit := do
  let w ← get
  let filename ← call (noteBasename W w.username noteDesc)
  perform (.writeNote filename noteDesc)

/-- `Wallet.receive_note`. -/
def receiveNote (commAddr : ℕ) (outEv : MixOutputEvents) :
    Stateful Exc (Wallet C) (Option ZethNoteDescription) := do
  let w ← get
  match ← call (Client.receiveNote C outEv w.kSkReceiver) with
  | none => return none
  | some (commit, note) =>
    if ← call (checkNote commit note pp) then
      let noteDesc : ZethNoteDescription := ⟨note, commAddr, commit⟩
      writeNote W noteDesc
      let nullifier ← call (computeNullifier note w.aSk)
      modify fun w => { w with state := { w.state with
        nullifierMap := dictSet w.state.nullifierMap (hex nullifier) (shortCommitment commit) } }
      return some noteDesc
    else return none

/-- `self.merkle_tree.insert`. -/
def insertLeaf (commitment : Bytes) : Stateful Exc (Wallet C) Unit := do
  let w ← get
  let merkleTree ← call (w.merkleTree.insert commitment)
  modify fun w => { w with merkleTree := merkleTree }

/-- The body of the loop of `receive_notes`. -/
def receiveEvent (newNotes : List ZethNoteDescription) (outEv : MixOutputEvents) :
    Stateful Exc (Wallet C) (List ZethNoteDescription) := do
  insertLeaf outEv.commitment
  let w ← get
  let noteDesc ← receiveNote W pp w.nextAddr outEv
  modify fun w => { w with nextAddr := w.nextAddr + 1 }
  return newNotes ++ noteDesc.toList

/-- The loop of `receive_notes`. -/
def receiveEvents (newNotes : List ZethNoteDescription) :
    List MixOutputEvents → Stateful Exc (Wallet C) (List ZethNoteDescription)
  | [] => return newNotes
  | outEv :: outputEvents => do
    let newNotes ← receiveEvent W pp newNotes outEv
    receiveEvents newNotes outputEvents

/-- `Wallet.receive_notes`. -/
def receiveNotes (outputEvents : List MixOutputEvents) :
    Stateful Exc (Wallet C) (List ZethNoteDescription) := do
  modify fun w => { w with merkleTreeChanged := outputEvents.length != 0 }
  let newNotes ← receiveEvents W pp [] outputEvents
  modify fun w => { w with state := { w.state with
    numNotes := w.state.numNotes + outputEvents.length } }
  return newNotes

/-! ### The leaves of the tree -/

/-- The tree has the given leaves, at most as many as fit, and the next address is their
number. -/
structure HoldsLeaves (w : Wallet C) (leaves : List Bytes) : Prop where
  layer : w.merkleTree.treeData.layers[w.merkleTree.depth]? = some leaves
  max : w.merkleTree.maxNumLeaves = 2 ^ zethMerkleTreeDepth
  nextAddr : w.nextAddr = leaves.length
  le : leaves.length ≤ 2 ^ zethMerkleTreeDepth

/-- What the loop of `receive_notes` does not touch before it is done with an output. -/
structure SameLedger (w w' : Wallet C) : Prop where
  merkleTree : w'.merkleTree = w.merkleTree
  nextAddr : w'.nextAddr = w.nextAddr
  numNotes : w'.state.numNotes = w.state.numNotes

theorem SameLedger.refl (w : Wallet C) : SameLedger w w := ⟨rfl, rfl, rfl⟩

/-- A wallet is made for every username without an underscore. -/
theorem new_eq_ok_iff {hash : Bytes → Bytes → Bytes} {username : String} {aSk : Bytes}
    {kSkReceiver : C.SecretKey} {w : Wallet C} :
    new hash username aSk kSkReceiver = .ok w ↔ '_' ∉ username.toList ∧
      w = ⟨username, aSk, kSkReceiver, ⟨1, 0, []⟩, .perfect hash zethMerkleTreeDepth [], false, 0,
        .empty, []⟩ := by
  have hlayer : (MerkleTree.perfect hash zethMerkleTreeDepth []).treeData.layers[
      (MerkleTree.perfect hash zethMerkleTreeDepth []).depth]? = some [] := by
    rw [MerkleTree.perfect_depth]
    rfl
  have hnum : (MerkleTree.perfect hash zethMerkleTreeDepth []).getNumEntries = .ok 0 := by
    rw [MerkleTree.getNumEntries, index_of_getElem? hlayer]
    rfl
  rw [new, MerkleTree.emptyWithDepth_eq, Except.ok_bind, hnum, Except.ok_bind]
  by_cases husername : '_' ∉ username.toList
  · rw [assert_decide husername, Except.ok_bind]
    exact ⟨fun h => ⟨husername, (Except.ok.inj h).symm⟩, fun h => congrArg Except.ok h.2.symm⟩
  · rw [decide_eq_false husername, assert_false, Except.error_bind]
    exact ⟨nofun, fun h => absurd h.1 husername⟩

/-- A new wallet holds no leaves. -/
theorem holdsLeaves_new (hash : Bytes → Bytes → Bytes) {username : String}
    (husername : '_' ∉ username.toList) (aSk : Bytes) (kSkReceiver : C.SecretKey) :
    ∃ w, new hash username aSk kSkReceiver = .ok w ∧ HoldsLeaves w [] := by
  refine ⟨_, new_eq_ok_iff.mpr ⟨husername, rfl⟩, ?_, rfl, rfl, Nat.zero_le _⟩
  rw [MerkleTree.perfect_depth]
  rfl

section Insert

variable {w : Wallet C} {leaves : List Bytes}

theorem insertLeaf_returns (h : HoldsLeaves w leaves)
    (hlt : leaves.length < 2 ^ zethMerkleTreeDepth) (commitment : Bytes) :
    Returns (insertLeaf commitment) w fun _ w' =>
      w'.merkleTree.treeData.layers[w'.merkleTree.depth]? = some (leaves ++ [commitment]) ∧
        w'.merkleTree.maxNumLeaves = 2 ^ zethMerkleTreeDepth ∧ w'.nextAddr = leaves.length ∧
        w'.state.numNotes = w.state.numNotes := by
  have hdepth : w.merkleTree.depth < w.merkleTree.treeData.layers.length :=
    (List.getElem?_eq_some_iff.mp h.layer).1
  have hroom : leaves.length < w.merkleTree.maxNumLeaves := hlt.trans_eq h.max.symm
  have hinsert : w.merkleTree.insert commitment = .ok { w.merkleTree with
      treeData := { w.merkleTree.treeData with
        layers := w.merkleTree.treeData.layers.set w.merkleTree.depth (leaves ++ [commitment]) }
      numNewLeaves := w.merkleTree.numNewLeaves + 1 } := by
    rw [MerkleTree.insert, index_of_getElem? h.layer, Except.ok_bind,
      assert_decide hroom, Except.ok_bind, setItem_of_lt hdepth, Except.ok_bind]
    rfl
  refine returns_get_bind (returns_call_bind hinsert (returns_modify ?_))
  exact ⟨List.getElem?_set_self hdepth, h.max, h.nextAddr, rfl⟩

theorem insertLeaf_raises (h : HoldsLeaves w leaves)
    (hfull : ¬ leaves.length < 2 ^ zethMerkleTreeDepth) (commitment : Bytes) :
    Raises (insertLeaf commitment) w (.assertionError "") := by
  have hinsert : w.merkleTree.insert commitment = .error (.assertionError "") := by
    rw [MerkleTree.insert, index_of_getElem? h.layer, Except.ok_bind, h.max,
      decide_eq_false hfull, assert_false, Except.error_bind]
  exact raises_get_bind (raises_call_bind hinsert _)

end Insert

/-! ### One output -/

/-- A note file can be named: values have eight bytes, so their amounts have 256 bits. -/
theorem exists_noteBasename (username : String) {noteDesc : ZethNoteDescription}
    (h : noteDesc.note.IsHex) : ∃ s, noteBasename W username noteDesc = .ok s := by
  obtain ⟨bs, hvalue, hlen⟩ := h.value
  have hne : bs ≠ [] := by
    rintro rfl
    cases hlen
  have hlt : fromBig bs * zethPublicUnitValue < 2 ^ 256 := by
    have hbs := fromBig_lt bs
    rw [hlen] at hbs
    rw [zethPublicUnitValue]
    omega
  obtain ⟨valueEth, heth⟩ := W.exists_fromWei _ hlt
  rw [noteBasename, hvalue, intHex_hex hne, Except.ok_bind, W.toWei_eq _ hlt, Except.ok_bind,
    heth, Except.ok_bind]
  exact ⟨_, rfl⟩

theorem writeNote_returns (w : Wallet C) (noteDesc : ZethNoteDescription)
    (h : noteDesc.note.IsHex) :
    Returns (writeNote W noteDesc) w fun _ w' => SameLedger w w' := by
  obtain ⟨filename, hfile⟩ := exists_noteBasename W w.username h
  exact returns_get_bind (returns_call_bind hfile (returns_modify ⟨rfl, rfl, rfl⟩))

/-- The note was found in the output, and its commitment recomputes. -/
def IsNoteOf (pp : PairingParameters) (address : ℕ) (outEv : MixOutputEvents)
    (noteDesc : ZethNoteDescription) : Prop :=
  noteDesc.address = address ∧ noteDesc.commitment = outEv.commitment ∧
    computeCommitment noteDesc.note pp = .ok outEv.commitment

/-- An output with a ciphertext of the right length is looked into without an exception. -/
theorem receiveNote_returns (w : Wallet C) (commAddr : ℕ) {outEv : MixOutputEvents}
    (hlen : outEv.ciphertext.length = encryptedNoteLengthBytes) :
    Returns (receiveNote W pp commAddr outEv) w fun r w' =>
      SameLedger w w' ∧ ∀ noteDesc ∈ r, IsNoteOf pp commAddr outEv noteDesc := by
  refine returns_get_bind ?_
  rcases exists_receiveNote w.kSkReceiver hlen with hnone | ⟨note, hhex, hsome⟩
  · refine returns_call_bind hnone (returns_pure ⟨.refl w, fun noteDesc hmem => ?_⟩)
    cases hmem
  · obtain ⟨cm, hcm⟩ := exists_computeCommitment hhex pp
    have hcheck : checkNote outEv.commitment note pp = .ok (outEv.commitment == cm) := by
      rw [checkNote, hcm, Except.ok_bind]
      rfl
    refine returns_call_bind hsome (returns_call_bind hcheck ?_)
    by_cases heq : outEv.commitment = cm
    · rw [if_pos (beq_iff_eq.mpr heq)]
      obtain ⟨nullifier, hnf⟩ := exists_computeNullifier hhex w.aSk
      refine .bind (writeNote_returns W w ⟨note, commAddr, outEv.commitment⟩ hhex)
        fun _ w' hw' => returns_call_bind hnf (returns_modify_bind (returns_pure
          ⟨⟨hw'.merkleTree, hw'.nextAddr, hw'.numNotes⟩, ?_⟩))
      rintro noteDesc ⟨⟩
      exact ⟨rfl, rfl, hcm.trans (congrArg Except.ok heq.symm)⟩
    · rw [if_neg fun h => heq (beq_iff_eq.mp h)]
      refine returns_pure ⟨.refl w, fun noteDesc hmem => ?_⟩
      cases hmem

theorem receiveNote_raises (w : Wallet C) (commAddr : ℕ) {outEv : MixOutputEvents}
    (hlen : outEv.ciphertext.length ≠ encryptedNoteLengthBytes) :
    Raises (receiveNote W pp commAddr outEv) w (.assertionError
      ("encrypted_message byte-length must be: " ++ toString encryptedNoteLengthBytes)) := by
  exact raises_get_bind (raises_call_bind (receiveNote_of_length_ne w.kSkReceiver hlen) _)

section Step

variable {w : Wallet C} {leaves : List Bytes} {outEv : MixOutputEvents}

/-- One turn of the loop: a leaf more, and a note more at most. -/
theorem receiveEvent_returns (h : HoldsLeaves w leaves)
    (hlt : leaves.length < 2 ^ zethMerkleTreeDepth)
    (hlen : outEv.ciphertext.length = encryptedNoteLengthBytes)
    (newNotes : List ZethNoteDescription) :
    Returns (receiveEvent W pp newNotes outEv) w fun r w' =>
      HoldsLeaves w' (leaves ++ [outEv.commitment]) ∧ w'.state.numNotes = w.state.numNotes ∧
        ∀ noteDesc ∈ r, noteDesc ∈ newNotes ∨ IsNoteOf pp leaves.length outEv noteDesc := by
  refine .bind (insertLeaf_returns h hlt outEv.commitment) ?_
  rintro _ w₁ ⟨hlayer, hmax, haddr, hnum⟩
  refine returns_get_bind (.bind (receiveNote_returns W pp w₁ w₁.nextAddr hlen) ?_)
  rintro r w₂ ⟨hsame, hnotes⟩
  refine returns_modify_bind (returns_pure ⟨⟨?_, ?_, ?_, ?_⟩, hsame.numNotes.trans hnum, ?_⟩)
  · change w₂.merkleTree.treeData.layers[w₂.merkleTree.depth]? = _
    rw [hsame.merkleTree, hlayer]
  · change w₂.merkleTree.maxNumLeaves = _
    rw [hsame.merkleTree, hmax]
  · change w₂.nextAddr + 1 = _
    rw [hsame.nextAddr, haddr, length_append, length_singleton]
  · rw [length_append, length_singleton]
    exact hlt
  · intro noteDesc hmem
    rcases mem_append.mp hmem with hmem | hmem
    · exact Or.inl hmem
    · rw [← haddr]
      exact Or.inr (hnotes noteDesc (Option.mem_toList.mp hmem))

/-- With room in the tree, a ciphertext of another length fails the assertion of `decrypt`. -/
theorem receiveEvent_raises_of_length_ne (outEv : MixOutputEvents) (h : HoldsLeaves w leaves)
    (hlt : leaves.length < 2 ^ zethMerkleTreeDepth)
    (hlen : outEv.ciphertext.length ≠ encryptedNoteLengthBytes)
    (newNotes : List ZethNoteDescription) :
    Raises (receiveEvent W pp newNotes outEv) w (.assertionError
      ("encrypted_message byte-length must be: " ++ toString encryptedNoteLengthBytes)) := by
  obtain ⟨_, w₁, hinsert, -⟩ := insertLeaf_returns h hlt outEv.commitment
  exact raises_bind_of_ok hinsert (raises_get_bind
    ((receiveNote_raises W pp w₁ w₁.nextAddr hlen).bind _))

theorem receiveEvent_raises (h : HoldsLeaves w leaves)
    (hbad : ¬ (leaves.length < 2 ^ zethMerkleTreeDepth ∧
      outEv.ciphertext.length = encryptedNoteLengthBytes))
    (newNotes : List ZethNoteDescription) :
    ∃ e, Raises (receiveEvent W pp newNotes outEv) w e := by
  by_cases hlt : leaves.length < 2 ^ zethMerkleTreeDepth
  · exact ⟨_, receiveEvent_raises_of_length_ne W pp outEv h hlt (fun hlen => hbad ⟨hlt, hlen⟩)
      newNotes⟩
  · exact ⟨_, (insertLeaf_raises h hlt outEv.commitment).bind _⟩

end Step

/-! ### Lists of outputs -/

/-- All ciphertexts have the expected length and the tree has room for all commitments. -/
def Receivable (leaves : List Bytes) (outputEvents : List MixOutputEvents) : Prop :=
  (∀ outEv ∈ outputEvents, outEv.ciphertext.length = encryptedNoteLengthBytes) ∧
    leaves.length + outputEvents.length ≤ 2 ^ zethMerkleTreeDepth

theorem receivable_cons {leaves : List Bytes} {outEv : MixOutputEvents}
    {outputEvents : List MixOutputEvents} :
    Receivable leaves (outEv :: outputEvents) ↔
      (leaves.length < 2 ^ zethMerkleTreeDepth ∧
        outEv.ciphertext.length = encryptedNoteLengthBytes) ∧
      Receivable (leaves ++ [outEv.commitment]) outputEvents := by
  rw [Receivable, Receivable, forall_mem_cons, length_cons, length_append,
    length_singleton]
  constructor
  · rintro ⟨⟨hlen, hall⟩, hroom⟩
    exact ⟨⟨by omega, hlen⟩, hall, by omega⟩
  · rintro ⟨⟨-, hlen⟩, hall, hroom⟩
    exact ⟨⟨hlen, hall⟩, by omega⟩

/-- The note was found in one of the outputs, at the address of its leaf. -/
def IsNoteIn (pp : PairingParameters) (start : ℕ) (outputEvents : List MixOutputEvents)
    (noteDesc : ZethNoteDescription) : Prop :=
  ∃ i outEv, outputEvents[i]? = some outEv ∧ IsNoteOf pp (start + i) outEv noteDesc

/-- The loop, by induction on the outputs: leaves are appended in order. -/
theorem receiveEvents_returns {outputEvents : List MixOutputEvents} {w : Wallet C}
    {leaves : List Bytes} (h : HoldsLeaves w leaves) (hrec : Receivable leaves outputEvents)
    (newNotes : List ZethNoteDescription) :
    Returns (receiveEvents W pp newNotes outputEvents) w fun r w' =>
      HoldsLeaves w' (leaves ++ outputEvents.map MixOutputEvents.commitment) ∧
        w'.state.numNotes = w.state.numNotes ∧
        ∀ noteDesc ∈ r, noteDesc ∈ newNotes ∨ IsNoteIn pp leaves.length outputEvents noteDesc := by
  induction outputEvents generalizing w leaves newNotes with
  | nil =>
    refine returns_pure ⟨?_, rfl, fun noteDesc hmem => Or.inl hmem⟩
    rw [map_nil, append_nil]
    exact h
  | cons outEv outputEvents ih =>
    obtain ⟨⟨hlt, hlen⟩, hrest⟩ := receivable_cons.mp hrec
    refine .bind (receiveEvent_returns W pp h hlt hlen newNotes) ?_
    rintro newNotes' w₁ ⟨hleaves, hnum, hnotes⟩
    refine (ih hleaves hrest newNotes').mono ?_
    rintro r w' ⟨hleaves', hnum', hnotes'⟩
    rw [append_assoc] at hleaves'
    refine ⟨hleaves', hnum'.trans hnum, fun noteDesc hmem => ?_⟩
    rcases hnotes' noteDesc hmem with hmem | ⟨i, outEv', hget, hnote⟩
    · rcases hnotes noteDesc hmem with hmem | hnote
      · exact Or.inl hmem
      · exact Or.inr ⟨0, outEv, rfl, hnote⟩
    · refine Or.inr ⟨i + 1, outEv', hget, ?_⟩
      rwa [length_append, length_singleton, Nat.add_assoc, Nat.add_comm 1 i] at hnote

theorem receiveEvents_raises {outputEvents : List MixOutputEvents} {w : Wallet C}
    {leaves : List Bytes} (h : HoldsLeaves w leaves) (hrec : ¬ Receivable leaves outputEvents)
    (newNotes : List ZethNoteDescription) :
    ∃ e, Raises (receiveEvents W pp newNotes outputEvents) w e := by
  induction outputEvents generalizing w leaves newNotes with
  | nil =>
    refine absurd ⟨fun outEv hmem => ?_, h.le⟩ hrec
    cases hmem
  | cons outEv outputEvents ih =>
    by_cases hstep : leaves.length < 2 ^ zethMerkleTreeDepth ∧
        outEv.ciphertext.length = encryptedNoteLengthBytes
    · obtain ⟨newNotes', w₁, hevent, hleaves, -⟩ :=
        receiveEvent_returns W pp h hstep.1 hstep.2 newNotes
      have hrest : ¬ Receivable (leaves ++ [outEv.commitment]) outputEvents := fun hrest =>
        hrec (receivable_cons.mpr ⟨hstep, hrest⟩)
      obtain ⟨e, hraises⟩ := ih hleaves hrest newNotes'
      exact ⟨e, raises_bind_of_ok hevent hraises⟩
    · obtain ⟨e, hraises⟩ := receiveEvent_raises W pp h hstep newNotes
      exact ⟨e, hraises.bind _⟩

/-- The call returns; one leaf for each output was appended in order, the counters advanced by the
number of outputs, and the notes returned were found in the outputs. -/
def Synced (w : Wallet C) (leaves : List Bytes) (outputEvents : List MixOutputEvents) : Prop :=
  Returns (receiveNotes W pp outputEvents) w fun newNotes w' =>
    HoldsLeaves w' (leaves ++ outputEvents.map MixOutputEvents.commitment) ∧
      w'.nextAddr = w.nextAddr + outputEvents.length ∧
      w'.state.numNotes = w.state.numNotes + outputEvents.length ∧
      ∀ noteDesc ∈ newNotes, IsNoteIn pp w.nextAddr outputEvents noteDesc

/-- The outputs are taken in exactly when all ciphertexts have the expected length and the tree has
room for the commitments. -/
theorem receiveNotes_synced_iff (w : Wallet C) (leaves : List Bytes) (h : HoldsLeaves w leaves)
    (outputEvents : List MixOutputEvents) :
    Synced W pp w leaves outputEvents ↔ Receivable leaves outputEvents := by
  have h₀ : HoldsLeaves { w with merkleTreeChanged := outputEvents.length != 0 } leaves :=
    ⟨h.layer, h.max, h.nextAddr, h.le⟩
  constructor
  · intro hsync
    by_contra hrec
    obtain ⟨e, hraises⟩ := receiveEvents_raises W pp h₀ hrec []
    exact hsync.not_raises e (raises_modify_bind (hraises.bind _))
  · intro hrec
    refine returns_modify_bind (.bind (receiveEvents_returns W pp h₀ hrec []) ?_)
    rintro newNotes w₁ ⟨hleaves, hnum, hnotes⟩
    refine returns_modify_bind (returns_pure
      ⟨⟨hleaves.layer, hleaves.max, hleaves.nextAddr, hleaves.le⟩, ?_, ?_, fun noteDesc hmem => ?_⟩)
    · change w₁.nextAddr = _
      rw [hleaves.nextAddr, h.nextAddr, length_append, length_map]
    · change w₁.state.numNotes + outputEvents.length = _
      rw [hnum]
    · rw [h.nextAddr]
      exact (hnotes noteDesc hmem).resolve_left not_mem_nil

section Plain

/-- A library without secrets: every key is accepted, every tag verifies and ciphertexts are
plaintexts. -/
def plainCryptography : Cryptography where
  SecretKey := Unit
  PublicKey := Unit
  fromPublicBytes _ := .ok ()
  fromPublicBytes_raises h := by cases h
  exchange _ _ := .ok []
  exchange_raises h := by cases h
  blake2b _ := List.replicate 64 0
  length_blake2b _ := length_replicate
  poly1305Verify _ _ _ := .ok ()
  poly1305Verify_raises _ h := by cases h
  chaCha20 _ _ data := data

/-- Amounts are shown in wei. -/
def plainWeb3 : Web3 where
  toWei := .ok
  toWei_eq _ _ := rfl
  fromWei amount := .ok (toString amount)
  exists_fromWei _ _ := ⟨_, rfl⟩

/-- A new wallet with a tree hash that forgets its arguments. -/
def plainWallet : Except Exc (Wallet plainCryptography) :=
  new (fun _ _ => zeroEntry) "alice" zeroEntry ()

theorem receiveNotes_synced_one_output :
    ∃ w, plainWallet = .ok w ∧ HoldsLeaves w [] ∧
      Synced plainWeb3 ⟨97, by decide⟩ w [] [⟨zeroEntry, List.replicate 152 0⟩] := by
  obtain ⟨w, hw, hleaves⟩ := holdsLeaves_new (C := plainCryptography) (fun _ _ => zeroEntry)
    (by decide : '_' ∉ "alice".toList) zeroEntry ()
  refine ⟨w, hw, hleaves, (receiveNotes_synced_iff plainWeb3 ⟨97, by decide⟩ w [] hleaves
    [⟨zeroEntry, List.replicate 152 0⟩]).mpr ⟨?_, Nat.one_le_two_pow⟩⟩
  rintro outEv hmem
  obtain rfl := mem_singleton.mp hmem
  exact length_replicate

/-- One output with an empty ciphertext makes a new wallet raise. -/
theorem receiveNotes_empty_ciphertext_raises :
    ∃ w, plainWallet = .ok w ∧ HoldsLeaves w [] ∧
      Raises (receiveNotes plainWeb3 ⟨97, by decide⟩ [⟨zeroEntry, []⟩]) w
        (.assertionError "encrypted_message byte-length must be: 152") := by
  obtain ⟨w, hw, hleaves⟩ := holdsLeaves_new (C := plainCryptography) (fun _ _ => zeroEntry)
    (by decide : '_' ∉ "alice".toList) zeroEntry ()
  have hlen : ([] : Bytes).length ≠ encryptedNoteLengthBytes := by decide
  have hleaves₀ : HoldsLeaves { w with merkleTreeChanged := true } [] :=
    ⟨hleaves.layer, hleaves.max, hleaves.nextAddr, hleaves.le⟩
  have hevent := receiveEvent_raises_of_length_ne plainWeb3 ⟨97, by decide⟩
    ⟨zeroEntry, []⟩ hleaves₀ (Nat.two_pow_pos _) hlen []
  exact ⟨w, hw, hleaves, raises_modify_bind ((hevent.bind _).bind _)⟩

end Plain

end Wallet

end Zeth.Client
