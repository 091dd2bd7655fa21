import Zeth.Client.Ledger

/-!
# The wallet tracks its unspent notes

After any number of results, the note files of a wallet should be those of the received notes whose
nullifier has not appeared, the files of the spent ones should be in the subdirectory, and the map of
nullifiers should have one entry for each unspent note. This is so exactly when all outputs can be
taken in and, whenever a note is spent, no other unspent note has a commitment that starts with the
same four bytes: otherwise the pattern for the file of the note matches two files, and
`_find_note_file` gives none of them.

A ledger knows the spent notes by the order of the calls. On results in which no nullifier appears
before its note, they are also known by the set of the nullifiers so far, and the property is stated in
these terms.

## Main definitions

* `Owner.unspent`, `Owner.spent`: the notes by the outputs and nullifiers so far.
* `Wallet.TracksNotes`, `Wallet.Tracks`: the property after a result, and after each of them.
* `Wallet.Separated`: no note is spent while another one starts alike.

## Main results

* `Wallet.WellFormed.splits_ledger`: the ledger, by the set of the nullifiers.
* `Wallet.tracks_iff`.
-/

namespace Zeth.Client

open ByteString Python Stateful List

namespace Owner

variable {C : Cryptography} (pp : PairingParameters) (o : Owner C)

/-- The received notes whose nullifier has not appeared. -/
def unspent (outs : List MixOutputEvents) (used : List Bytes) : List ZethNoteDescription :=
  (o.received pp 0 outs).filter fun d => o.nullifier d ∉ used

/-- The received notes whose nullifier has appeared. -/
def spent (outs : List MixOutputEvents) (used : List Bytes) : List ZethNoteDescription :=
  (o.received pp 0 outs).filter fun d => o.nullifier d ∈ used

variable {pp o}

/-- No other unspent note starts like a note with the given nullifier. -/
def SeparatedAt (pp : PairingParameters) (o : Owner C) (outs : List MixOutputEvents)
    (used : List Bytes) (n : Bytes) : Prop :=
  ∀ d ∈ o.unspent pp outs used, o.nullifier d = n → ∀ d' ∈ o.unspent pp outs used,
    shortCommitment d'.commitment = shortCommitment d.commitment → d' = d

/-! #### More outputs -/

section Outputs

variable {outs outs' : List MixOutputEvents} {used : List Bytes}
  (hlater : ∀ d ∈ o.received pp outs.length outs', o.nullifier d ∉ used)

include hlater

/-- Notes whose nullifier has not appeared before are unspent. -/
theorem unspent_append :
    o.unspent pp (outs ++ outs') used =
      o.unspent pp outs used ++ o.received pp outs.length outs' := by
  rw [unspent, received_append, filter_append, Nat.zero_add]
  refine congrArg (o.unspent pp outs used ++ ·) (filter_eq_self.mpr fun d hd => ?_)
  exact decide_eq_true (hlater d hd)

theorem spent_append : o.spent pp (outs ++ outs') used = o.spent pp outs used := by
  rw [spent, received_append, filter_append, Nat.zero_add]
  have hnone : (o.received pp outs.length outs').filter (fun d => o.nullifier d ∈ used) = [] :=
    filter_eq_nil_iff.mpr fun d hd h => hlater d hd (of_decide_eq_true h)
  rw [hnone, append_nil]
  rfl

end Outputs

/-! #### One more nullifier -/

theorem unspent_concat (outs : List MixOutputEvents) (used : List Bytes) (n : Bytes) :
    o.unspent pp outs (used ++ [n]) =
      (o.unspent pp outs used).filter fun d => o.nullifier d ≠ n := by
  rw [unspent, unspent, filter_filter]
  refine filter_congr fun d _ => ?_
  simp [and_comm]

theorem spent_concat (outs : List MixOutputEvents) (used : List Bytes) (n : Bytes) :
    (o.spent pp outs (used ++ [n])).Perm
      (o.spent pp outs used ++ (o.unspent pp outs used).filter fun d => o.nullifier d = n) := by
  have hsplit := (filter_append_perm (fun d => decide (o.nullifier d ∈ used))
    (o.spent pp outs (used ++ [n]))).symm
  refine hsplit.trans (List.Perm.of_eq (congrArg₂ _ ?_ ?_))
  · rw [spent, spent, filter_filter]
    refine filter_congr fun d _ => ?_
    by_cases h : o.nullifier d ∈ used
    · simp [h]
    · simp [h]
  · rw [spent, unspent, filter_filter, filter_filter]
    refine filter_congr fun d _ => ?_
    by_cases h : o.nullifier d ∈ used
    · simp [h]
    · simp [h]

end Owner

/-! ### The ledger, by the set of the nullifiers -/

namespace Ledger

variable {C : Cryptography} {pp : PairingParameters} {o : Owner C} {outs : List MixOutputEvents}
  {used : List Bytes} {l : Ledger}

/-- The notes of the ledger are spent if and only if their nullifier has appeared. -/
structure Splits (pp : PairingParameters) (o : Owner C) (outs : List MixOutputEvents)
    (used : List Bytes) (l : Ledger) : Prop where
  unspent : l.unspent = o.unspent pp outs used
  spent : l.spent.Perm (o.spent pp outs used)

theorem Splits.receive (h : l.Splits pp o outs used) {outs' : List MixOutputEvents}
    (hlater : ∀ d ∈ o.received pp outs.length outs', o.nullifier d ∉ used) :
    (l.receive (o.received pp outs.length outs')).Splits pp o (outs ++ outs') used := by
  refine ⟨?_, ?_⟩
  · rw [Owner.unspent_append hlater, ← h.unspent]
    rfl
  · rw [Owner.spent_append hlater]
    exact h.spent

theorem Splits.use (h : l.Splits pp o outs used) (n : Bytes) :
    (l.use o n).Splits pp o outs (used ++ [n]) := by
  refine ⟨?_, ?_⟩
  · rw [Owner.unspent_concat, ← h.unspent]
    rfl
  · refine List.Perm.trans ?_ (Owner.spent_concat outs used n).symm
    rw [← h.unspent]
    exact h.spent.append_right _

theorem Splits.useAll (h : l.Splits pp o outs used) (ns : List Bytes) :
    (l.useAll o ns).Splits pp o outs (used ++ ns) := by
  induction ns generalizing l used with
  | nil => rwa [append_nil]
  | cons n ns ih =>
    rw [append_cons]
    exact ih (h.use n)

end Ledger

namespace Wallet

variable {C : Cryptography} {L : Stdlib} {W : Web3} {pp : PairingParameters} {o : Owner C}
  {hash : Bytes → Bytes → Bytes} {w : Wallet C}

/-! ### Runs -/

/-- The conditions of the mixer on results: distinct leaves carry distinct commitments, a nullifier
appears at most once, the own notes have distinct nullifiers, and none of these appears before the
result with the note. -/
structure WellFormed (pp : PairingParameters) (o : Owner C) (mixResults : List MixResult) : Prop where
  commitments : ((outputsOf mixResults).map MixOutputEvents.commitment).Nodup
  nullifiers : (nullifiersOf mixResults).Nodup
  own : ((o.received pp 0 (outputsOf mixResults)).map o.nullifier).Nodup
  later : ∀ before r after, mixResults = before ++ r :: after →
    ∀ d ∈ o.received pp (outputsOf before).length r.outputEvents, o.nullifier d ∉ nullifiersOf before

/-- The note files are those of the unspent notes, the files in the subdirectory are those of the
spent ones, and the map of nullifiers has one entry for each unspent note. -/
structure TracksNotes (W : Web3) (pp : PairingParameters) (o : Owner C) (mixResults : List MixResult)
    (w : Wallet C) : Prop where
  noteFiles : w.disk.noteFiles.Perm
    ((o.unspent pp (outputsOf mixResults) (nullifiersOf mixResults)).map (o.file W))
  spentFiles : w.disk.spentFiles.Perm
    ((o.spent pp (outputsOf mixResults) (nullifiersOf mixResults)).map (o.file W))
  nullifierMap : w.state.nullifierMap.Perm
    ((o.unspent pp (outputsOf mixResults) (nullifiersOf mixResults)).map o.entry)

/-- After each of the results, no exception has been raised and the wallet knows its notes. -/
def Tracks (L : Stdlib) (W : Web3) (pp : PairingParameters) (w : Wallet C)
    (mixResults : List MixResult) : Prop :=
  ∀ done, done <+: mixResults → Returns (processResults L W pp done) w fun _ w' =>
    TracksNotes W pp w.owner done w'

/-- Whenever a note is spent, no other unspent note has a commitment that starts alike. -/
def Separated (pp : PairingParameters) (o : Owner C) (mixResults : List MixResult) : Prop :=
  ∀ before r after, mixResults = before ++ r :: after →
    ∀ ns n ns', r.nullifiers = ns ++ n :: ns' →
      o.SeparatedAt pp (outputsOf (before ++ [r])) (nullifiersOf before ++ ns) n

/-- A wallet that holds a ledger tracks its notes. -/
theorem tracksNotes_of_holds (hvalue : W.Numeral) {done : List MixResult} {l : Ledger}
    (h : Holds W pp hash o .none (outputsOf done) l w)
    (hsplits : l.Splits pp o (outputsOf done) (nullifiersOf done)) : TracksNotes W pp o done w := by
  have hnames := (h.ledger.map (o.noteName W)).nodup_iff.mpr (Owner.nodup_noteName_received hvalue _)
  have hunspent := hnames.sublist ((sublist_append_left _ _).map _)
  have hspent := hnames.sublist ((sublist_append_right _ _).map _)
  have hnoteFiles := h.noteFiles
  have hspentFiles := h.spentFiles
  rw [Residue.files_none] at hnoteFiles
  rw [Residue.spentFiles_none] at hspentFiles
  refine ⟨?_, ?_, ?_⟩
  · rw [← hsplits.unspent]
    exact hnoteFiles.perm (.of_list hunspent)
  · exact (hspentFiles.perm (.of_list hspent)).trans (hsplits.spent.map _)
  · rw [h.remembers.nullifierMap, hsplits.unspent]

section Result

variable {mixResults before after : List MixResult} {r : MixResult}
  (hwf : WellFormed pp o mixResults)

include hwf

theorem WellFormed.splits_ledger (hsplit : mixResults = before ++ after) :
    (o.ledger pp before).Splits pp o (outputsOf before) (nullifiersOf before) := by
  induction before using List.reverseRecOn generalizing after with
  | nil => exact ⟨rfl, .refl _⟩
  | append_singleton before r ih =>
    rw [append_assoc] at hsplit
    rw [Owner.ledger_concat, outputsOf_concat, nullifiersOf_concat]
    exact ((ih hsplit).receive (hwf.later before r after hsplit)).useAll _

theorem WellFormed.nodup_nullifier (hsplit : mixResults = before ++ after) :
    ((o.received pp 0 (outputsOf before)).map o.nullifier).Nodup := by
  have hown := hwf.own
  rw [hsplit, outputsOf, flatMap_append, Owner.received_append] at hown
  exact hown.sublist ((sublist_append_left _ _).map _)

variable (hsplit : mixResults = before ++ r :: after)

include hsplit

/-- What makes a result good, by the set of the nullifiers so far. -/
theorem WellFormed.goodResult_iff :
    GoodResult pp o .none before r ↔
      Receivable ((outputsOf before).map MixOutputEvents.commitment) r.outputEvents ∧
        ∀ ns n ns', r.nullifiers = ns ++ n :: ns' →
          o.SeparatedAt pp (outputsOf (before ++ [r])) (nullifiersOf before ++ ns) n := by
  have hledger (ns : List Bytes) : (((o.ledger pp before).receive
      (o.received pp (outputsOf before).length r.outputEvents)).useAll o ns).unspent =
      o.unspent pp (outputsOf (before ++ [r])) (nullifiersOf before ++ ns) := by
    rw [outputsOf_concat]
    exact (((hwf.splits_ledger hsplit).receive (hwf.later before r after hsplit)).useAll ns).unspent
  have hmissing (d : ZethNoteDescription) : d ∉ Residue.none.missing := Set.notMem_empty d
  simp only [GoodResult, Markable, Residue.files_none, Set.mem_ofPred_eq, hledger, hmissing,
    not_false_eq_true, true_and, Owner.SeparatedAt]

end Result

/-- A wallet that has taken in nothing tracks its notes exactly when all results are good. -/
theorem tracks_iff_goodResult (husername : Literal o.username) (hvalue : W.Numeral)
    (h : Holds W pp hash o .none [] .empty w) {mixResults : List MixResult}
    (hwf : WellFormed pp o mixResults) :
    Tracks L W pp w mixResults ↔
      ∀ before r after, mixResults = before ++ r :: after → GoodResult pp o .none before r := by
  have howner := h.remembers.owner
  subst howner
  have hrun {done rest : List MixResult} (hsplit : mixResults = done ++ rest) :=
    processResults_returns_or_raises (L := L) husername hvalue
      (Residue.fits_none (outputsOf ([] ++ done))) (hwf.nodup_nullifier hsplit) h
  constructor
  · intro htracks
    rcases hrun (append_nil mixResults).symm with ⟨hall, -⟩ | ⟨-, e, hraises⟩
    · exact hall
    · exact absurd hraises ((htracks mixResults (prefix_refl _)).not_raises e)
  · rintro hall done ⟨rest, hsplit⟩
    rcases hrun hsplit.symm with ⟨-, hreturns⟩ | ⟨hnot, -⟩
    · refine hreturns.mono fun _ w' hw' => ?_
      exact tracksNotes_of_holds hvalue hw'.2.2.1 (hwf.splits_ledger hsplit.symm)
    · refine absurd (fun before r after hdone => ?_) hnot
      exact hall before r (after ++ rest) (by rw [← hsplit, hdone, append_assoc]; rfl)

/-- Outputs of results that can be taken in one after the other. -/
theorem receivable_outputsOf_iff (mixResults : List MixResult) :
    Receivable [] (outputsOf mixResults) ↔ ∀ before r after, mixResults = before ++ r :: after →
      Receivable ((outputsOf before).map MixOutputEvents.commitment) r.outputEvents := by
  constructor
  · rintro ⟨hlen, hroom⟩ before r after rfl
    have hall : outputsOf (before ++ r :: after) =
        outputsOf before ++ (r.outputEvents ++ outputsOf after) := by
      rw [outputsOf, flatMap_append, flatMap_cons]
      rfl
    rw [hall] at hlen hroom
    refine ⟨fun outEv hmem => hlen outEv ?_, ?_⟩
    · exact mem_append_right _ (mem_append_left _ hmem)
    · simp only [length_append, length_map, length_nil] at hroom ⊢
      omega
  · intro hall
    refine ⟨fun outEv hmem => ?_, ?_⟩
    · obtain ⟨r, hr, hmem⟩ := mem_flatMap.mp hmem
      obtain ⟨before, after, hsplit⟩ := append_of_mem hr
      exact (hall before r after hsplit).1 outEv hmem
    · -- the room for all outputs is that for the last result
      rcases eq_nil_or_concat mixResults with rfl | ⟨before, r, rfl⟩
      · exact Nat.zero_le _
      · have hroom := (hall before r [] (concat_eq_append)).2
        rw [concat_eq_append, outputsOf_concat, length_append, length_nil,
          Nat.zero_add]
        rwa [length_map] at hroom

/-- **The wallet tracks exactly its unspent notes** if and only if all outputs can be taken in and no
note is spent while another unspent note has a commitment that starts with the same four bytes. -/
theorem tracks_iff {username : String} {aSk : Bytes} {kSkReceiver : C.SecretKey}
    (hnew : new hash username aSk kSkReceiver = .ok w) (husername : Literal username)
    (hvalue : W.Numeral) {mixResults : List MixResult} (hwf : WellFormed pp w.owner mixResults) :
    Tracks L W pp w mixResults ↔
      Receivable [] (outputsOf mixResults) ∧ Separated pp w.owner mixResults := by
  have hholds : Holds W pp hash ⟨username, aSk, kSkReceiver⟩ .none [] .empty w := holds_new hnew
  have howner := hholds.remembers.owner
  have hname : w.owner.username = username := congrArg Owner.username howner
  rw [← howner] at hholds
  rw [tracks_iff_goodResult (hname ▸ husername) hvalue hholds hwf, receivable_outputsOf_iff]
  constructor
  · intro hall
    exact ⟨fun before r after hsplit => ((hwf.goodResult_iff hsplit).mp (hall _ _ _ hsplit)).1,
      fun before r after hsplit => ((hwf.goodResult_iff hsplit).mp (hall _ _ _ hsplit)).2⟩
  · rintro ⟨hrec, hsep⟩ before r after hsplit
    exact (hwf.goodResult_iff hsplit).mpr ⟨hrec before r after hsplit, hsep before r after hsplit⟩

/-! ### Plain notes -/

section Plain

/-- The order of the scalar field of ALT-BN128. -/
def altBN128 : PairingParameters :=
  ⟨21888242871839275222246405745257275088548364400416034343698204186575808495617, by decide⟩

/-- The bytes of a note without value whose `rho` is a number. -/
def noteBytes (rho : ℕ) : Bytes := zeroEntry ++ List.replicate 8 0 ++ toBig 32 rho ++ zeroEntry

/-- The note itself. -/
def noteOf (rho : ℕ) : ZethNote where
  apk := hex zeroEntry
  value := hex (List.replicate 8 0)
  rho := hex (toBig 32 rho)
  trapR := hex zeroEntry

/-- Its commitment. -/
def commitmentOf (rho : ℕ) : Bytes :=
  toBig 32 (fromBig (Blake2s.hash (zeroEntry ++ zeroEntry ++ toBig 32 rho ++ List.replicate 8 0)) %
    altBN128.scalarFieldMod)

/-- An output with the note, in plain text. -/
def outputOf (rho : ℕ) : MixOutputEvents :=
  ⟨commitmentOf rho, List.replicate 32 0 ++ noteBytes rho ++ List.replicate 16 0⟩

/-- The owner of a plain wallet. -/
def plainOwner (username : String) : Owner plainCryptography := ⟨username, zeroEntry, ()⟩

theorem length_noteBytes (rho : ℕ) : (noteBytes rho).length = noteLengthBytes := by
  simp only [noteBytes, length_append, length_toBig, zeroEntry, length_replicate]
  rfl

theorem length_ciphertext_outputOf (rho : ℕ) :
    (outputOf rho).ciphertext.length = encryptedNoteLengthBytes := by
  simp only [outputOf, length_append, length_noteBytes, length_replicate]
  rfl

theorem decrypt_outputOf (rho : ℕ) :
    decrypt plainCryptography (outputOf rho).ciphertext () = .ok (noteBytes rho) := by
  have hlen := length_ciphertext_outputOf rho
  have hbody : ((outputOf rho).ciphertext.drop ecPublicKeyLengthBytes).take noteLengthBytes =
      noteBytes rho := by
    change ((List.replicate 32 0 ++ noteBytes rho ++ List.replicate 16 0).drop 32).take _ = _
    rw [append_assoc, drop_left' length_replicate,
      take_left' (length_noteBytes rho)]
  have hassert (message : String) :
      assert ((outputOf rho).ciphertext.length == encryptedNoteLengthBytes) message = .ok () := by
    rw [hlen, beq_self_eq_true, assert_true]
  simp only [decrypt, hassert, Except.ok_bind, hbody]
  rfl

theorem zethNoteFromBytes_noteBytes (rho : ℕ) :
    zethNoteFromBytes (noteBytes rho) = .ok (noteOf rho) := by
  have hrho : (noteBytes rho).drop 40 = toBig 32 rho ++ zeroEntry := by
    rw [noteBytes, append_assoc]
    exact drop_left' rfl
  have htrapR : (noteBytes rho).drop 72 = zeroEntry := by
    rw [← drop_drop (i := 32) (j := 40), hrho]
    exact drop_left' (length_toBig 32 rho)
  rw [zethNoteFromBytes, if_neg (not_not.mpr (length_noteBytes rho)), hrho, htrapR,
    take_left' (length_toBig 32 rho)]
  rfl

theorem computeCommitment_noteOf (rho : ℕ) :
    computeCommitment (noteOf rho) altBN128 = .ok (commitmentOf rho) := by
  simp only [computeCommitment, noteOf, fromhex_hex, Except.ok_bind]
  exact if_pos ((Nat.mod_lt _ altBN128.pos).trans (by decide))

theorem ownNote_outputOf (username : String) (rho : ℕ) :
    (plainOwner username).ownNote altBN128 (outputOf rho) = some (noteOf rho) := by
  have hreceive : Client.receiveNote plainCryptography (outputOf rho) () =
      .ok (some (commitmentOf rho, noteOf rho)) := by
    have hopen : openNote plainCryptography (outputOf rho) () =
        .ok (commitmentOf rho, noteOf rho) := by
      simp only [openNote, decrypt_outputOf, Except.ok_bind, zethNoteFromBytes_noteBytes]
      rfl
    simp only [Client.receiveNote, hopen]
  have hcheck : checkNote (commitmentOf rho) (noteOf rho) altBN128 = .ok true := by
    rw [checkNote, computeCommitment_noteOf, Except.ok_bind, beq_self_eq_true]
    rfl
  have hkey : (plainOwner username).kSkReceiver = () := rfl
  simp only [Owner.ownNote, hkey, hreceive, hcheck, if_true]

theorem computeNullifier_noteOf (rho : ℕ) :
    computeNullifier (noteOf rho) zeroEntry = .ok (Blake2s.hash (toBig 32 (14 * 2 ^ 252) ++ toBig 32 rho)) := by
  have hleg : R1CS.natOfBits ([true, true, true, false] ++ (toBits zeroEntry).take 252) =
      14 * 2 ^ 252 := by
    decide +kernel
  have hbytes : toBytesBig 32 (14 * 2 ^ 252) = .ok (toBig 32 (14 * 2 ^ 252)) := if_pos (by decide)
  rw [computeNullifier]
  simp only [hleg, hbytes, noteOf, fromhex_hex, Except.ok_bind]
  rfl

/-- The note in an output, as the wallet describes it. -/
def descOf (rho address : ℕ) : ZethNoteDescription := ⟨noteOf rho, address, commitmentOf rho⟩

theorem own_outputOf (username : String) (rho address : ℕ) :
    (plainOwner username).own altBN128 address (outputOf rho) = some (descOf rho address) := by
  rw [Owner.own, ownNote_outputOf]
  rfl

theorem nullifier_descOf (username : String) (rho address : ℕ) :
    (plainOwner username).nullifier (descOf rho address) =
      Blake2s.hash (toBig 32 (14 * 2 ^ 252) ++ toBig 32 rho) := by
  rw [Owner.nullifier]
  change (computeNullifier (noteOf rho) zeroEntry).toOption.getD [] = _
  rw [computeNullifier_noteOf]
  rfl

/-- A note that is received and then spent. -/
def oneNoteResults (rho : ℕ) : List MixResult :=
  [⟨zeroEntry, [], [outputOf rho]⟩,
    ⟨zeroEntry, [Blake2s.hash (toBig 32 (14 * 2 ^ 252) ++ toBig 32 rho)], []⟩]

theorem oneNoteResults_cases {rho : ℕ} {before after : List MixResult} {r : MixResult}
    (hsplit : oneNoteResults rho = before ++ r :: after) :
    outputsOf (before ++ [r]) = [outputOf rho] ∧ (before = [] ∨ r.outputEvents = []) := by
  rcases cons_eq_append_iff.mp hsplit with ⟨rfl, hcons⟩ | ⟨before', rfl, hrest⟩
  · obtain ⟨rfl, -⟩ := cons_eq_cons.mp hcons
    exact ⟨rfl, .inl rfl⟩
  · rcases cons_eq_append_iff.mp hrest with ⟨rfl, hcons⟩ | ⟨before'', rfl, hnil⟩
    · obtain ⟨rfl, -⟩ := cons_eq_cons.mp hcons
      exact ⟨rfl, .inr rfl⟩
    · exact absurd hnil.symm (append_ne_nil_of_right_ne_nil _ (cons_ne_nil _ _))

theorem received_outputOf (username : String) (rho : ℕ) :
    (plainOwner username).received altBN128 0 [outputOf rho] = [descOf rho 0] := by
  simp only [Owner.received, own_outputOf]
  rfl

theorem wellFormed_oneNoteResults (rho : ℕ) :
    WellFormed altBN128 (plainOwner "alice") (oneNoteResults rho) := by
  refine ⟨nodup_singleton _, nodup_singleton _, ?_, fun before r after hsplit d hd => ?_⟩
  · change (((plainOwner "alice").received altBN128 0 [outputOf rho]).map _).Nodup
    rw [received_outputOf]
    exact nodup_singleton _
  · rcases (oneNoteResults_cases hsplit).2 with rfl | hr
    · exact not_mem_nil
    · rw [hr] at hd
      cases hd

/-- A note that is received and then spent is tracked. -/
theorem tracks_one_note :
    ∃ w, plainWallet = .ok w ∧ WellFormed altBN128 w.owner (oneNoteResults 36692) ∧
      Tracks plainStdlib plainWeb3 altBN128 w (oneNoteResults 36692) := by
  obtain ⟨w, hw⟩ : ∃ w, plainWallet = .ok w := ⟨_, new_eq_ok_iff.mpr ⟨by decide, rfl⟩⟩
  have hholds : Holds plainWeb3 altBN128 (fun _ _ => zeroEntry) (plainOwner "alice") .none [] .empty w :=
    holds_new hw
  have hwf : WellFormed altBN128 w.owner (oneNoteResults 36692) := by
    rw [hholds.remembers.owner]
    exact wellFormed_oneNoteResults 36692
  refine ⟨w, hw, hwf, (tracks_iff hw (by decide) numeral_plainWeb3 hwf).mpr ⟨?_, ?_⟩⟩
  · refine ⟨fun outEv hmem => ?_, (by decide : 1 ≤ 2 ^ 32)⟩
    obtain rfl := mem_singleton.mp hmem
    exact length_ciphertext_outputOf 36692
  · intro before r after hsplit ns n ns' _ d hd _ d' hd' _
    rw [hholds.remembers.owner, (oneNoteResults_cases hsplit).1] at hd hd'
    have honly {e : ZethNoteDescription}
        (he : e ∈ (plainOwner "alice").unspent altBN128 [outputOf 36692] (nullifiersOf before ++ ns)) :
        e = descOf 36692 0 := by
      have hreceived := mem_of_mem_filter he
      rw [received_outputOf] at hreceived
      exact mem_singleton.mp hreceived
    rw [honly hd, honly hd']

/-- Two notes of which the commitments start with the same four bytes. -/
theorem commitmentOf_alike :
    commitmentOf 36692 = toBig 32
      5766589370729663584735399763401792753905848061505841736681423219887491025843 ∧
    commitmentOf 37846 = toBig 32
      5766589376153059542489694063051963573411956861640171664922472437020827180789 := by
  decide +kernel

theorem nullifierOf_ne :
    Blake2s.hash (toBig 32 (14 * 2 ^ 252) ++ toBig 32 36692) ≠
      Blake2s.hash (toBig 32 (14 * 2 ^ 252) ++ toBig 32 37846) := by
  decide +kernel

theorem shortCommitment_alike :
    shortCommitment (commitmentOf 36692) = "0cbfc61f" ∧
      shortCommitment (commitmentOf 37846) = "0cbfc61f" := by
  rw [commitmentOf_alike.1, commitmentOf_alike.2]
  exact ⟨by rfl, by rfl⟩

/-- Both notes are received, then the first one is spent. -/
def alikeResults : List MixResult :=
  [⟨zeroEntry, [], [outputOf 36692, outputOf 37846]⟩,
    ⟨zeroEntry, [Blake2s.hash (toBig 32 (14 * 2 ^ 252) ++ toBig 32 36692)], []⟩]

theorem received_alike (username : String) :
    (plainOwner username).received altBN128 0 [outputOf 36692, outputOf 37846] =
      [descOf 36692 0, descOf 37846 1] := by
  simp only [Owner.received, own_outputOf]
  rfl

theorem wellFormed_alike : WellFormed altBN128 (plainOwner "alice") alikeResults := by
  have houtputs : outputsOf alikeResults = [outputOf 36692, outputOf 37846] := rfl
  refine ⟨?_, nodup_singleton _, ?_, fun before r after hsplit d hd => ?_⟩
  · rw [houtputs]
    change [commitmentOf 36692, commitmentOf 37846].Nodup
    rw [commitmentOf_alike.1, commitmentOf_alike.2]
    decide
  · rw [houtputs, received_alike, map_cons, map_cons, nullifier_descOf, nullifier_descOf]
    refine nodup_cons.mpr ⟨fun hmem => ?_, nodup_singleton _⟩
    exact nullifierOf_ne (mem_singleton.mp hmem)
  · -- the first result comes before all nullifiers, and the second one has no outputs
    rcases cons_eq_append_iff.mp hsplit with ⟨rfl, -⟩ | ⟨before', rfl, hrest⟩
    · exact not_mem_nil
    · rcases cons_eq_append_iff.mp hrest with ⟨rfl, hcons⟩ | ⟨before'', rfl, hnil⟩
      · obtain ⟨rfl, -⟩ := cons_eq_cons.mp hcons
        cases hd
      · exact absurd hnil.symm (append_ne_nil_of_right_ne_nil _ (cons_ne_nil _ _))

theorem receivable_alike : Receivable [] (outputsOf alikeResults) := by
  refine ⟨fun outEv hmem => ?_, (by decide : 2 ≤ 2 ^ 32)⟩
  rcases mem_pair.mp hmem with rfl | rfl
  · exact length_ciphertext_outputOf 36692
  · exact length_ciphertext_outputOf 37846

/-- When the first of two notes that start alike is spent, no file is found. -/
theorem processResults_raises_of_alike :
    ∃ w, plainWallet = .ok w ∧ Literal w.owner.username ∧ WellFormed altBN128 w.owner alikeResults ∧
      Receivable [] (outputsOf alikeResults) ∧
      Raises (processResults plainStdlib plainWeb3 altBN128 alikeResults) w
        (.exception "expected to find file for commit 0cbfc61f") ∧
      ¬ Tracks plainStdlib plainWeb3 altBN128 w alikeResults := by
  obtain ⟨w, hw⟩ : ∃ w, plainWallet = .ok w := ⟨_, new_eq_ok_iff.mpr ⟨by decide, rfl⟩⟩
  have hholds : Holds plainWeb3 altBN128 (fun _ _ => zeroEntry) (plainOwner "alice") .none [] .empty w :=
    holds_new hw
  have husername : Literal (plainOwner "alice").username := by decide
  let first : MixResult := ⟨zeroEntry, [], [outputOf 36692, outputOf 37846]⟩
  have hnodup : (((plainOwner "alice").received altBN128 0 (outputsOf ([] ++ [first]))).map
      (plainOwner "alice").nullifier).Nodup := wellFormed_alike.own
  have hfits (outs : List MixOutputEvents) :
      Residue.none.Fits altBN128 (plainOwner "alice") (outs ++ []) := Residue.fits_none _
  have hgood : GoodResult altBN128 (plainOwner "alice") .none [] first :=
    ⟨receivable_alike, fun ns n ns' hns => absurd hns.symm
      (append_ne_nil_of_right_ne_nil _ (cons_ne_nil _ _))⟩
  obtain ⟨_, w₁, hfirst, -, -, hw₁, -⟩ := processResult_returns (L := plainStdlib) (hfits _) hnodup
    husername numeral_plainWeb3 hholds none hgood
  have hraises : Raises (processResults plainStdlib plainWeb3 altBN128 alikeResults) w
      (.exception "expected to find file for commit 0cbfc61f") := by
    have hroom : Receivable ((outputsOf [first]).map MixOutputEvents.commitment) [] :=
      ⟨forall_mem_nil _, (by decide : 2 ≤ 2 ^ 32)⟩
    have hledger (outs : List MixOutputEvents) : (plainOwner "alice").ledger altBN128 [⟨zeroEntry, [], outs⟩] =
        ⟨(plainOwner "alice").received altBN128 0 outs, []⟩ := rfl
    obtain ⟨l, ds, w₂, hsecond, hw₂, hmem⟩ : ∃ l ds w₂,
        receiveNotes plainWeb3 altBN128 [] w₁ = .ok ds w₂ ∧
        Holds plainWeb3 altBN128 (fun _ _ => zeroEntry) (plainOwner "alice") .none (outputsOf [first] ++ []) l w₂ ∧
        ∀ d ∈ [descOf 36692 0, descOf 37846 1], d ∈ l.unspent := by
      obtain ⟨ds, w₂, hsecond, hw₂, -⟩ := hw₁.receive numeral_plainWeb3 (hfits (_ ++ _))
        (by exact hnodup) hroom
      refine ⟨_, ds, w₂, hsecond, hw₂, fun d hd => ?_⟩
      rw [← received_alike] at hd
      rw [nil_append, hledger]
      exact mem_append_left _ hd
    have hfiles := hw₂.noteFiles
    rw [Residue.files_none] at hfiles
    have hfind : findNoteFile plainStdlib w₂ (shortCommitment (descOf 36692 0).commitment) = none :=
      findNoteFile_eq_none husername numeral_plainWeb3 hw₂.remembers.owner hfiles
        (fun _ => hw₂.ledger.isOwn) (hmem _ mem_cons_self)
        (hmem _ (mem_cons_of_mem _ mem_cons_self))
        (fun heq => absurd (congrArg ZethNoteDescription.address heq) (by decide))
        (shortCommitment_alike.2.trans shortCommitment_alike.1.symm)
    have hkeys := (hw₂.ledger.nodup_nullifier hnodup).sublist
      ((sublist_append_left _ _).map _)
    have hmark := hw₂.remembers.markNullifier_raises hkeys (hmem _ mem_cons_self)
      (hw₂.ledger.isOwn (hmem _ mem_cons_self)) [] hfind
    have hshort : shortCommitment (descOf 36692 0).commitment = "0cbfc61f" := shortCommitment_alike.1
    rw [nullifier_descOf, hshort] at hmark
    exact raises_bind_of_ok hfirst ((raises_bind_of_ok hsecond
      ((Raises.bind (hmark.bind _) _))).bind _)
  refine ⟨w, hw, ?_, ?_, receivable_alike, hraises, fun htracks =>
    (htracks _ (prefix_refl _)).not_raises _ hraises⟩
  · rwa [hholds.remembers.owner]
  · rw [hholds.remembers.owner]
    exact wellFormed_alike

end Plain

end Wallet

end Zeth.Client
