import Zeth.Client.MixRequest

/-!
# Delivery of notes

The notes of a call are made from its outputs, written as bytes and encrypted for the keys of their
receivers. The ciphertexts are emitted with the commitments, and every wallet tries to decrypt them
(`client/zeth/core/mixer_client.py`, `client/zeth/core/wallet.py`).

A wallet whose key the note was encrypted for finds the note that the sender has made, checks its
commitment and keeps it with its nullifier.

What is drawn at random, the trapdoors of the notes and the ephemeral keys, is a parameter.

## Main definitions

* `encryptNotes`, `outputNotesWithKPk`.

## Main results

* `isSized_of_createApiZethNote`: the fields of a note that is made have their lengths.
* `Wallet.receiveNote_own`: a note that a wallet can decrypt and whose commitment is right.
* `notes_reach_receivers`.
-/

namespace Zeth.Client

open ByteString Python Stateful List

variable {C : Cryptography} (E : Encryption C)

/-- `_encrypt_note`, of the ephemeral key that is drawn. -/
def encryptNote (ephSk : C.SecretKey) (outNote : ZethNote) (pubKey : C.PublicKey) :
    Except Exc Bytes := do
  let outNoteBytes ← zethNoteToBytes outNote
  encrypt E ephSk outNoteBytes pubKey

/-- `encrypt_notes`. -/
def encryptNotes (ephSk : ℕ → C.SecretKey) (notes : List (ZethNote × C.PublicKey)) :
    Except Exc (List Bytes) :=
  notes.zipIdx.mapM fun note => encryptNote E (ephSk note.2) note.1.1 note.1.2

/-- The notes of a call with the keys of their receivers, in `create_mix_parameters_from_proof`. -/
def outputNotesWithKPk (outputs : List (ZethAddressPub C × ℕ)) (notes : List ZethNote) :
    List (ZethNote × C.PublicKey) :=
  (outputs.zip notes).map fun p => (p.2, p.1.1.kPk)

/-! ### One note -/

/-- The fields of a note that is made have the lengths that they have in a ciphertext. -/
theorem isSized_of_createApiZethNote {phi hsig trapR recipient : Bytes} {outIndex value : ℕ}
    {note : ZethNote} (htrapR : trapR.length = 32) (hrecipient : recipient.length = 32)
    (h : createApiZethNote phi hsig trapR outIndex recipient value = .ok note) : note.IsSized := by
  obtain ⟨rho, hrho, h⟩ := Except.bind_eq_ok.mp h
  obtain ⟨block, -, hblock⟩ := Except.bind_eq_ok.mp hrho
  cases hblock
  rw [ownershipKeyAsHex, hexExtend32Bytes_hex hrecipient, Except.ok_bind] at h
  obtain ⟨valueHex, hvalue, h⟩ := Except.bind_eq_ok.mp h
  cases h
  obtain ⟨bs, hbs, hvalueHex⟩ := Except.bind_eq_ok.mp hvalue
  cases hvalueHex
  rw [toBytesBig] at hbs
  split_ifs at hbs
  cases hbs
  exact ⟨⟨recipient, rfl, hrecipient⟩, ⟨_, rfl, length_toBig _ _⟩, ⟨_, rfl, Blake2s.length_hash _⟩,
    ⟨trapR, rfl, htrapR⟩⟩

/-- What is encrypted for a key is found by its owner. -/
theorem exists_encryptNote (ephSk skReceiver : C.SecretKey) {note : ZethNote}
    (hnote : note.IsSized) :
    ∃ ciphertext, encryptNote E ephSk note (E.publicKey skReceiver) = .ok ciphertext ∧
      ∀ commitment, receiveNote C ⟨commitment, ciphertext⟩ skReceiver =
        .ok (some (commitment, note)) := by
  obtain ⟨noteBytes, hbytes, hlength, hback⟩ := exists_zethNoteToBytes hnote
  obtain ⟨ciphertext, hencrypt, hdecrypt⟩ := exists_encrypt E ephSk skReceiver hlength
  refine ⟨ciphertext, ?_, fun commitment => ?_⟩
  · rw [encryptNote, hbytes, Except.ok_bind, hencrypt]
  · have hopen : openNote C ⟨commitment, ciphertext⟩ skReceiver = .ok (commitment, note) := by
      rw [openNote, hdecrypt, Except.ok_bind, hback]
      rfl
    rw [receiveNote, hopen]

/-- A note that the wallet finds in an output with its commitment is kept, and its nullifier is
recorded. -/
theorem Wallet.receiveNote_own (W : Web3) (pp : PairingParameters) (w : Wallet C) (commAddr : ℕ)
    {outEv : MixOutputEvents} {note : ZethNote} (hnote : note.IsHex)
    (hreceive : Client.receiveNote C outEv w.kSkReceiver = .ok (some (outEv.commitment, note)))
    (hcm : computeCommitment note pp = .ok outEv.commitment) :
    Returns (receiveNote W pp commAddr outEv) w fun r w' =>
      r = some ⟨note, commAddr, outEv.commitment⟩ ∧
      ∃ nullifier, computeNullifier note w.aSk = .ok nullifier ∧
        (hex nullifier, shortCommitment outEv.commitment) ∈ w'.state.nullifierMap := by
  have hcheck : checkNote outEv.commitment note pp = .ok true := by
    rw [checkNote, hcm, Except.ok_bind, beq_self_eq_true]
    rfl
  obtain ⟨nullifier, hnf⟩ := exists_computeNullifier hnote w.aSk
  refine returns_get_bind (returns_call_bind hreceive (returns_call_bind hcheck ?_))
  rw [if_pos rfl]
  refine .bind (writeNote_returns W w ⟨note, commAddr, outEv.commitment⟩ hnote) fun _ w' _ =>
    returns_call_bind hnf (returns_modify_bind (returns_pure ⟨rfl, nullifier, hnf, ?_⟩))
  exact mem_dictSet.mpr (.inl rfl)

/-! ### The notes of a call -/

section Call

variable {E} {outputs : List (ZethAddressPub C × ℕ)} {notes : List ZethNote}

theorem getElem?_outputNotesWithKPk {i : ℕ} {output : ZethAddressPub C × ℕ} {note : ZethNote}
    (houtput : outputs[i]? = some output) (hnote : notes[i]? = some note) :
    (outputNotesWithKPk outputs notes)[i]? = some (note, output.1.kPk) := by
  have hzip : (outputs.zip notes)[i]? = some (output, note) :=
    List.getElem?_zip_eq_some.mpr ⟨houtput, hnote⟩
  rw [outputNotesWithKPk, List.getElem?_map, hzip, Option.map_some]

theorem mem_of_mem_outputNotesWithKPk {p : ZethNote × C.PublicKey}
    (h : p ∈ outputNotesWithKPk outputs notes) :
    p.1 ∈ notes ∧ ∃ output ∈ outputs, p.2 = output.1.kPk := by
  obtain ⟨⟨output, note⟩, hmem, rfl⟩ := mem_map.mp h
  obtain ⟨houtput, hnote⟩ := of_mem_zip hmem
  exact ⟨hnote, output, houtput, rfl⟩

end Call

/-- **Delivery of notes.** For two outputs to receivers with a key pair, of values below 2^64, the
notes are made and encrypted. In an output event with the commitment of a note and its ciphertext,
the wallet with the receiver's key finds the same note, and records its nullifier. -/
theorem notes_reach_receivers (W : Web3) (pp : PairingParameters) {phi : Bytes}
    (hphi : phi.length = 32) (hsig : Bytes) {trapR : ℕ → Bytes}
    (htrapR : ∀ i, (trapR i).length = 32) (ephSk : ℕ → C.SecretKey)
    {outputs : List (ZethAddressPub C × ℕ)} (hcount : outputs.length = jsOutputs)
    (houtputs : ∀ output ∈ outputs, output.1.aPk.length = 32 ∧ output.2 < 2 ^ 64 ∧
      ∃ kSk, output.1.kPk = E.publicKey kSk) :
    ∃ notes ciphertexts,
      createApiZethNotes trapR phi hsig (outputs.map fun output => (output.1.aPk, output.2)) =
        .ok notes ∧
      encryptNotes E ephSk (outputNotesWithKPk outputs notes) = .ok ciphertexts ∧
      notes.length = jsOutputs ∧ ciphertexts.length = jsOutputs ∧
      ∀ (i : ℕ) (output : ZethAddressPub C × ℕ) (note : ZethNote) (ciphertext : Bytes),
        outputs[i]? = some output → notes[i]? = some note → ciphertexts[i]? = some ciphertext →
        ∃ commitment, computeCommitment note pp = .ok commitment ∧
          ∀ w : Wallet C, E.publicKey w.kSkReceiver = output.1.kPk → ∀ commAddr,
            Returns (Wallet.receiveNote W pp commAddr ⟨commitment, ciphertext⟩) w fun r w' =>
              r = some ⟨note, commAddr, commitment⟩ ∧
              ∃ nullifier, computeNullifier note w.aSk = .ok nullifier ∧
                (hex nullifier, shortCommitment commitment) ∈ w'.state.nullifierMap := by
  obtain ⟨notes, hnotes⟩ := exists_createApiZethNotes trapR hphi hsig
    (outputs.map fun output => (output.1.aPk, output.2)) (by rw [length_map, hcount])
    (forall_mem_map.mpr fun output hmem =>
      ⟨(houtputs output hmem).1, (houtputs output hmem).2.1⟩)
  have hlength : notes.length = jsOutputs := by
    have h := (Except.mapM_eq_ok.mp hnotes).length_eq
    rw [length_zipIdx, length_map, hcount] at h
    exact h.symm
  have hsized : ∀ note ∈ notes, note.IsSized := by
    intro note hmem
    obtain ⟨p, hp, hnote⟩ := Except.exists_of_mem_mapM hnotes hmem
    obtain ⟨output, hmem', heq⟩ := mem_map.mp (fst_mem_of_mem_zipIdx hp)
    refine isSized_of_createApiZethNote (htrapR _) ?_ hnote
    rw [← heq]
    exact (houtputs output hmem').1
  obtain ⟨ciphertexts, hciphertexts⟩ :
      ∃ ciphertexts, encryptNotes E ephSk (outputNotesWithKPk outputs notes) = .ok ciphertexts := by
    refine Except.exists_mapM fun p hp => ?_
    obtain ⟨hnote, output, hmem, hkey⟩ :=
      mem_of_mem_outputNotesWithKPk (fst_mem_of_mem_zipIdx hp)
    obtain ⟨-, -, kSk, hkSk⟩ := houtputs output hmem
    obtain ⟨ciphertext, hencrypt, -⟩ := exists_encryptNote E (ephSk p.2) kSk (hsized _ hnote)
    exact ⟨ciphertext, by rw [hkey, hkSk, hencrypt]⟩
  have hlength' : ciphertexts.length = jsOutputs := by
    have h := (Except.mapM_eq_ok.mp hciphertexts).length_eq
    rw [length_zipIdx, outputNotesWithKPk, length_map, length_zip, hcount, hlength]
      at h
    exact h.symm
  refine ⟨notes, ciphertexts, hnotes, hciphertexts, hlength, hlength', ?_⟩
  intro i output note ciphertext houtput hnote hciphertext
  have hnoteSized := hsized note (mem_of_getElem? hnote)
  obtain ⟨commitment, hcm⟩ := exists_computeCommitment hnoteSized.isHex pp
  refine ⟨commitment, hcm, fun w hkey commAddr => ?_⟩
  -- the ciphertext at this index is the one of the note for the receiver's key
  obtain ⟨p, hp, hencrypt⟩ := Except.exists_of_getElem?_mapM hciphertexts hciphertext
  rw [List.getElem?_zipIdx, getElem?_outputNotesWithKPk houtput hnote] at hp
  cases hp
  obtain ⟨_, hencrypt', hreceive⟩ :=
    exists_encryptNote E (ephSk (0 + i)) w.kSkReceiver hnoteSized
  rw [hkey] at hencrypt'
  cases hencrypt'.symm.trans hencrypt
  exact Wallet.receiveNote_own W pp w commAddr hnoteSized.isHex (hreceive commitment) hcm

/-! ### A toy library -/

/-- Keys are words, and public keys are the secret ones. The cipher flips all bits, and a tag is the
first half of its key. -/
def wordCryptography : Cryptography where
  SecretKey := BitVec 256
  PublicKey := BitVec 256
  fromPublicBytes data := .ok (BitVec.ofNat 256 (fromBig data))
  fromPublicBytes_raises h := by cases h
  exchange sk pk := .ok (toBig 32 (sk ^^^ pk).toNat)
  exchange_raises h := by cases h
  blake2b _ := List.replicate 64 0
  length_blake2b := Wallet.plainCryptography.length_blake2b
  poly1305Verify key _ tag :=
    if tag = (key ++ List.replicate 16 0).take 16 then .ok () else .error .invalidSignature
  poly1305Verify_raises _ h := by
    split_ifs at h
    cases h
    rfl
  chaCha20 _ _ data := data.map (~~~ ·)

/-- The keys and tags of the toy library. -/
def wordEncryption : Encryption wordCryptography where
  publicKey sk := sk
  publicBytes (pk : BitVec 256) := toBig 32 pk.toNat
  length_publicBytes _ := length_toBig _ _
  fromPublicBytes_publicBytes (pk : BitVec 256) := by
    have hlt : pk.toNat < 256 ^ 32 := pk.isLt.trans_eq (by norm_num)
    refine congrArg Except.ok ?_
    rw [fromBig_toBig, Nat.mod_eq_of_lt hlt, BitVec.ofNat_toNat, BitVec.setWidth_eq]
  exists_exchange _ _ := ⟨_, rfl⟩
  exchange_comm (sk sk' : BitVec 256) :=
    congrArg (fun w : BitVec 256 => Except.ok (toBig 32 w.toNat)) (BitVec.xor_comm sk sk')
  length_chaCha20 _ _ _ := length_map _
  chaCha20_chaCha20 _ _ data := by
    change (data.map (~~~ ·)).map (~~~ ·) = data
    rw [map_map]
    exact (map_congr_left fun b _ => BitVec.not_not).trans (map_id' data)
  poly1305Finalize key _ := (key ++ List.replicate 16 0).take 16
  length_poly1305Finalize key _ := by
    rw [length_take, length_append, length_replicate]
    exact Nat.min_eq_left (Nat.le_add_left _ _)
  poly1305Verify_finalize {key} _ _ := by
    change (if (key ++ List.replicate 16 0).take 16 = (key ++ List.replicate 16 0).take 16
      then _ else _) = _
    exact if_pos rfl

/-- Two outputs, of the least and of the greatest value. -/
def extremeOutputs : List (ZethAddressPub wordCryptography × ℕ) :=
  [(⟨zeroEntry, (5 : BitVec 256)⟩, 0), (⟨zeroEntry, (6 : BitVec 256)⟩, 2 ^ 64 - 1)]

/-- An empty wallet with a key. -/
def wordWallet (kSk : BitVec 256) : Wallet wordCryptography :=
  ⟨"alice", zeroEntry, kSk, ⟨1, 0, []⟩, .new ⟨0, [], []⟩ 0, false, 0, .empty, []⟩

/-- The notes of these outputs reach the wallets with the keys `5` and `6`. -/
theorem notes_reach_receivers_extreme :
    ∃ notes ciphertexts,
      createApiZethNotes (fun _ => zeroEntry) zeroEntry []
        [(zeroEntry, 0), (zeroEntry, 2 ^ 64 - 1)] = .ok notes ∧
      encryptNotes wordEncryption (fun i => BitVec.ofNat 256 i)
        (outputNotesWithKPk extremeOutputs notes) = .ok ciphertexts ∧
      ∀ i < 2, ∃ note ciphertext commitment, notes[i]? = some note ∧
        ciphertexts[i]? = some ciphertext ∧
        computeCommitment note ⟨97, by decide⟩ = .ok commitment ∧
        Returns (Wallet.receiveNote Wallet.plainWeb3 ⟨97, by decide⟩ i ⟨commitment, ciphertext⟩)
          (wordWallet (BitVec.ofNat 256 (5 + i))) fun r w' =>
            r = some ⟨note, i, commitment⟩ ∧ w'.state.nullifierMap ≠ [] := by
  have hzero : zeroEntry.length = 32 := by decide
  have houtputs : ∀ output ∈ extremeOutputs, output.1.aPk.length = 32 ∧ output.2 < 2 ^ 64 ∧
      ∃ kSk, output.1.kPk = wordEncryption.publicKey kSk := by
    rw [extremeOutputs, forall_mem_cons, forall_mem_singleton]
    exact ⟨⟨hzero, by norm_num, _, rfl⟩, hzero, by norm_num, _, rfl⟩
  obtain ⟨notes, ciphertexts, hnotes, hciphertexts, hlength, hlength', hreceive⟩ :=
    notes_reach_receivers wordEncryption Wallet.plainWeb3 ⟨97, by decide⟩ hzero [] (fun _ => hzero)
      (fun i => BitVec.ofNat 256 i) rfl houtputs
  refine ⟨notes, ciphertexts, hnotes, hciphertexts, fun i hi => ?_⟩
  have hnote := List.getElem?_eq_getElem (hi.trans_eq hlength.symm)
  have hciphertext := List.getElem?_eq_getElem (hi.trans_eq hlength'.symm)
  obtain ⟨output, houtput, hkey⟩ : ∃ output, extremeOutputs[i]? = some output ∧
      (BitVec.ofNat 256 (5 + i) : BitVec 256) = output.1.kPk := by
    interval_cases i
    · exact ⟨_, rfl, rfl⟩
    · exact ⟨_, rfl, rfl⟩
  obtain ⟨commitment, hcm, hwallet⟩ := hreceive i output _ _ houtput hnote hciphertext
  refine ⟨_, _, commitment, hnote, hciphertext, hcm, (hwallet (wordWallet _) hkey i).mono ?_⟩
  rintro r w' ⟨hr, nullifier, -, hmem⟩
  exact ⟨hr, ne_nil_of_mem hmem⟩

end Zeth.Client
