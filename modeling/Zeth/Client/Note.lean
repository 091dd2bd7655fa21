import Zeth.Client.Encryption
import Zeth.Foundation.Bits
import Zeth.Foundation.Blake2s

/-!
# Notes of the client

A note is kept as four hexadecimal strings. It travels as their bytes one after the other, and its
commitment and its nullifier are BLAKE2s digests of these bytes (`client/zeth/core/proto_utils.py`,
`client/zeth/core/mixer_client.py`).

## Main definitions

* `ZethNote`, `zethNoteFromBytes`, `zethNoteToBytes`, `computeCommitment`, `computeNullifier`.
* `MixOutputEvents`, `receiveNote`: the data of one output, and the note in it.

## Main results

* `isHex_of_zethNoteFromBytes`: the fields of a decoded note are hexadecimal, the value of eight
  bytes.
* `exists_zethNoteToBytes`: notes whose fields have their lengths are read back.
* `exists_computeCommitment`, `exists_computeNullifier`: both are defined for such notes.
* `exists_receiveNote`, `receiveNote_of_length_ne`: when the note of an output can be looked for.
-/

namespace Zeth.Client

open ByteString Python List

/-- `JS_INPUTS`. -/
def jsInputs : ℕ := 2

/-- `JS_OUTPUTS`. -/
def jsOutputs : ℕ := 2

/-- The `ZethNote` message. -/
structure ZethNote where
  apk : String
  value : String
  rho : String
  trapR : String
  deriving DecidableEq, Repr

/-- `zeth_note_from_bytes`. -/
def zethNoteFromBytes (noteBytes : Bytes) : Except Exc ZethNote :=
  if noteBytes.length ≠ noteLengthBytes then
    .error (.valueError ("note_bytes len " ++ toString noteBytes.length ++ ", (expected " ++
      toString noteLengthBytes ++ ")"))
  else
    .ok {
      apk := hex (noteBytes.take 32)
      value := hex ((noteBytes.drop 32).take 8)
      rho := hex ((noteBytes.drop 40).take 32)
      trapR := hex (noteBytes.drop 72) }

/-- The fields are hexadecimal, and the value has eight bytes. -/
structure ZethNote.IsHex (note : ZethNote) : Prop where
  apk : ∃ bs, note.apk = hex bs
  value : ∃ bs, note.value = hex bs ∧ bs.length = 8
  rho : ∃ bs, note.rho = hex bs
  trapR : ∃ bs, note.trapR = hex bs

theorem isHex_of_zethNoteFromBytes {noteBytes : Bytes} {note : ZethNote}
    (h : zethNoteFromBytes noteBytes = .ok note) : note.IsHex := by
  rw [zethNoteFromBytes] at h
  split_ifs at h with hlen
  rw [not_not] at hlen
  cases h
  refine ⟨⟨_, rfl⟩, ⟨_, rfl, ?_⟩, ⟨_, rfl⟩, ⟨_, rfl⟩⟩
  rw [length_take, length_drop, hlen]
  rfl

theorem isCaught_of_zethNoteFromBytes {noteBytes : Bytes} {e : Exc}
    (h : zethNoteFromBytes noteBytes = .error e) : IsCaught e := by
  rw [zethNoteFromBytes] at h
  split_ifs at h
  cases h
  exact Or.inr ⟨_, rfl⟩

/-- `zeth_note_to_bytes`. -/
def zethNoteToBytes (note : ZethNote) : Except Exc Bytes := do
  let apkBytes ← fromhex note.apk
  let valueBytes ← fromhex note.value
  let rhoBytes ← fromhex note.rho
  let trapRBytes ← fromhex note.trapR
  let noteBytes := apkBytes ++ valueBytes ++ rhoBytes ++ trapRBytes
  assert (noteBytes.length == noteLengthBytes) ""
  return noteBytes

/-- The fields are hexadecimal strings of the lengths they have in a ciphertext. -/
structure ZethNote.IsSized (note : ZethNote) : Prop where
  apk : ∃ bs, note.apk = hex bs ∧ bs.length = 32
  value : ∃ bs, note.value = hex bs ∧ bs.length = 8
  rho : ∃ bs, note.rho = hex bs ∧ bs.length = 32
  trapR : ∃ bs, note.trapR = hex bs ∧ bs.length = 32

theorem ZethNote.IsSized.isHex {note : ZethNote} (h : note.IsSized) : note.IsHex :=
  ⟨h.apk.imp fun _ => And.left, h.value, h.rho.imp fun _ => And.left,
    h.trapR.imp fun _ => And.left⟩

/-- The four fields of a note are found at their offsets. -/
theorem exists_zethNoteToBytes {note : ZethNote} (h : note.IsSized) :
    ∃ noteBytes, zethNoteToBytes note = .ok noteBytes ∧ noteBytes.length = noteLengthBytes ∧
      zethNoteFromBytes noteBytes = .ok note := by
  obtain ⟨_, _, _, _⟩ := note
  obtain ⟨⟨apk, rfl, hapk⟩, ⟨value, rfl, hvalue⟩, ⟨rho, rfl, hrho⟩, ⟨trapR, rfl, htrapR⟩⟩ := h
  have hlength : (apk ++ value ++ rho ++ trapR).length = noteLengthBytes := by
    rw [length_append, length_append, length_append, hapk, hvalue, hrho, htrapR]
    rfl
  refine ⟨apk ++ value ++ rho ++ trapR, ?_, hlength, ?_⟩
  · simp only [zethNoteToBytes, fromhex_hex, Except.ok_bind, hlength, beq_self_eq_true,
      assert_true]
    rfl
  · have hapk' : (apk ++ value ++ rho ++ trapR).take 32 = apk := by
      rw [append_assoc, append_assoc, take_left' hapk]
    have hvalue' : ((apk ++ value ++ rho ++ trapR).drop 32).take 8 = value := by
      rw [append_assoc, append_assoc, drop_left' hapk, take_left' hvalue]
    have hrho' : ((apk ++ value ++ rho ++ trapR).drop 40).take 32 = rho := by
      have hfront : (apk ++ value).length = 40 := by rw [length_append, hapk, hvalue]
      rw [append_assoc, drop_left' hfront, take_left' hrho]
    have htrapR' : (apk ++ value ++ rho ++ trapR).drop 72 = trapR := by
      rw [drop_left']
      rw [length_append, length_append, hapk, hvalue, hrho]
    rw [zethNoteFromBytes, if_neg (not_not.mpr hlength), hapk', hvalue', hrho', htrapR']

/-! ### Commitments and nullifiers -/

/-- The part of `PairingParameters` that is used: the order of the scalar field. -/
structure PairingParameters where
  scalarFieldMod : ℕ
  pos : 0 < scalarFieldMod

/-- `compute_commitment`. -/
def computeCommitment (note : ZethNote) (pp : PairingParameters) : Except Exc Bytes := do
  let trapR ← fromhex note.trapR
  let apk ← fromhex note.apk
  let rho ← fromhex note.rho
  let value ← fromhex note.value
  let cm := Blake2s.hash (trapR ++ apk ++ rho ++ value)
  toBytesBig 32 (fromBig cm % pp.scalarFieldMod)

/-- `compute_nullifier`. Binary strings are lists of bits. -/
def computeNullifier (note : ZethNote) (spendingAuthorityAsk : Bytes) : Except Exc Bytes := do
  let binaryAsk := toBits spendingAuthorityAsk
  let first252BitsAsk := binaryAsk.take 252
  let leftLegBin := [true, true, true, false] ++ first252BitsAsk
  let leftLeg ← toBytesBig 32 (R1CS.natOfBits leftLegBin)
  let rho ← fromhex note.rho
  return Blake2s.hash (leftLeg ++ rho)

/-- A digest, reduced or not, fits in 32 bytes. -/
theorem exists_computeCommitment {note : ZethNote} (h : note.IsHex) (pp : PairingParameters) :
    ∃ cm, computeCommitment note pp = .ok cm := by
  obtain ⟨apk, hapk⟩ := h.apk
  obtain ⟨value, hvalue, -⟩ := h.value
  obtain ⟨rho, hrho⟩ := h.rho
  obtain ⟨trapR, htrapR⟩ := h.trapR
  have hlt := fromBig_lt (Blake2s.hash (trapR ++ apk ++ rho ++ value))
  rw [Blake2s.length_hash] at hlt
  simp only [computeCommitment, hapk, hvalue, hrho, htrapR, fromhex_hex, Except.ok_bind]
  exact ⟨_, if_pos ((Nat.mod_le _ _).trans_lt hlt)⟩

theorem exists_computeNullifier {note : ZethNote} (h : note.IsHex) (ask : Bytes) :
    ∃ nf, computeNullifier note ask = .ok nf := by
  obtain ⟨rho, hrho⟩ := h.rho
  have hlt : R1CS.natOfBits ([true, true, true, false] ++ (toBits ask).take 252) < 256 ^ 32 := by
    -- four bits of tag and at most 252 of the key
    have hlen : ([true, true, true, false] ++ (toBits ask).take 252).length ≤ 256 := by
      rw [length_append, length_take]
      exact Nat.add_le_add_left (Nat.min_le_left 252 _) 4
    calc R1CS.natOfBits _ < 2 ^ _ := R1CS.natOfBits_lt _
      _ ≤ 2 ^ 256 := Nat.pow_le_pow_right Nat.two_pos hlen
      _ = 256 ^ 32 := by norm_num
  simp only [computeNullifier, toBytesBig, if_pos hlt, hrho, fromhex_hex, Except.ok_bind]
  exact ⟨_, rfl⟩

/-! ### Receiving a note -/

/-- `MixOutputEvents`: the data of a single output. -/
structure MixOutputEvents where
  commitment : Bytes
  ciphertext : Bytes
  deriving DecidableEq, Repr

variable (C : Cryptography)

/-- The `try` block of `receive_note`. -/
def openNote (outEv : MixOutputEvents) (receiverKSk : C.SecretKey) :
    Except Exc (Bytes × ZethNote) := do
  let plaintext ← decrypt C outEv.ciphertext receiverKSk
  let note ← zethNoteFromBytes plaintext
  return (outEv.commitment, note)

/-- `receive_note`: two kinds of exceptions mean that the note is not ours. -/
def receiveNote (outEv : MixOutputEvents) (receiverKSk : C.SecretKey) :
    Except Exc (Option (Bytes × ZethNote)) :=
  match openNote C outEv receiverKSk with
  | .ok ourNote => .ok (some ourNote)
  | .error .invalidSignature => .ok none
  | .error (.valueError _) => .ok none
  | .error e => .error e

variable {C}

/-- A ciphertext of the right length is looked into without an exception. -/
theorem exists_receiveNote {outEv : MixOutputEvents} (receiverKSk : C.SecretKey)
    (hlen : outEv.ciphertext.length = encryptedNoteLengthBytes) :
    receiveNote C outEv receiverKSk = .ok none ∨ ∃ note : ZethNote, note.IsHex ∧
      receiveNote C outEv receiverKSk = .ok (some (outEv.commitment, note)) := by
  cases hopen : openNote C outEv receiverKSk with
  | ok ourNote =>
    right
    obtain ⟨plaintext, -, h⟩ := Except.bind_eq_ok.mp hopen
    obtain ⟨note, hnote, h⟩ := Except.bind_eq_ok.mp h
    cases h
    exact ⟨note, isHex_of_zethNoteFromBytes hnote, by rw [receiveNote, hopen]⟩
  | error e =>
    left
    have hcaught : IsCaught e := by
      rcases Except.bind_eq_error.mp hopen with h | ⟨plaintext, -, h⟩
      · exact isCaught_of_decrypt hlen h
      rcases Except.bind_eq_error.mp h with h | ⟨note, -, h⟩
      · exact isCaught_of_zethNoteFromBytes h
      · cases h
    rcases hcaught with rfl | ⟨m, rfl⟩
    · rw [receiveNote, hopen]
    · rw [receiveNote, hopen]

/-- The assertion on the length is not among the exceptions that are caught. -/
theorem receiveNote_of_length_ne {outEv : MixOutputEvents} (receiverKSk : C.SecretKey)
    (hlen : outEv.ciphertext.length ≠ encryptedNoteLengthBytes) :
    receiveNote C outEv receiverKSk = .error (.assertionError
      ("encrypted_message byte-length must be: " ++ toString encryptedNoteLengthBytes)) := by
  rw [receiveNote, openNote, decrypt_of_length_ne receiverKSk hlen, Except.error_bind]

end Zeth.Client
