import Mathlib.Tactic.Set
import Zeth.Foundation.Python

/-!
# Encryption of notes

`client/zeth/core/encryption.py`. A ciphertext is the public key of the sender, the encrypted note
and the tag of a message authentication code, one after the other.

The `cryptography` library is a parameter: its functions are not fixed, only how long a digest is
and which exceptions they raise. What a sender needs of it is kept apart, with what makes decryption
its inverse: both sides exchange the same key, the cipher is an involution and tags are verified.

## Main definitions

* `Cryptography`: the parts of the library that are used.
* `decrypt`, `kdf`.
* `IsCaught`: the exceptions that a receiver of notes handles.
* `Encryption`, `encrypt`.

## Main results

* `isCaught_of_decrypt`: on ciphertexts of the right length decryption raises nothing else.
* `decrypt_of_length_ne`: on others it fails an assertion.
* `exists_encrypt`: what is encrypted for a key is decrypted by it.
-/

namespace Zeth.Client

open ByteString Python List

/-! ### Lengths -/

/-- `EC_PUBLIC_KEY_LENGTH_BYTES`. -/
def ecPublicKeyLengthBytes : ℕ := 32

/-- `NOTE_LENGTH_BYTES`: an owner, a value, a nonce and a trapdoor. -/
def noteLengthBytes : ℕ := 32 + 8 + 32 + 32

/-- `_TAG_LENGTH_BYTES`. -/
def tagLengthBytes : ℕ := 16

/-- `ENCRYPTED_NOTE_LENGTH_BYTES`. -/
def encryptedNoteLengthBytes : ℕ := ecPublicKeyLengthBytes + noteLengthBytes + tagLengthBytes

/-- `_SYM_KEY_LENGTH_BYTES`. -/
def symKeyLengthBytes : ℕ := 32

/-- `_KEY_MATERIAL_LENGTH_BYTES`. -/
def keyMaterialLengthBytes : ℕ := symKeyLengthBytes + 32

/-- `_SYM_NONCE_VALUE`. -/
def symNonceValue : Bytes := List.replicate 16 0

/-- `_KDF_TAG`, the text `ZethEnc`. -/
def kdfTag : Bytes := [0x5A, 0x65, 0x74, 0x68, 0x45, 0x6E, 0x63]

/-! ### The library -/

/-- The parts of the `cryptography` library that are used. -/
structure Cryptography where
  /-- `X25519PrivateKey` -/
  SecretKey : Type
  /-- `X25519PublicKey` -/
  PublicKey : Type
  /-- `X25519PublicKey.from_public_bytes` -/
  fromPublicBytes : Bytes → Except Exc PublicKey
  fromPublicBytes_raises : ∀ {data e}, fromPublicBytes data = .error e → ∃ m, e = .valueError m
  /-- `X25519PrivateKey.exchange` -/
  exchange : SecretKey → PublicKey → Except Exc Bytes
  exchange_raises : ∀ {sk pk e}, exchange sk pk = .error e → ∃ m, e = .valueError m
  /-- `BLAKE2b(64)` -/
  blake2b : Bytes → Bytes
  length_blake2b : ∀ data, (blake2b data).length = 64
  /-- `Poly1305.verify`: key, data, tag. -/
  poly1305Verify : Bytes → Bytes → Bytes → Except Exc Unit
  poly1305Verify_raises : ∀ {key data tag e}, key.length = 32 →
    poly1305Verify key data tag = .error e → e = .invalidSignature
  /-- `ChaCha20`: key, nonce, data. -/
  chaCha20 : Bytes → Bytes → Bytes → Bytes

variable (C : Cryptography)

/-- `_kdf`: the key of the cipher and the key of the authentication code. -/
def kdf (ephPk sharedKey : Bytes) : Except Exc (Bytes × Bytes) := do
  let keyMaterial := C.blake2b (kdfTag ++ ephPk ++ sharedKey)
  assert (keyMaterial.length == keyMaterialLengthBytes) ""
  return (keyMaterial.take symKeyLengthBytes, keyMaterial.drop symKeyLengthBytes)

/-- `decrypt`. The receiver's key has the right class by its type. -/
def decrypt (encryptedMessage : Bytes) (skReceiver : C.SecretKey) : Except Exc Bytes := do
  assert (encryptedMessage.length == encryptedNoteLengthBytes)
    ("encrypted_message byte-length must be: " ++ toString encryptedNoteLengthBytes)
  let pkSenderBytes := encryptedMessage.take ecPublicKeyLengthBytes
  let pkSender ← C.fromPublicBytes pkSenderBytes
  let sharedKey ← C.exchange skReceiver pkSender
  let (symKey, macKey) ← kdf C pkSenderBytes sharedKey
  let ctSym := (encryptedMessage.drop ecPublicKeyLengthBytes).take noteLengthBytes
  let tag :=
    (encryptedMessage.drop (ecPublicKeyLengthBytes + noteLengthBytes)).take tagLengthBytes
  C.poly1305Verify macKey ctSym tag
  return C.chaCha20 symKey symNonceValue ctSym

/-! ### Exceptions -/

/-- The exceptions that `receive_note` catches. -/
def IsCaught (e : Exc) : Prop := e = .invalidSignature ∨ ∃ m, e = .valueError m

variable {C}

/-- The derivation of keys returns, the authentication key with 32 bytes. -/
theorem exists_kdf (ephPk sharedKey : Bytes) :
    ∃ symKey macKey, kdf C ephPk sharedKey = .ok (symKey, macKey) ∧ macKey.length = 32 := by
  set keyMaterial := C.blake2b (kdfTag ++ ephPk ++ sharedKey) with hkey
  have hlen : keyMaterial.length = keyMaterialLengthBytes := C.length_blake2b _
  refine ⟨keyMaterial.take symKeyLengthBytes, keyMaterial.drop symKeyLengthBytes, ?_, ?_⟩
  · simp only [kdf, ← hkey, hlen, beq_self_eq_true, assert_true, Except.ok_bind]
    rfl
  · rw [length_drop, hlen]
    rfl

theorem decrypt_of_length_ne {encryptedMessage : Bytes} (skReceiver : C.SecretKey)
    (h : encryptedMessage.length ≠ encryptedNoteLengthBytes) :
    decrypt C encryptedMessage skReceiver = .error (.assertionError
      ("encrypted_message byte-length must be: " ++ toString encryptedNoteLengthBytes)) := by
  rw [decrypt, beq_false_of_ne h, assert_false, Except.error_bind]

/-- On a ciphertext of the right length decryption raises only what is caught. -/
theorem isCaught_of_decrypt {encryptedMessage : Bytes} {skReceiver : C.SecretKey}
    (hlen : encryptedMessage.length = encryptedNoteLengthBytes) {e : Exc}
    (h : decrypt C encryptedMessage skReceiver = .error e) : IsCaught e := by
  simp only [decrypt, hlen, beq_self_eq_true, assert_true, Except.ok_bind] at h
  rcases Except.bind_eq_error.mp h with hpk | ⟨pkSender, -, h⟩
  · exact Or.inr (C.fromPublicBytes_raises hpk)
  rcases Except.bind_eq_error.mp h with hkey | ⟨sharedKey, -, h⟩
  · exact Or.inr (C.exchange_raises hkey)
  obtain ⟨symKey, macKey, hkdf, hmac⟩ :=
    exists_kdf (C := C) (encryptedMessage.take ecPublicKeyLengthBytes) sharedKey
  rw [hkdf, Except.ok_bind] at h
  rcases Except.bind_eq_error.mp h with hverify | ⟨_, -, h⟩
  · exact Or.inl (C.poly1305Verify_raises hmac hverify)
  · cases h

/-! ### Encryption -/

/-- The parts of the library that a sender uses. -/
structure Encryption (C : Cryptography) where
  /-- `X25519PrivateKey.public_key` -/
  publicKey : C.SecretKey → C.PublicKey
  /-- `X25519PublicKey.public_bytes` -/
  publicBytes : C.PublicKey → Bytes
  length_publicBytes : ∀ pk, (publicBytes pk).length = ecPublicKeyLengthBytes
  fromPublicBytes_publicBytes : ∀ pk, C.fromPublicBytes (publicBytes pk) = .ok pk
  exists_exchange : ∀ sk sk', ∃ sharedKey, C.exchange sk (publicKey sk') = .ok sharedKey
  exchange_comm : ∀ sk sk', C.exchange sk (publicKey sk') = C.exchange sk' (publicKey sk)
  length_chaCha20 : ∀ key nonce data, (C.chaCha20 key nonce data).length = data.length
  chaCha20_chaCha20 : ∀ key nonce data, C.chaCha20 key nonce (C.chaCha20 key nonce data) = data
  /-- `Poly1305.finalize`: key, data. -/
  poly1305Finalize : Bytes → Bytes → Bytes
  length_poly1305Finalize : ∀ key data, (poly1305Finalize key data).length = tagLengthBytes
  poly1305Verify_finalize : ∀ {key} data, key.length = 32 →
    C.poly1305Verify key data (poly1305Finalize key data) = .ok ()

/-- `encrypt`, of the ephemeral key that is drawn. -/
def encrypt (E : Encryption C) (ephSk : C.SecretKey) (message : Bytes) (pkReceiver : C.PublicKey) :
    Except Exc Bytes := do
  assert (message.length == noteLengthBytes) ("expected message length " ++
    toString noteLengthBytes ++ ", saw " ++ toString message.length)
  let sharedKey ← C.exchange ephSk pkReceiver
  let pkSenderBytes := E.publicBytes (E.publicKey ephSk)
  let (symKey, macKey) ← kdf C pkSenderBytes sharedKey
  let symCiphertext := C.chaCha20 symKey symNonceValue message
  let tag := E.poly1305Finalize macKey symCiphertext
  return pkSenderBytes ++ symCiphertext ++ tag

/-- The parts of a ciphertext are found by their lengths. -/
theorem decrypt_append {pkSenderBytes ctSym tag : Bytes}
    (hpk : pkSenderBytes.length = ecPublicKeyLengthBytes) (hct : ctSym.length = noteLengthBytes)
    (htag : tag.length = tagLengthBytes) (skReceiver : C.SecretKey) :
    decrypt C (pkSenderBytes ++ ctSym ++ tag) skReceiver = do
      let pkSender ← C.fromPublicBytes pkSenderBytes
      let sharedKey ← C.exchange skReceiver pkSender
      let keys ← kdf C pkSenderBytes sharedKey
      C.poly1305Verify keys.2 ctSym tag
      return C.chaCha20 keys.1 symNonceValue ctSym := by
  have hlength : (pkSenderBytes ++ ctSym ++ tag).length = encryptedNoteLengthBytes := by
    rw [length_append, length_append, hpk, hct, htag]
    rfl
  have hfirst : (pkSenderBytes ++ ctSym ++ tag).take ecPublicKeyLengthBytes = pkSenderBytes := by
    rw [append_assoc, take_left' hpk]
  have hmiddle : ((pkSenderBytes ++ ctSym ++ tag).drop ecPublicKeyLengthBytes).take
      noteLengthBytes = ctSym := by
    rw [append_assoc, drop_left' hpk, take_left' hct]
  have hlast : ((pkSenderBytes ++ ctSym ++ tag).drop
      (ecPublicKeyLengthBytes + noteLengthBytes)).take tagLengthBytes = tag := by
    rw [drop_left' (by rw [length_append, hpk, hct]), take_of_length_le htag.le]
  simp only [decrypt, hlength, beq_self_eq_true, assert_true, Except.ok_bind, hfirst, hmiddle,
    hlast]

/-- A note that is encrypted for the public key of a receiver is decrypted by the receiver. -/
theorem exists_encrypt (E : Encryption C) (ephSk skReceiver : C.SecretKey) {message : Bytes}
    (hmessage : message.length = noteLengthBytes) :
    ∃ encryptedMessage, encrypt E ephSk message (E.publicKey skReceiver) = .ok encryptedMessage ∧
      decrypt C encryptedMessage skReceiver = .ok message := by
  obtain ⟨sharedKey, hshared⟩ := E.exists_exchange ephSk skReceiver
  obtain ⟨symKey, macKey, hkdf, hmac⟩ :=
    exists_kdf (C := C) (E.publicBytes (E.publicKey ephSk)) sharedKey
  have hct : (C.chaCha20 symKey symNonceValue message).length = noteLengthBytes :=
    (E.length_chaCha20 _ _ _).trans hmessage
  refine ⟨E.publicBytes (E.publicKey ephSk) ++ C.chaCha20 symKey symNonceValue message ++
    E.poly1305Finalize macKey (C.chaCha20 symKey symNonceValue message), ?_, ?_⟩
  · simp only [encrypt, hmessage, beq_self_eq_true, assert_true, Except.ok_bind, hshared, hkdf]
    rfl
  · rw [decrypt_append (E.length_publicBytes _) hct (E.length_poly1305Finalize _ _),
      E.fromPublicBytes_publicBytes, Except.ok_bind, E.exchange_comm, hshared, Except.ok_bind,
      hkdf, Except.ok_bind, E.poly1305Verify_finalize _ hmac, Except.ok_bind,
      E.chaCha20_chaCha20]
    rfl

end Zeth.Client
