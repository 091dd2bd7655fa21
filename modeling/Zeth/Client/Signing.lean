import Zeth.Contract.AltBN128
import Zeth.Foundation.Bytes

/-!
# One-time Schnorr signatures in the client

`client/zeth/core/signing.py`. The library `py_ecc` computes in the first group of ALT-BN128; it
writes the identity as `None`, of which no coordinates can be taken. Its class `FQ` reduces a number
modulo the order `q` of the base field. The client wraps scalars in this class too, although they
count modulo the order `r` of the group.

## Main definitions

* `SigningVerificationKey`, `SigningSecretKey`, `genSigningKeypair`.
* `Signing.sign`, `Signing.verify`, `verificationKeyAsMixParameter`.

## Main results

* `Signing.verify_eq`, `Signing.sign_eq`.
-/

namespace Zeth.Client

open AltBN128 ByteString

/-- `py_ecc.bn128.FQ`. -/
abbrev FQ := AltBN128.Fq

/-- `FQ.n`. -/
def FQ.n (x : FQ) : ℕ := ZMod.val x

theorem FQ.n_natCast (k : ℕ) : FQ.n (k : FQ) = k % q := ZMod.val_natCast q k

structure SigningVerificationKey where
  ppk : G1
  spk : G1

structure SigningSecretKey where
  psk : FQ
  ssk : FQ × G1

/-- `gen_signing_keypair`, of two numbers that are read from the source of randomness. -/
def genSigningKeypair (random₀ random₁ : ℕ) : SigningSecretKey × SigningVerificationKey :=
  let x : FQ := ↑(random₀ % r)
  let y : FQ := ↑(random₁ % r)
  let X := FQ.n x • genG1
  let Y := FQ.n y • genG1
  (⟨x, (y, Y)⟩, ⟨X, Y⟩)

/-- `g1_to_bytes`. -/
def g1ToBytes (groupEl : G1) : Option Bytes := do
  let (x, y) ← curve.coordinates groupEl
  return toBig 32 (FQ.n x) ++ toBig 32 (FQ.n y)

/-- `SigningVerificationKey.to_bytes`. -/
def SigningVerificationKey.toBytes (vk : SigningVerificationKey) : Option Bytes := do
  return (← g1ToBytes vk.ppk) ++ (← g1ToBytes vk.spk)

/-- `verification_key_as_mix_parameter`. -/
def verificationKeyAsMixParameter (vk : SigningVerificationKey) : Option (Fin 4 → ℕ) := do
  let (ppk₀, ppk₁) ← curve.coordinates vk.ppk
  let (spk₀, spk₁) ← curve.coordinates vk.spk
  return ![FQ.n ppk₀, FQ.n ppk₁, FQ.n spk₀, FQ.n spk₁]

namespace Signing

variable (sha256 : Bytes → Word)

/-- The hash of the key and the message, reduced by the order of the group. -/
def challenge (spk : G1) (m : Bytes) : Option ℕ := do
  let spkBytes ← g1ToBytes spk
  return (sha256 (spkBytes ++ m)).toNat % r

/-- `sign`. -/
def sign (sk : SigningSecretKey) (m : Bytes) : Option ℕ := do
  let challenge ← challenge sha256 sk.ssk.2 m
  return (FQ.n sk.ssk.1 + challenge * FQ.n sk.psk) % r

/-- `verify`. -/
def verify (vk : SigningVerificationKey) (m : Bytes) (sigma : ℕ) : Option Bool := do
  let challenge ← challenge sha256 vk.spk m
  let leftPart := FQ.n (sigma : FQ) • genG1
  let rightPart := vk.spk + FQ.n (challenge : FQ) • vk.ppk
  return decide (leftPart = rightPart)

variable {sha256}

theorem r_lt_q : r < q := by decide +kernel

/-- A number below the order of the group is not changed by the field. -/
theorem n_natCast_mod (k : ℕ) : FQ.n ((k % r : ℕ) : FQ) = k % r := by
  rw [FQ.n_natCast, Nat.mod_eq_of_lt ((Nat.mod_lt k (Curve.prime_r _).pos).trans r_lt_q)]

/-- The equation that is checked: the signature is taken modulo `q`, the hash modulo `r`. -/
theorem verify_eq {vk : SigningVerificationKey} {spkBytes : Bytes}
    (hspk : g1ToBytes vk.spk = some spkBytes) (m : Bytes) (sigma : ℕ) :
    verify sha256 vk m sigma = some (decide
      ((sigma % q) • genG1 = vk.spk + (sha256 (spkBytes ++ m)).toNat • vk.ppk)) := by
  simp only [verify, challenge, hspk, Option.pure_def, Option.bind_eq_bind, Option.bind_some]
  rw [n_natCast_mod, FQ.n_natCast, nsmul_mod]

theorem sign_eq {x y : ℕ} (hx : x < r) (hy : y < r) {spkBytes : Bytes}
    (hspk : g1ToBytes (genSigningKeypair x y).2.spk = some spkBytes) (m : Bytes) :
    sign sha256 (genSigningKeypair x y).1 m =
      some ((y + (sha256 (spkBytes ++ m)).toNat % r * x) % r) := by
  have hspk' : g1ToBytes (genSigningKeypair x y).1.ssk.2 = some spkBytes := hspk
  have hnx : FQ.n (genSigningKeypair x y).1.psk = x :=
    (n_natCast_mod x).trans (Nat.mod_eq_of_lt hx)
  have hny : FQ.n (genSigningKeypair x y).1.ssk.1 = y :=
    (n_natCast_mod y).trans (Nat.mod_eq_of_lt hy)
  simp only [sign, challenge, hspk', hnx, hny, Option.pure_def, Option.bind_eq_bind,
    Option.bind_some]

theorem ppk_genSigningKeypair {x : ℕ} (hx : x < r) (y : ℕ) :
    (genSigningKeypair x y).2.ppk = x • genG1 :=
  congrArg (· • genG1) ((n_natCast_mod x).trans (Nat.mod_eq_of_lt hx))

theorem spk_genSigningKeypair {y : ℕ} (hy : y < r) (x : ℕ) :
    (genSigningKeypair x y).2.spk = y • genG1 :=
  congrArg (· • genG1) ((n_natCast_mod y).trans (Nat.mod_eq_of_lt hy))

/-- A signature multiplies the generator to the right side of the equation. -/
theorem nsmul_sign {x y : ℕ} (hx : x < r) (hy : y < r) (h : ℕ) :
    ((y + h % r * x) % r) • genG1 =
      (genSigningKeypair x y).2.spk + h • (genSigningKeypair x y).2.ppk := by
  rw [nsmul_mod, add_nsmul, mul_comm, mul_nsmul, ppk_genSigningKeypair hx,
    spk_genSigningKeypair hy, nsmul_mod]

end Signing

end Zeth.Client
