import Zeth.Client.Signing
import Zeth.Contract.OTSchnorr
import Zeth.Contract.SignedData

/-!
# One signature scheme in the contract and the client

Both check `sigma • G = Y + h • X` in the first group of ALT-BN128. The contract multiplies by the
word `sigma` as it is. The client multiplies by `sigma` modulo the order `q` of the base field, which
is not the order of the group, so from `q` on the two sides never multiply by the same residue: a
signature to which `q` is added is accepted by the client and rejected by the contract.

SHA-256 is the same function on both sides, and `py_ecc` and the precompiled contracts compute the
group law.

## Main results

* `Agreement.signature_checks_agree_iff`.
-/

namespace Zeth

namespace Agreement

open AltBN128 ByteString Client

/-- The words of a key. -/
def keyWords (parameter : Fin 4 → ℕ) : Fin 4 → Word := fun i => BitVec.ofNat 256 (parameter i)

/-- The word of a message of 32 bytes. -/
def messageWord (m : Bytes) : Word := BitVec.ofNat 256 (fromBig m)

theorem wordBytes_messageWord {m : Bytes} (hm : m.length = 32) : wordBytes (messageWord m) = m := by
  have hlt : fromBig m < 2 ^ 256 := (fromBig_lt m).trans_eq (by rw [hm]; norm_num)
  rw [wordBytes, messageWord, BitVec.toNat_ofNat, Nat.mod_eq_of_lt hlt, ← hm, toBig_fromBig]

theorem toNat_ofNat_n (x : FQ) : (BitVec.ofNat 256 (FQ.n x)).toNat = FQ.n x :=
  Nat.mod_eq_of_lt ((ZMod.val_lt x).trans_le q_le)

/-- What the contract reads of the key of two points. -/
structure ReadsKey (vk : SigningVerificationKey) (parameter : Fin 4 → ℕ) (spkBytes : Bytes) :
    Prop where
  parameter_eq : verificationKeyAsMixParameter vk = some parameter
  bytes_eq : g1ToBytes vk.spk = some spkBytes
  decode_ppk : g1.decode [keyWords parameter 0, keyWords parameter 1] = some vk.ppk
  decode_spk : g1.decode [keyWords parameter 2, keyWords parameter 3] = some vk.spk
  flatMap_spk : [keyWords parameter 2, keyWords parameter 3].flatMap wordBytes = spkBytes

theorem exists_readsKey {vk : SigningVerificationKey} (hppk : vk.ppk ≠ 0) (hspk : vk.spk ≠ 0) :
    ∃ parameter spkBytes, ReadsKey vk parameter spkBytes := by
  obtain ⟨_ | ⟨x₀, x₁, hx⟩, _ | ⟨y₀, y₁, hy⟩⟩ := vk
  · exact absurd rfl hppk
  · exact absurd rfl hppk
  · exact absurd rfl hspk
  · refine ⟨_, _, rfl, rfl, g1.decode_encode (.some x₀ x₁ hx), g1.decode_encode (.some y₀ y₁ hy), ?_⟩
    simp only [List.flatMap_cons, List.flatMap_nil, List.append_nil, wordBytes, keyWords]
    exact congrArg₂ (fun a b => toBig 32 a ++ toBig 32 b) (toNat_ofNat_n y₀) (toNat_ofNat_n y₁)

variable {sha256 : Bytes → Word} {vk : SigningVerificationKey} {parameter : Fin 4 → ℕ}
  {spkBytes m : Bytes}

/-- The right side of the equation. -/
def rightPart (sha256 : Bytes → Word) (vk : SigningVerificationKey) (spkBytes m : Bytes) : G1 :=
  vk.spk + (sha256 (spkBytes ++ m)).toNat • vk.ppk

theorem challenge_keyWords (hvk : ReadsKey vk parameter spkBytes) (hm : m.length = 32) :
    OTSchnorr.challenge sha256 (keyWords parameter) (messageWord m) = sha256 (spkBytes ++ m) := by
  have hbytes : [keyWords parameter 2, keyWords parameter 3, messageWord m].flatMap wordBytes =
      spkBytes ++ m := by
    simp only [← hvk.flatMap_spk, List.flatMap_cons, List.flatMap_nil, List.append_nil,
      List.append_assoc, wordBytes_messageWord hm]
  rw [OTSchnorr.challenge, hbytes]

theorem contract_verify_iff (hvk : ReadsKey vk parameter spkBytes) (hm : m.length = 32)
    (sigma : Word) :
    OTSchnorr.verify sha256 (keyWords parameter) sigma (messageWord m) = true ↔
      sigma.toNat • genG1 = rightPart sha256 vk spkBytes m := by
  rw [OTSchnorr.verify_eq_true_iff, OTSchnorr.IsSignature, challenge_keyWords hvk hm,
    hvk.decode_ppk, hvk.decode_spk, rightPart]
  simp

/-- From `q` on, the two sides multiply by different residues. -/
theorem nsmul_ne_of_le {sigma : ℕ} (hle : q ≤ sigma) (hlt : sigma < 2 ^ 256) :
    sigma • genG1 ≠ (sigma % q) • genG1 := by
  intro heq
  have hmod : sigma % q ≡ sigma [MOD r] := ((nsmul_eq_nsmul_iff genG1_ne_zero).mp heq).symm
  have hdvd : r ∣ q * (sigma / q) := by
    have hsub : sigma - sigma % q = q * (sigma / q) := by
      have := Nat.mod_add_div sigma q
      omega
    exact hsub ▸ (Nat.modEq_iff_dvd' (Nat.mod_le _ _)).mp hmod
  have hquot : 0 < sigma / q := Nat.div_pos hle prime_q.pos
  have hsix : sigma / q < 6 :=
    Nat.div_lt_of_lt_mul (hlt.trans (show 2 ^ 256 < q * 6 by decide +kernel))
  rcases (Curve.prime_r .altBN128).dvd_mul.mp hdvd with hq | hj
  · exact absurd hq (by decide +kernel)
  · exact absurd ((Nat.le_of_dvd hquot hj).trans_lt hsix) (by decide +kernel)

theorem client_verify_eq (hvk : ReadsKey vk parameter spkBytes) (sigma : ℕ) :
    Signing.verify sha256 vk m sigma =
      some (decide ((sigma % q) • genG1 = rightPart sha256 vk spkBytes m)) :=
  Signing.verify_eq hvk.bytes_eq m sigma

theorem agree_iff (hvk : ReadsKey vk parameter spkBytes) (hm : m.length = 32) (sigma : Word) :
    Signing.verify sha256 vk m sigma.toNat =
        some (OTSchnorr.verify sha256 (keyWords parameter) sigma (messageWord m)) ↔
      sigma.toNat < q ∨
        (sigma.toNat • genG1 ≠ rightPart sha256 vk spkBytes m ∧
          (sigma.toNat % q) • genG1 ≠ rightPart sha256 vk spkBytes m) := by
  rw [client_verify_eq hvk, Option.some_inj, Bool.eq_iff_iff, decide_eq_true_iff,
    contract_verify_iff hvk hm]
  rcases lt_or_ge sigma.toNat q with hlt | hge
  · rw [Nat.mod_eq_of_lt hlt]
    exact iff_of_true Iff.rfl (.inl hlt)
  · have hne := nsmul_ne_of_le hge sigma.isLt
    constructor
    · intro hiff
      refine .inr ⟨fun h => hne (h.trans (hiff.mpr h).symm), fun h => hne ((hiff.mp h).trans h.symm)⟩
    · rintro (hlt | ⟨hword, hmod⟩)
      · exact absurd hge (by omega)
      · exact iff_of_false hmod hword

theorem nsmul_genG1_ne_zero {k : ℕ} (hpos : 1 ≤ k) (hlt : k < r) : k • genG1 ≠ 0 := by
  intro hzero
  have hmod : k ≡ 0 [MOD r] :=
    (nsmul_eq_nsmul_iff genG1_ne_zero).mp (hzero.trans (zero_nsmul genG1).symm)
  rw [Nat.ModEq, Nat.mod_eq_of_lt hlt, Nat.zero_mod] at hmod
  omega

theorem exists_readsKey_genSigningKeypair {x y : ℕ} (hx : 1 ≤ x) (hxr : x < r) (hy : 1 ≤ y)
    (hyr : y < r) : ∃ parameter spkBytes, ReadsKey (genSigningKeypair x y).2 parameter spkBytes := by
  refine exists_readsKey ?_ ?_
  · rw [Signing.ppk_genSigningKeypair hxr]
    exact nsmul_genG1_ne_zero hx hxr
  · rw [Signing.spk_genSigningKeypair hyr]
    exact nsmul_genG1_ne_zero hy hyr

/-- Both sides accept the signatures of the client. -/
theorem exists_sign_accepted (sha256 : Bytes → Word) {x y : ℕ} (hx : 1 ≤ x) (hxr : x < r)
    (hy : 1 ≤ y) (hyr : y < r) :
    ∃ parameter, verificationKeyAsMixParameter (genSigningKeypair x y).2 = some parameter ∧
      ∀ m : Bytes, m.length = 32 → ∃ sigma < 2 ^ 256,
        Signing.sign sha256 (genSigningKeypair x y).1 m = some sigma ∧
        Signing.verify sha256 (genSigningKeypair x y).2 m sigma = some true ∧
        OTSchnorr.verify sha256 (keyWords parameter) (BitVec.ofNat 256 sigma) (messageWord m) =
          true := by
  obtain ⟨parameter, spkBytes, hvk⟩ := exists_readsKey_genSigningKeypair hx hxr hy hyr
  refine ⟨parameter, hvk.parameter_eq, fun m hm => ?_⟩
  set h := (sha256 (spkBytes ++ m)).toNat with hh
  have hlt : (y + h % r * x) % r < q :=
    (Nat.mod_lt _ (Curve.prime_r _).pos).trans Signing.r_lt_q
  have heq : ((y + h % r * x) % r) • genG1 =
      rightPart sha256 (genSigningKeypair x y).2 spkBytes m := Signing.nsmul_sign hxr hyr h
  refine ⟨_, hlt.trans_le q_le, Signing.sign_eq hxr hyr hvk.bytes_eq m, ?_, ?_⟩
  · rw [client_verify_eq hvk, Nat.mod_eq_of_lt hlt, decide_eq_true heq]
  · rw [contract_verify_iff hvk hm, BitVec.toNat_ofNat, Nat.mod_eq_of_lt (hlt.trans_le q_le), heq]

/-- The client and the contract give the same answer if and only if the signature is below `q`, or
satisfies the equation neither as it is nor modulo `q`. Both accept every signature of the client. -/
theorem signature_checks_agree_iff (sha256 : Bytes → Word) :
    (∀ X Y : G1, X ≠ 0 → Y ≠ 0 → ∃ parameter spkBytes,
      verificationKeyAsMixParameter ⟨X, Y⟩ = some parameter ∧ g1ToBytes Y = some spkBytes ∧
      ∀ m : Bytes, m.length = 32 → ∀ sigma : Word,
        (Signing.verify sha256 ⟨X, Y⟩ m sigma.toNat =
            some (OTSchnorr.verify sha256 (keyWords parameter) sigma (messageWord m)) ↔
          sigma.toNat < q ∨
            (sigma.toNat • genG1 ≠ rightPart sha256 ⟨X, Y⟩ spkBytes m ∧
              (sigma.toNat % q) • genG1 ≠ rightPart sha256 ⟨X, Y⟩ spkBytes m))) ∧
    ∀ x y : ℕ, 1 ≤ x → x < r → 1 ≤ y → y < r → ∃ parameter,
      verificationKeyAsMixParameter (genSigningKeypair x y).2 = some parameter ∧
      ∀ m : Bytes, m.length = 32 → ∃ sigma,
        Signing.sign sha256 (genSigningKeypair x y).1 m = some sigma ∧
        Signing.verify sha256 (genSigningKeypair x y).2 m sigma = some true ∧
        OTSchnorr.verify sha256 (keyWords parameter) (BitVec.ofNat 256 sigma) (messageWord m) =
          true := by
  constructor
  · intro X Y hX hY
    obtain ⟨parameter, spkBytes, hvk⟩ := @exists_readsKey ⟨X, Y⟩ hX hY
    exact ⟨parameter, spkBytes, hvk.parameter_eq, hvk.bytes_eq, fun m hm => agree_iff hvk hm⟩
  · intro x y hx hxr hy hyr
    obtain ⟨parameter, hparameter, haccept⟩ := exists_sign_accepted sha256 hx hxr hy hyr
    refine ⟨parameter, hparameter, fun m hm => ?_⟩
    obtain ⟨sigma, -, haccepted⟩ := haccept m hm
    exact ⟨sigma, haccepted⟩

/-- The signature `1` and the key `X = Y = G`. -/
theorem signature_checks_agree_generator :
    (∃ parameter, verificationKeyAsMixParameter ⟨genG1, genG1⟩ = some parameter ∧
      Signing.verify (fun _ => 0) ⟨genG1, genG1⟩ (List.replicate 32 0) (1 : Word).toNat =
        some (OTSchnorr.verify (fun _ => 0) (keyWords parameter) 1
          (messageWord (List.replicate 32 0)))) ∧
    ∃ sigma, Signing.sign (fun _ => 0) (genSigningKeypair 1 1).1 (List.replicate 32 0) =
      some sigma := by
  have hone : 1 < r := by decide +kernel
  have hm : (List.replicate 32 0 : Bytes).length = 32 := List.length_replicate
  obtain ⟨hagree, hsign⟩ := signature_checks_agree_iff fun _ => 0
  constructor
  · obtain ⟨parameter, spkBytes, hparameter, -, hiff⟩ :=
      hagree genG1 genG1 genG1_ne_zero genG1_ne_zero
    exact ⟨parameter, hparameter, (hiff _ hm 1).mpr (.inl (by decide +kernel))⟩
  · obtain ⟨_, -, haccept⟩ := hsign 1 1 (le_refl 1) hone (le_refl 1) hone
    obtain ⟨sigma, hsigma, -⟩ := haccept _ hm
    exact ⟨sigma, hsigma⟩

theorem parameter_genSigningKeypair_one :
    verificationKeyAsMixParameter (genSigningKeypair 1 1).2 = some ![1, 2, 1, 2] := by
  have hone : 1 < r := by decide +kernel
  have hvk : (genSigningKeypair 1 1).2 = ⟨genG1, genG1⟩ := by
    rw [← one_nsmul genG1, ← Signing.ppk_genSigningKeypair hone 1]
    rfl
  have hn : FQ.n 1 = 1 ∧ FQ.n 2 = 2 := by decide +kernel
  have hcoordinates : curve.coordinates genG1 = some (1, 2) := rfl
  simp only [hvk, verificationKeyAsMixParameter, hcoordinates, Option.bind_eq_bind,
    Option.bind_some, Option.pure_def, hn.1, hn.2]

/-- With `X = Y = G`, the client accepts the number `q` above a signature, for every hash, and the
contract does not. -/
theorem signature_above_q_disagrees :
    verificationKeyAsMixParameter (genSigningKeypair 1 1).2 = some ![1, 2, 1, 2] ∧
    ∀ sha256 : Bytes → Word, ∃ sigma : Word,
      Signing.verify sha256 (genSigningKeypair 1 1).2 (List.replicate 32 0) sigma.toNat = some true ∧
      OTSchnorr.verify sha256 (keyWords ![1, 2, 1, 2]) sigma (messageWord (List.replicate 32 0)) =
        false := by
  refine ⟨parameter_genSigningKeypair_one, fun sha256 => ?_⟩
  have hone : 1 < r := by decide +kernel
  obtain ⟨parameter, spkBytes, hvk⟩ :=
    exists_readsKey_genSigningKeypair (le_refl 1) hone (le_refl 1) hone
  obtain rfl : parameter = ![1, 2, 1, 2] :=
    Option.some.inj (hvk.parameter_eq.symm.trans parameter_genSigningKeypair_one)
  have hm : (List.replicate 32 0 : Bytes).length = 32 := List.length_replicate
  have heq : _ = rightPart sha256 (genSigningKeypair 1 1).2 spkBytes (List.replicate 32 0) :=
    Signing.nsmul_sign hone hone _
  have hlt := Nat.mod_lt (1 + (sha256 (spkBytes ++ List.replicate 32 0)).toNat % r * 1)
    (Curve.prime_r .altBN128).pos
  generalize (1 + (sha256 (spkBytes ++ List.replicate 32 0)).toNat % r * 1) % r = s at heq hlt
  have hbound : s + q < 2 ^ 256 :=
    (Nat.add_lt_add_right hlt q).trans (show r + q < 2 ^ 256 by decide +kernel)
  have hmod : (s + q) % q = s := by
    rw [Nat.add_mod_right, Nat.mod_eq_of_lt (hlt.trans Signing.r_lt_q)]
  have hword : (BitVec.ofNat 256 (s + q)).toNat = s + q := by
    rw [BitVec.toNat_ofNat, Nat.mod_eq_of_lt hbound]
  refine ⟨BitVec.ofNat 256 (s + q), ?_, ?_⟩
  · rw [client_verify_eq hvk, hword, hmod, decide_eq_true heq]
  · have hne := nsmul_ne_of_le (Nat.le_add_left q s) hbound
    rw [hmod, heq] at hne
    rw [Bool.eq_false_iff, Ne, contract_verify_iff hvk hm, hword]
    exact hne

end Agreement

end Zeth
