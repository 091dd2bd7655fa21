import Zeth.Serialization.StreamUtils

/-!
# Groth16 keys on streams of bytes

A key pair is written as the proving key and then the verification key, each with its fields one
after the other (`libzeth/snarks/groth16/groth16_snark.tcc`). Keys with points that are not well
formed are refused, both when they are written and when they have been read.

The fields of coordinates, the scalar field and the test of points are parameters.

## Main definitions

* `Pairing`, `ProvingKey`, `VerificationKey`, `Keypair`.
* `keypairWriteBytes`, `keypairReadBytes`.
* `Keypair.IsIn`, `Keypair.IsStorable`.

## Main results

* `reads_provingKeyFields`, `reads_verificationKeyFields`.
* `keypair_roundTrip`.
-/

namespace Zeth.Serialization

open ByteString

variable {K₁ K₂ F : Type}

variable (K₁ K₂ F) in
/-- How coordinates and scalars are written, and `is_well_formed` in both groups. -/
structure Pairing where
  codec₁ : StreamCodec K₁
  codec₂ : StreamCodec K₂
  codecF : StreamCodec F
  isWellFormed₁ : Point K₁ → Bool
  isWellFormed₂ : Point K₂ → Bool

/-- `libsnark::knowledge_commitment`. -/
structure KnowledgeCommitment (K₁ K₂ : Type) where
  g : Point K₂
  h : Point K₁

/-- `libsnark::r1cs_gg_ppzksnark_proving_key`. -/
structure ProvingKey (K₁ K₂ F : Type) where
  alphaG1 : Point K₁
  betaG1 : Point K₁
  betaG2 : Point K₂
  deltaG1 : Point K₁
  deltaG2 : Point K₂
  AQuery : List (Point K₁)
  BQuery : SparseVector (KnowledgeCommitment K₁ K₂)
  HQuery : List (Point K₁)
  LQuery : List (Point K₁)
  constraintSystem : ConstraintSystem F

/-- `libsnark::r1cs_gg_ppzksnark_verification_key`. -/
structure VerificationKey (K₁ K₂ : Type) where
  alphaG1 : Point K₁
  betaG2 : Point K₂
  deltaG2 : Point K₂
  ABCG1 : AccumulationVector (Point K₁)

/-- `libsnark::r1cs_gg_ppzksnark_keypair`. -/
structure Keypair (K₁ K₂ F : Type) where
  pk : ProvingKey K₁ K₂ F
  vk : VerificationKey K₁ K₂

/-! ### Reading and writing -/

section

variable [CommRing K₁] [DecidableEq K₁] [CommRing K₂] [DecidableEq K₂] (P : Pairing K₁ K₂ F)

/-- `is_well_formed`, of a proving key. -/
def ProvingKey.isWellFormed (pk : ProvingKey K₁ K₂ F) : Bool :=
  P.isWellFormed₁ pk.alphaG1 && P.isWellFormed₁ pk.betaG1 && P.isWellFormed₂ pk.betaG2 &&
    P.isWellFormed₁ pk.deltaG1 && P.isWellFormed₂ pk.deltaG2 &&
    pk.AQuery.all P.isWellFormed₁ && pk.LQuery.all P.isWellFormed₁ &&
    pk.BQuery.values.all fun b => P.isWellFormed₂ b.g && P.isWellFormed₁ b.h

/-- `is_well_formed`, of a verification key. -/
def VerificationKey.isWellFormed (vk : VerificationKey K₁ K₂) : Bool :=
  P.isWellFormed₁ vk.alphaG1 && P.isWellFormed₂ vk.betaG2 && P.isWellFormed₂ vk.deltaG2 &&
    P.isWellFormed₁ vk.ABCG1.first && vk.ABCG1.rest.values.all P.isWellFormed₁

/-- `knowledge_commitment_write_bytes`. -/
def knowledgeCommitmentWriteBytes (commitment : KnowledgeCommitment K₁ K₂) : Bytes :=
  groupElementWriteBytes P.codec₂ commitment.g ++ groupElementWriteBytes P.codec₁ commitment.h

/-- `knowledge_commitment_read_bytes`. -/
def knowledgeCommitmentReadBytes : Reader Fault Byte (KnowledgeCommitment K₁ K₂) := do
  let g ← groupElementReadBytes P.codec₂
  let h ← groupElementReadBytes P.codec₁
  return ⟨g, h⟩

/-- The fields of a proving key. -/
def provingKeyFields (pk : ProvingKey K₁ K₂ F) : Bytes :=
  groupElementWriteBytes P.codec₁ pk.alphaG1 ++ (groupElementWriteBytes P.codec₁ pk.betaG1 ++
    (groupElementWriteBytes P.codec₂ pk.betaG2 ++ (groupElementWriteBytes P.codec₁ pk.deltaG1 ++
    (groupElementWriteBytes P.codec₂ pk.deltaG2 ++
    (collectionWriteBytes (groupElementWriteBytes P.codec₁) pk.AQuery ++
    (sparseVectorWriteBytes (knowledgeCommitmentWriteBytes P) pk.BQuery ++
    (collectionWriteBytes (groupElementWriteBytes P.codec₁) pk.HQuery ++
    (collectionWriteBytes (groupElementWriteBytes P.codec₁) pk.LQuery ++
      r1csWriteBytes P.codecF pk.constraintSystem))))))))

/-- `proving_key_write_bytes`. -/
def provingKeyWriteBytes (pk : ProvingKey K₁ K₂ F) : Except Fault Bytes :=
  if !pk.isWellFormed P then .error (.exception "proving key (write) not well-formed")
  else .ok (provingKeyFields P pk)

/-- The fields of a verification key. -/
def verificationKeyFields (vk : VerificationKey K₁ K₂) : Bytes :=
  groupElementWriteBytes P.codec₁ vk.alphaG1 ++ (groupElementWriteBytes P.codec₂ vk.betaG2 ++
    (groupElementWriteBytes P.codec₂ vk.deltaG2 ++
      accumulationVectorWriteBytes (groupElementWriteBytes P.codec₁) vk.ABCG1))

/-- `verification_key_write_bytes`. -/
def verificationKeyWriteBytes (vk : VerificationKey K₁ K₂) : Except Fault Bytes :=
  if !vk.isWellFormed P then .error (.exception "verification key (write) not well-formed")
  else .ok (verificationKeyFields P vk)

/-- The part of `proving_key_read_bytes` before the test. -/
def provingKeyReadFields : Reader Fault Byte (ProvingKey K₁ K₂ F) := do
  let alphaG1 ← groupElementReadBytes P.codec₁
  let betaG1 ← groupElementReadBytes P.codec₁
  let betaG2 ← groupElementReadBytes P.codec₂
  let deltaG1 ← groupElementReadBytes P.codec₁
  let deltaG2 ← groupElementReadBytes P.codec₂
  let AQuery ← collectionReadBytes (groupElementReadBytes P.codec₁)
  let BQuery ← sparseVectorReadBytes (knowledgeCommitmentReadBytes P)
  let HQuery ← collectionReadBytes (groupElementReadBytes P.codec₁)
  let LQuery ← collectionReadBytes (groupElementReadBytes P.codec₁)
  let constraintSystem ← r1csReadBytes P.codecF
  return ⟨alphaG1, betaG1, betaG2, deltaG1, deltaG2, AQuery, BQuery, HQuery, LQuery,
    constraintSystem⟩

/-- The part of `verification_key_read_bytes` before the test. -/
def verificationKeyReadFields : Reader Fault Byte (VerificationKey K₁ K₂) := do
  let alphaG1 ← groupElementReadBytes P.codec₁
  let betaG2 ← groupElementReadBytes P.codec₂
  let deltaG2 ← groupElementReadBytes P.codec₂
  let ABCG1 ← accumulationVectorReadBytes (groupElementReadBytes P.codec₁)
  return ⟨alphaG1, betaG2, deltaG2, ABCG1⟩

/-- A value that has been read and is tested. -/
def testedBy {α : Type} (test : α → Bool) (message : String) (a : α) : Reader Fault Byte α :=
  if !test a then throw (.exception message) else return a

/-- `proving_key_read_bytes`. -/
def provingKeyReadBytes : Reader Fault Byte (ProvingKey K₁ K₂ F) := do
  let pk ← provingKeyReadFields P
  testedBy (ProvingKey.isWellFormed P) "proving key (read) not well-formed" pk

/-- `verification_key_read_bytes`. -/
def verificationKeyReadBytes : Reader Fault Byte (VerificationKey K₁ K₂) := do
  let vk ← verificationKeyReadFields P
  testedBy (VerificationKey.isWellFormed P) "verification key (read) not well-formed" vk

/-- `keypair_write_bytes`. -/
def keypairWriteBytes (keypair : Keypair K₁ K₂ F) : Except Fault Bytes := do
  let pk ← provingKeyWriteBytes P keypair.pk
  let vk ← verificationKeyWriteBytes P keypair.vk
  return pk ++ vk

/-- `keypair_read_bytes`. -/
def keypairReadBytes : Reader Fault Byte (Keypair K₁ K₂ F) := do
  let pk ← provingKeyReadBytes P
  let vk ← verificationKeyReadBytes P
  return ⟨pk, vk⟩

/-! ### Key pairs that can be stored -/

/-- All points of a proving key are in given sets. -/
structure ProvingKey.IsIn (G₁ : Set (Point K₁)) (G₂ : Set (Point K₂)) (pk : ProvingKey K₁ K₂ F) :
    Prop where
  alphaG1 : pk.alphaG1 ∈ G₁
  betaG1 : pk.betaG1 ∈ G₁
  betaG2 : pk.betaG2 ∈ G₂
  deltaG1 : pk.deltaG1 ∈ G₁
  deltaG2 : pk.deltaG2 ∈ G₂
  AQuery : ∀ p ∈ pk.AQuery, p ∈ G₁
  BQuery : ∀ b ∈ pk.BQuery.values, b.g ∈ G₂ ∧ b.h ∈ G₁
  HQuery : ∀ p ∈ pk.HQuery, p ∈ G₁
  LQuery : ∀ p ∈ pk.LQuery, p ∈ G₁

/-- All points of a verification key are in given sets. -/
structure VerificationKey.IsIn (G₁ : Set (Point K₁)) (G₂ : Set (Point K₂))
    (vk : VerificationKey K₁ K₂) : Prop where
  alphaG1 : vk.alphaG1 ∈ G₁
  betaG2 : vk.betaG2 ∈ G₂
  deltaG2 : vk.deltaG2 ∈ G₂
  first : vk.ABCG1.first ∈ G₁
  rest : ∀ p ∈ vk.ABCG1.rest.values, p ∈ G₁

/-- The sizes of the vectors are of type `size_t`, and linear combinations have less than `2 ^ 32`
terms. -/
structure Keypair.IsStorable (keypair : Keypair K₁ K₂ F) : Prop where
  AQuery : keypair.pk.AQuery.length < 2 ^ 64
  BQuery : keypair.pk.BQuery.values.length < 2 ^ 64
  HQuery : keypair.pk.HQuery.length < 2 ^ 64
  LQuery : keypair.pk.LQuery.length < 2 ^ 64
  constraints : keypair.pk.constraintSystem.constraints.length < 2 ^ 64
  rest : keypair.vk.ABCG1.rest.values.length < 2 ^ 64
  isShort : ∀ constraint ∈ keypair.pk.constraintSystem.constraints, constraint.IsShort

variable {P} {G₁ : Set (Point K₁)} {G₂ : Set (Point K₂)} {keypair : Keypair K₁ K₂ F}

omit [CommRing K₁] [DecidableEq K₁] [CommRing K₂] [DecidableEq K₂] in
theorem ProvingKey.IsIn.isWellFormed (hwf₁ : ∀ p ∈ G₁, P.isWellFormed₁ p = true)
    (hwf₂ : ∀ p ∈ G₂, P.isWellFormed₂ p = true) {pk : ProvingKey K₁ K₂ F} (h : pk.IsIn G₁ G₂) :
    pk.isWellFormed P = true := by
  simp only [ProvingKey.isWellFormed, Bool.and_eq_true, List.all_eq_true]
  exact ⟨⟨⟨⟨⟨⟨⟨hwf₁ _ h.alphaG1, hwf₁ _ h.betaG1⟩, hwf₂ _ h.betaG2⟩, hwf₁ _ h.deltaG1⟩,
    hwf₂ _ h.deltaG2⟩, fun p hp => hwf₁ p (h.AQuery p hp)⟩, fun p hp => hwf₁ p (h.LQuery p hp)⟩,
    fun b hb => ⟨hwf₂ _ (h.BQuery b hb).1, hwf₁ _ (h.BQuery b hb).2⟩⟩

omit [CommRing K₁] [DecidableEq K₁] [CommRing K₂] [DecidableEq K₂] in
theorem VerificationKey.IsIn.isWellFormed (hwf₁ : ∀ p ∈ G₁, P.isWellFormed₁ p = true)
    (hwf₂ : ∀ p ∈ G₂, P.isWellFormed₂ p = true) {vk : VerificationKey K₁ K₂} (h : vk.IsIn G₁ G₂) :
    vk.isWellFormed P = true := by
  simp only [VerificationKey.isWellFormed, Bool.and_eq_true, List.all_eq_true]
  exact ⟨⟨⟨⟨hwf₁ _ h.alphaG1, hwf₂ _ h.betaG2⟩, hwf₂ _ h.deltaG2⟩, hwf₁ _ h.first⟩,
    fun p hp => hwf₁ p (h.rest p hp)⟩

theorem reads_testedBy {α : Type} {test : α → Bool} {message : String} {a : α}
    (h : test a = true) : Reads (testedBy test message a) [] a := by
  rw [testedBy, h]
  exact Reads.pure a

/-- The fields of a proving key are read back. -/
theorem reads_provingKeyFields (h₁ : .affine 0 1 ∉ G₁) (h₂ : .affine 0 1 ∉ G₂)
    (hin : keypair.pk.IsIn G₁ G₂) (hstorable : keypair.IsStorable) :
    Reads (provingKeyReadFields P) (provingKeyFields P keypair.pk) keypair.pk := by
  have hreads₁ {p : Point K₁} (hp : p ∈ G₁) :=
    (reads_groupElement_iff P.codec₁).mpr (ne_of_mem_of_not_mem hp h₁)
  have hreads₂ {p : Point K₂} (hp : p ∈ G₂) :=
    (reads_groupElement_iff P.codec₂).mpr (ne_of_mem_of_not_mem hp h₂)
  have hB (b) (hb : b ∈ keypair.pk.BQuery.values) :
      Reads (knowledgeCommitmentReadBytes P) (knowledgeCommitmentWriteBytes P b) b :=
    (hreads₂ (hin.BQuery b hb).1).bind ((hreads₁ (hin.BQuery b hb).2).map rfl)
  refine (hreads₁ hin.alphaG1).bind ((hreads₁ hin.betaG1).bind ((hreads₂ hin.betaG2).bind
    ((hreads₁ hin.deltaG1).bind ((hreads₂ hin.deltaG2).bind ?_))))
  refine (reads_collection hstorable.AQuery fun p hp => hreads₁ (hin.AQuery p hp)).bind ?_
  refine (reads_sparseVector hstorable.BQuery hB).bind ?_
  refine (reads_collection hstorable.HQuery fun p hp => hreads₁ (hin.HQuery p hp)).bind ?_
  refine (reads_collection hstorable.LQuery fun p hp => hreads₁ (hin.LQuery p hp)).bind ?_
  exact (reads_r1cs P.codecF hstorable.constraints hstorable.isShort).map rfl

/-- The fields of a verification key are read back. -/
theorem reads_verificationKeyFields (h₁ : .affine 0 1 ∉ G₁) (h₂ : .affine 0 1 ∉ G₂)
    (hin : keypair.vk.IsIn G₁ G₂) (hstorable : keypair.IsStorable) :
    Reads (verificationKeyReadFields P) (verificationKeyFields P keypair.vk) keypair.vk := by
  have hreads₁ {p : Point K₁} (hp : p ∈ G₁) :=
    (reads_groupElement_iff P.codec₁).mpr (ne_of_mem_of_not_mem hp h₁)
  have hreads₂ {p : Point K₂} (hp : p ∈ G₂) :=
    (reads_groupElement_iff P.codec₂).mpr (ne_of_mem_of_not_mem hp h₂)
  refine (hreads₁ hin.alphaG1).bind ((hreads₂ hin.betaG2).bind ((hreads₂ hin.deltaG2).bind ?_))
  exact (reads_accumulationVector hstorable.rest (hreads₁ hin.first) fun p hp =>
    hreads₁ (hin.rest p hp)).map rfl

/-- **Key files are read back.** A key pair with points in groups of well-formed points, none of
which has the coordinates of the identity but the identity, and with linear combinations of less
than `2 ^ 32` terms is written, and is read back from the front of a stream. -/
theorem keypair_roundTrip (P : Pairing K₁ K₂ F) (h₁ : .affine 0 1 ∉ G₁) (h₂ : .affine 0 1 ∉ G₂)
    (hwf₁ : ∀ p ∈ G₁, P.isWellFormed₁ p = true) (hwf₂ : ∀ p ∈ G₂, P.isWellFormed₂ p = true)
    (hpk : keypair.pk.IsIn G₁ G₂) (hvk : keypair.vk.IsIn G₁ G₂) (hstorable : keypair.IsStorable) :
    ∃ bytes, keypairWriteBytes P keypair = .ok bytes ∧
      ∀ rest, keypairReadBytes P (bytes ++ rest) = .ok (keypair, rest) := by
  have hpk' := hpk.isWellFormed hwf₁ hwf₂
  have hvk' := hvk.isWellFormed hwf₁ hwf₂
  refine ⟨provingKeyFields P keypair.pk ++ verificationKeyFields P keypair.vk, ?_, ?_⟩
  · rw [keypairWriteBytes, provingKeyWriteBytes, verificationKeyWriteBytes, hpk', hvk']
    rfl
  · have hreads : Reads (keypairReadBytes P)
        ((provingKeyFields P keypair.pk ++ []) ++ (verificationKeyFields P keypair.vk ++ []))
        keypair :=
      ((reads_provingKeyFields h₁ h₂ hpk hstorable).bind (reads_testedBy hpk')).bind
        (((reads_verificationKeyFields h₁ h₂ hvk hstorable).bind (reads_testedBy hvk')).map rfl)
    rwa [List.append_nil, List.append_nil] at hreads

end

/-! ### A small key pair -/

/-- Residues modulo `7` for all fields, and the curve `y² = x³ + 3` for both groups. -/
def smallPairing : Pairing (ZMod 7) (ZMod 7) (ZMod 7) where
  codec₁ := residueBytes 7 1 (by decide)
  codec₂ := residueBytes 7 1 (by decide)
  codecF := residueBytes 7 1 (by decide)
  isWellFormed₁ := Point.isWellFormed 3
  isWellFormed₂ := Point.isWellFormed 3

/-- A key pair with a constraint of two terms. -/
def smallKeypair : Keypair (ZMod 7) (ZMod 7) (ZMod 7) where
  pk :=
    { alphaG1 := .affine 1 2
      betaG1 := .affine 1 5
      betaG2 := .affine 1 2
      deltaG1 := .affine 1 2
      deltaG2 := .identity
      AQuery := [.affine 1 2, .identity]
      BQuery := ⟨4, [3], [⟨.affine 1 5, .identity⟩], rfl⟩
      HQuery := []
      LQuery := [.affine 1 5]
      constraintSystem := ⟨1, 2, [⟨[⟨0, 1⟩, ⟨2, 6⟩], [⟨1, 1⟩], []⟩]⟩ }
  vk := ⟨.affine 1 2, .affine 1 2, .identity, ⟨.affine 1 5, ⟨1, [0], [.identity], rfl⟩⟩⟩

/-- The small key pair is read back. -/
theorem keypair_roundTrip_small :
    ∃ bytes, keypairWriteBytes smallPairing smallKeypair = .ok bytes ∧
      ∀ rest, keypairReadBytes smallPairing (bytes ++ rest) = .ok (smallKeypair, rest) := by
  have hnot : Point.affine (0 : ZMod 7) 1 ∉ {p | p.isWellFormed 3 = true} := by decide
  refine keypair_roundTrip smallPairing hnot hnot (fun p hp => hp) (fun p hp => hp) ?_ ?_ ?_
  · constructor <;> decide
  · constructor <;> decide
  · constructor <;> decide

end Zeth.Serialization
