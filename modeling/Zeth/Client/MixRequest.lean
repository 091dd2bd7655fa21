import Zeth.Client.MerklePath
import Zeth.Client.Prf
import Zeth.Client.Signing
import Zeth.Client.Utils

/-!
# Requests to the prover

The command `mix` checks that the amounts that go in and those that come out are equal, in wei, and
asks the prover server for a proof (`client/zeth/cli/zeth_mix.py`, `client/zeth/core/mixer_client.py`).
The request has values in Zeth units, and each amount is rounded down on its own. Values of input
notes are in Zeth units from the start.

So a request that passes the check is balanced exactly when the remainders of the amounts that come
out add up to the remainder of the public input value, without a carry (`mixRequest_balanced_iff`).

What is drawn at random is a parameter. The commands that look up notes and parse addresses and
amounts are left out: a call starts from the notes and the amounts.

## Main definitions

* `MixCallDescription`, `createProverInputs`, `ProofInputs`.
* `mixRequest`: the command `mix` up to the request.
* `ProofInputs.isBalanced`.

## Main results

* `exists_createProverInputs`: requests for amounts of 64 bits are built.
* `mixRequest_balanced_iff`.
-/

namespace Zeth.Client

open ByteString Python List

open Except (ok_bind bind_eq_ok)

/-! ### Descriptions of calls -/

/-- `ZethAddressPub`. -/
structure ZethAddressPub (C : Cryptography) where
  aPk : Bytes
  kPk : C.PublicKey

/-- `OwnershipKeyPair`. -/
structure OwnershipKeyPair where
  aSk : Bytes
  aPk : Bytes

/-- What is drawn at random for a call. -/
structure MixDraws (C : Cryptography) where
  /-- `_get_dummy_rho`, for each dummy input. -/
  dummyRho : ℕ → Bytes
  /-- `_trap_r_randomness`, for each dummy input. -/
  dummyTrapR : ℕ → Bytes
  /-- The public key of `generate_encryption_keypair`. -/
  dummyKPk : C.PublicKey
  /-- The two numbers that `gen_signing_keypair` reads. -/
  signing : ℕ × ℕ
  /-- `_phi_randomness`. -/
  phi : Bytes
  /-- `_trap_r_randomness`, for each output. -/
  trapR : ℕ → Bytes
  length_dummyRho : ∀ i, (dummyRho i).length = 32
  length_dummyTrapR : ∀ i, (dummyTrapR i).length = 32
  length_phi : phi.length = 32
  length_trapR : ∀ i, (trapR i).length = 32

/-- `ZERO_UNITS_HEX`. -/
def zeroUnitsHex : String := "0000000000000000"

/-- `get_dummy_input_and_address`. -/
def getDummyInputAndAddress (aPk dummyRho trapR : Bytes) : Except Exc (ℕ × ZethNote) := do
  return (0, ⟨← ownershipKeyAsHex aPk, zeroUnitsHex, hex dummyRho, hex trapR⟩)

/-- `MixCallDescription`. -/
structure MixCallDescription (C : Cryptography) where
  mkTree : MerkleTree
  senderOwnershipKeypair : OwnershipKeyPair
  inputs : List (ℕ × ZethNote)
  outputs : List (ZethAddressPub C × EtherValue)
  vIn : EtherValue
  vOut : EtherValue

variable {C : Cryptography}

/-- The dummy inputs of `MixCallDescription.__init__`. -/
def dummyInputs (draws : MixDraws C) (aPk : Bytes) (count : ℕ) : Except Exc (List (ℕ × ZethNote)) :=
  (List.range count).mapM fun i =>
    getDummyInputAndAddress aPk (draws.dummyRho i) (draws.dummyTrapR i)

/-- The outputs of `MixCallDescription.__init__`, with dummies in the missing places. -/
def padOutputs (draws : MixDraws C) (aPk : Bytes)
    (outputs : List (ZethAddressPub C × EtherValue)) : List (ZethAddressPub C × EtherValue) :=
  if outputs.length < jsOutputs then
    outputs ++ List.replicate (jsOutputs - outputs.length) (⟨aPk, draws.dummyKPk⟩, ⟨0⟩)
  else outputs

/-- `MixCallDescription.__init__`. -/
def MixCallDescription.new (draws : MixDraws C) (mkTree : MerkleTree) (keypair : OwnershipKeyPair)
    (inputs : List (ℕ × ZethNote)) (outputs : List (ZethAddressPub C × EtherValue))
    (vIn vOut : EtherValue) : Except Exc (MixCallDescription C) := do
  assert (inputs.length ≤ jsInputs) ""
  assert (outputs.length ≤ jsOutputs) ""
  let dummies ← dummyInputs draws keypair.aPk (jsInputs - inputs.length)
  return ⟨mkTree, keypair, inputs ++ dummies, padOutputs draws keypair.aPk outputs, vIn, vOut⟩

/-! ### Requests -/

/-- The `JoinsplitInput` message. -/
structure JoinsplitInput where
  merklePath : List String
  address : ℕ
  note : ZethNote
  spendingAsk : String
  nullifier : String

/-- The `ProofInputs` message. -/
structure ProofInputs where
  mkRoot : String
  jsInputs : List JoinsplitInput
  jsOutputs : List ZethNote
  pubInValue : String
  pubOutValue : String
  hSig : String
  phi : String

/-- `_create_api_input`, with `create_api_joinsplit_input`. -/
def createApiInput (mkTree : MerkleTree) (senderAsk : Bytes) (input : ℕ × ZethNote) :
    Except Exc JoinsplitInput := do
  let mkPath ← computeMerklePath input.1 mkTree
  let inputNullifier ← computeNullifier input.2 senderAsk
  return ⟨mkPath, input.1, input.2, ← ownershipKeyAsHex senderAsk, hex inputNullifier⟩

/-- `compute_h_sig`. The library `py_ecc` writes the identity as `None`. -/
def computeHSig (sha256 : Bytes → Word) (nullifiers : List Bytes) (signVk : SigningVerificationKey) :
    Except Exc Bytes :=
  match signVk.toBytes with
  | some vkBytes => .ok (toBig 32 (sha256 (nullifiers.flatten ++ vkBytes)).toNat)
  | none => .error (.exception "'NoneType' object is not subscriptable")

/-- `_create_api_zeth_note`. -/
def createApiZethNote (phi hsig trapR : Bytes) (outIndex : ℕ) (recipient : Bytes) (value : ℕ) :
    Except Exc ZethNote := do
  let rho ← computeRhoI phi hsig outIndex
  return ⟨← ownershipKeyAsHex recipient, ← int64ToHex value, hex rho, hex trapR⟩

/-- `_create_api_zeth_notes`. -/
def createApiZethNotes (trapR : ℕ → Bytes) (phi hsig : Bytes) (outputs : List (Bytes × ℕ)) :
    Except Exc (List ZethNote) :=
  outputs.zipIdx.mapM fun output =>
    createApiZethNote phi hsig (trapR output.2) output.2 output.1.1 output.1.2

/-- `MixerClient.create_prover_inputs`. -/
def createProverInputs (sha256 : Bytes → Word) (draws : MixDraws C) (desc : MixCallDescription C) :
    Except Exc (ProofInputs × SigningSecretKey × SigningVerificationKey) := do
  let apiInputs ← desc.inputs.mapM (createApiInput desc.mkTree desc.senderOwnershipKeypair.aSk)
  let mkRoot ← desc.mkTree.getRoot
  let outputsWithAPk := desc.outputs.map fun output => (output.1.aPk, toZethUnits output.2)
  let signingKeypair := genSigningKeypair draws.signing.1 draws.signing.2
  let nullifiers ← apiInputs.mapM fun input => fromhex input.nullifier
  let hSig ← computeHSig sha256 nullifiers signingKeypair.2
  let apiOutputs ← createApiZethNotes draws.trapR draws.phi hSig outputsWithAPk
  let pubInValue ← int64ToHex (toZethUnits desc.vIn)
  let pubOutValue ← int64ToHex (toZethUnits desc.vOut)
  return (⟨hex mkRoot, apiInputs, apiOutputs, pubInValue, pubOutValue, hex hSig, hex draws.phi⟩,
    signingKeypair)

/-! ### The command -/

variable (W : Web3)

/-- The checks of `mix` on the numbers of inputs and of outputs and on the amounts. -/
def checkValues (vin vout : EtherValue) (inputs : List (ℕ × ZethNote))
    (outputs : List (ZethAddressPub C × EtherValue)) : Except Exc Unit :=
  if jsInputs < inputs.length then
    .error (.exception ("too many inputs (max " ++ toString jsInputs ++ ")"))
  else if jsOutputs < outputs.length then
    .error (.exception ("too many outputs (max " ++ toString jsOutputs ++ ")"))
  else do
    let values ← inputs.mapM fun input => intHex input.2.value
    let inputNoteSum ← fromZethUnits W values.sum
    let outputNoteSum ← EtherValue.sum W (outputs.map Prod.snd)
    let total ← vin.add W inputNoteSum
    let total' ← vout.add W outputNoteSum
    if total ≠ total' then .error (.exception "input and output value mismatch") else .ok ()

/-- The command `mix`, up to the request that `create_mix_parameters_and_signing_key` sends to the
prover. -/
def mixRequest (sha256 : Bytes → Word) (draws : MixDraws C) (mkTree : MerkleTree)
    (keypair : OwnershipKeyPair) (vin vout : EtherValue) (inputs : List (ℕ × ZethNote))
    (outputs : List (ZethAddressPub C × EtherValue)) :
    Except Exc (ProofInputs × SigningSecretKey × SigningVerificationKey) := do
  checkValues W vin vout inputs outputs
  let desc ← MixCallDescription.new draws mkTree keypair inputs outputs vin vout
  assert (desc.inputs.length == jsInputs) ""
  assert (desc.outputs.length == jsOutputs) ""
  let (proverInputs, signingKeypair) ← createProverInputs sha256 draws desc
  assert (proverInputs.jsInputs.length == jsInputs) ""
  assert (proverInputs.jsOutputs.length == jsOutputs) ""
  return (proverInputs, signingKeypair)

/-- The values that go into a request and those that come out of it, in Zeth units, are equal. -/
def ProofInputs.isBalanced (request : ProofInputs) : Except Exc Bool := do
  let pubIn ← intHex request.pubInValue
  let pubOut ← intHex request.pubOutValue
  let inputs ← request.jsInputs.mapM fun input => intHex input.note.value
  let outputs ← request.jsOutputs.mapM fun note => intHex note.value
  return pubIn + inputs.sum == pubOut + outputs.sum

variable {W}

/-! ### Requests that are built -/

theorem note_of_createApiInput {mkTree : MerkleTree} {senderAsk : Bytes} {input : ℕ × ZethNote}
    {apiInput : JoinsplitInput} (h : createApiInput mkTree senderAsk input = .ok apiInput) :
    apiInput.note = input.2 ∧ ∃ nullifier, apiInput.nullifier = hex nullifier := by
  obtain ⟨mkPath, -, h⟩ := bind_eq_ok.mp h
  obtain ⟨inputNullifier, -, h⟩ := bind_eq_ok.mp h
  obtain ⟨spendingAsk, -, h⟩ := bind_eq_ok.mp h
  cases h
  exact ⟨rfl, inputNullifier, rfl⟩

theorem exists_createApiInput (hash : Bytes → Bytes → Bytes) {d : ℕ} (leaves : List Bytes)
    {senderAsk : Bytes} (hask : senderAsk.length = 32) {input : ℕ × ZethNote} (haddr : input.1 < 2 ^ d)
    (hnote : input.2.IsHex) :
    ∃ apiInput, createApiInput (.perfect hash d leaves) senderAsk input = .ok apiInput := by
  obtain ⟨nullifier, hnullifier⟩ := exists_computeNullifier hnote senderAsk
  simp only [createApiInput, MerkleTree.computeMerklePath_perfect haddr, hnullifier, ownershipKeyAsHex,
    hexExtend32Bytes_hex hask, ok_bind]
  exact ⟨_, rfl⟩

theorem exists_createApiZethNote {phi : Bytes} (hphi : phi.length = 32) (hsig trapR : Bytes)
    {outIndex : ℕ} (hindex : outIndex < jsOutputs) {recipient : Bytes}
    (hrecipient : recipient.length = 32) {value : ℕ} (hvalue : value < 2 ^ 64) :
    ∃ note, createApiZethNote phi hsig trapR outIndex recipient value = .ok note := by
  obtain ⟨block, hblock, -⟩ := exists_computeRhoIBlock hsig hphi hindex
  simp only [createApiZethNote, computeRhoI, hblock, ownershipKeyAsHex,
    hexExtend32Bytes_hex hrecipient, int64ToHex_eq hvalue, ok_bind]
  exact ⟨_, rfl⟩

theorem exists_createApiZethNotes (trapR : ℕ → Bytes) {phi : Bytes} (hphi : phi.length = 32)
    (hsig : Bytes) (outputs : List (Bytes × ℕ)) (hcount : outputs.length ≤ jsOutputs)
    (houtputs : ∀ output ∈ outputs, output.1.length = 32 ∧ output.2 < 2 ^ 64) :
    ∃ notes, createApiZethNotes trapR phi hsig outputs = .ok notes := by
  refine Except.exists_mapM fun output hmem => ?_
  obtain ⟨-, hlt, hget⟩ := mem_zipIdx hmem
  have hoffset : output.2 < outputs.length := by omega
  obtain ⟨hrecipient, hvalue⟩ := houtputs output.1 (hget ▸ getElem_mem _)
  exact exists_createApiZethNote hphi hsig _ (hoffset.trans_le hcount) hrecipient hvalue

/-- Requests are built for the leaves of a tree and for amounts of 64 bits, unless a signing key is
the identity. -/
theorem exists_createProverInputs (sha256 : Bytes → Word) (draws : MixDraws C)
    (desc : MixCallDescription C) {hash : Bytes → Bytes → Bytes} {d : ℕ} {leaves : List Bytes}
    (htree : desc.mkTree = .perfect hash d leaves)
    (hask : desc.senderOwnershipKeypair.aSk.length = 32)
    (hinputs : ∀ input ∈ desc.inputs, input.1 < 2 ^ d ∧ input.2.IsHex)
    (hcount : desc.outputs.length ≤ jsOutputs)
    (houtputs : ∀ output ∈ desc.outputs, output.1.aPk.length = 32 ∧ toZethUnits output.2 < 2 ^ 64)
    (hin : toZethUnits desc.vIn < 2 ^ 64) (hout : toZethUnits desc.vOut < 2 ^ 64) {vkBytes : Bytes}
    (hvk : (genSigningKeypair draws.signing.1 draws.signing.2).2.toBytes = some vkBytes) :
    ∃ request keys, createProverInputs sha256 draws desc = .ok (request, keys) ∧
      request.jsInputs.length = desc.inputs.length ∧
        request.jsOutputs.length = desc.outputs.length := by
  obtain ⟨apiInputs, hapi⟩ := Except.exists_mapM fun input hmem =>
    exists_createApiInput hash leaves hask (hinputs input hmem).1 (hinputs input hmem).2
  obtain ⟨nullifiers, hnullifiers⟩ : ∃ nullifiers,
      apiInputs.mapM (fun input => fromhex input.nullifier) = .ok nullifiers := by
    refine Except.exists_mapM fun apiInput hmem => ?_
    obtain ⟨input, -, hinput⟩ := Except.exists_of_mem_mapM hapi hmem
    obtain ⟨-, nullifier, hnullifier⟩ := note_of_createApiInput hinput
    exact ⟨nullifier, by rw [hnullifier, fromhex_hex]⟩
  have hsig : computeHSig sha256 nullifiers (genSigningKeypair draws.signing.1 draws.signing.2).2 =
      .ok (toBig 32 (sha256 (nullifiers.flatten ++ vkBytes)).toNat) := by
    rw [computeHSig, hvk]
  obtain ⟨notes, hnotes⟩ := exists_createApiZethNotes draws.trapR draws.length_phi
    (toBig 32 (sha256 (nullifiers.flatten ++ vkBytes)).toNat)
    (desc.outputs.map fun output => (output.1.aPk, toZethUnits output.2))
    (by rwa [length_map]) (forall_mem_map.mpr houtputs)
  have hlength : notes.length = desc.outputs.length := by
    have h := (Except.mapM_eq_ok.mp hnotes).length_eq
    rw [length_zipIdx, length_map] at h
    exact h.symm
  simp only [createProverInputs, htree, hapi, MerkleTree.getRoot_perfect, hnullifiers, hsig, hnotes,
    int64ToHex_eq hin, int64ToHex_eq hout, ok_bind]
  exact ⟨_, _, rfl, (Except.mapM_eq_ok.mp hapi).length_eq.symm, hlength⟩

/-- Dummies can be used in a request. -/
theorem exists_dummyInputs (draws : MixDraws C) {aPk : Bytes} (haPk : aPk.length = 32) (count : ℕ) :
    ∃ dummies, dummyInputs draws aPk count = .ok dummies ∧ dummies.length = count ∧
      ∀ input ∈ dummies, input.1 = 0 ∧ input.2.IsHex := by
  have hdummy (i : ℕ) : getDummyInputAndAddress aPk (draws.dummyRho i) (draws.dummyTrapR i) =
      .ok (0, ⟨hex aPk, zeroUnitsHex, hex (draws.dummyRho i), hex (draws.dummyTrapR i)⟩) := by
    rw [getDummyInputAndAddress, ownershipKeyAsHex, hexExtend32Bytes_hex haPk]
    rfl
  obtain ⟨dummies, hdummies⟩ := Except.exists_mapM (l := List.range count) fun i _ => ⟨_, hdummy i⟩
  have hlength := (Except.mapM_eq_ok.mp hdummies).length_eq
  refine ⟨dummies, hdummies, by rw [← hlength, length_range], fun input hmem => ?_⟩
  obtain ⟨i, -, hi⟩ := Except.exists_of_mem_mapM hdummies hmem
  rw [hdummy i] at hi
  cases hi
  have hzero : zeroUnitsHex = hex (List.replicate 8 0) := by decide
  exact ⟨rfl, ⟨_, rfl⟩, ⟨_, hzero, length_replicate⟩, ⟨_, rfl⟩, ⟨_, rfl⟩⟩

variable {vin vout : EtherValue} {inputs : List (ℕ × ZethNote)}
  {outputs : List (ZethAddressPub C × EtherValue)}

theorem length_padOutputs (draws : MixDraws C) (aPk : Bytes) (h : outputs.length ≤ jsOutputs) :
    (padOutputs draws aPk outputs).length = jsOutputs := by
  rw [padOutputs]
  split_ifs with hlt
  · rw [length_append, length_replicate, Nat.add_sub_cancel' h]
  · exact le_antisymm h (not_lt.mp hlt)

theorem forall_mem_padOutputs {draws : MixDraws C} {aPk : Bytes} (haPk : aPk.length = 32)
    (h : ∀ output ∈ outputs, output.1.aPk.length = 32 ∧ toZethUnits output.2 < 2 ^ 64) :
    ∀ output ∈ padOutputs draws aPk outputs,
      output.1.aPk.length = 32 ∧ toZethUnits output.2 < 2 ^ 64 := by
  rw [padOutputs]
  split_ifs
  · refine forall_mem_append.mpr ⟨h, fun output hmem => ?_⟩
    rw [eq_of_mem_replicate hmem]
    exact ⟨haPk, show toZethUnits ⟨0⟩ < 2 ^ 64 by decide⟩
  · exact h

/-- The command builds a request for amounts that pass the check, under the same conditions. -/
theorem exists_mixRequest (sha256 : Bytes → Word) (draws : MixDraws C)
    {hash : Bytes → Bytes → Bytes} {d : ℕ} {leaves : List Bytes} {keypair : OwnershipKeyPair}
    (hask : keypair.aSk.length = 32) (hapk : keypair.aPk.length = 32)
    (hcheck : checkValues W vin vout inputs outputs = .ok ())
    (hinputs : ∀ input ∈ inputs, input.1 < 2 ^ d ∧ input.2.IsHex)
    (houtputs : ∀ output ∈ outputs, output.1.aPk.length = 32 ∧ toZethUnits output.2 < 2 ^ 64)
    (hin : toZethUnits vin < 2 ^ 64) (hout : toZethUnits vout < 2 ^ 64) {vkBytes : Bytes}
    (hvk : (genSigningKeypair draws.signing.1 draws.signing.2).2.toBytes = some vkBytes) :
    ∃ request keys, mixRequest W sha256 draws (.perfect hash d leaves) keypair vin vout inputs outputs =
      .ok (request, keys) := by
  obtain ⟨hnumIn, hnumOut⟩ : inputs.length ≤ jsInputs ∧ outputs.length ≤ jsOutputs := by
    rw [checkValues] at hcheck
    split_ifs at hcheck with hnumIn hnumOut
    exact ⟨not_lt.mp hnumIn, not_lt.mp hnumOut⟩
  obtain ⟨dummies, hdummies, hlength, hmem⟩ :=
    exists_dummyInputs draws hapk (jsInputs - inputs.length)
  have hall : ∀ input ∈ inputs ++ dummies, input.1 < 2 ^ d ∧ input.2.IsHex := by
    refine forall_mem_append.mpr ⟨hinputs, fun input h => ?_⟩
    exact ⟨(hmem input h).1 ▸ Nat.two_pow_pos d, (hmem input h).2⟩
  have hnum : (inputs ++ dummies).length = jsInputs := by
    rw [length_append, hlength, Nat.add_sub_cancel' hnumIn]
  have hnum' := length_padOutputs draws keypair.aPk hnumOut
  obtain ⟨request, keys, hrequest, hreq, hreq'⟩ := exists_createProverInputs sha256 draws
    ⟨.perfect hash d leaves, keypair, inputs ++ dummies, padOutputs draws keypair.aPk outputs, vin,
      vout⟩ rfl hask hall hnum'.le
    (forall_mem_padOutputs hapk houtputs) hin hout hvk
  refine ⟨request, keys, ?_⟩
  simp only [mixRequest, hcheck, MixCallDescription.new, assert_decide hnumIn, assert_decide hnumOut,
    hdummies, ok_bind, pure_bind, hnum, hnum', hrequest, hreq, hreq', beq_self_eq_true,
    assert_true]
  rfl

/-! ### Amounts rounded one by one -/

/-- Amounts are what their quotients by a unit give and their remainders. -/
theorem sum_eq_sum_div_add_sum_mod (amounts : List ℕ) (unit : ℕ) :
    amounts.sum = (amounts.map (· / unit)).sum * unit + (amounts.map (· % unit)).sum := by
  induction amounts with
  | nil => rw [map_nil, map_nil, sum_nil, Nat.zero_mul, Nat.add_zero]
  | cons x xs ih =>
    have hx := Nat.div_add_mod' x unit
    rw [map_cons, map_cons, sum_cons, sum_cons, sum_cons, ih, add_mul]
    omega

/-- When sums of amounts are equal, the sums of their quotients are equal exactly when the sums of
their remainders are. The notes have no remainders. -/
theorem sum_div_eq_iff {unit vin vout notes : ℕ} (hunit : 0 < unit) {amounts : List ℕ}
    (h : vin + notes * unit = vout + amounts.sum) :
    vin / unit + notes = vout / unit + (amounts.map (· / unit)).sum ↔
      vin % unit = vout % unit + (amounts.map (· % unit)).sum := by
  have hsum : (vin / unit + notes) * unit + vin % unit =
      (vout / unit + (amounts.map (· / unit)).sum) * unit +
        (vout % unit + (amounts.map (· % unit)).sum) := by
    have hvin := Nat.div_add_mod' vin unit
    have hvout := Nat.div_add_mod' vout unit
    rw [sum_eq_sum_div_add_sum_mod amounts unit] at h
    rw [add_mul, add_mul]
    omega
  constructor
  · intro hdiv
    rw [hdiv] at hsum
    exact Nat.add_left_cancel hsum
  · intro hmod
    rw [hmod] at hsum
    exact Nat.eq_of_mul_eq_mul_right hunit (Nat.add_right_cancel hsum)

/-! ### The values of a request -/

/-- What passes the checks is balanced in wei. -/
theorem wei_of_checkValues (hW : W.Exact)
    (h : checkValues W vin vout inputs outputs = .ok ()) :
    ∃ values, inputs.mapM (fun input => intHex input.2.value) = .ok values ∧
      vin.wei + values.sum * zethPublicUnitValue =
        vout.wei + (outputs.map fun output => output.2.wei).sum := by
  rw [checkValues] at h
  split_ifs at h
  obtain ⟨values, hvalues, h⟩ := bind_eq_ok.mp h
  obtain ⟨inputNoteSum, hin, h⟩ := bind_eq_ok.mp h
  obtain ⟨outputNoteSum, hout, h⟩ := bind_eq_ok.mp h
  obtain ⟨total, htotal, h⟩ := bind_eq_ok.mp h
  obtain ⟨total', htotal', h⟩ := bind_eq_ok.mp h
  split_ifs at h with hne
  obtain rfl := not_not.mp hne
  refine ⟨values, hvalues, ?_⟩
  have hsum := EtherValue.wei_of_sum hW hout
  rw [map_map] at hsum
  rw [← wei_of_fromZethUnits hW hin, ← EtherValue.wei_of_add hW htotal,
    EtherValue.wei_of_add hW htotal', hsum]
  rfl

/-- Dummies have no value. -/
theorem mapM_intHex_dummyInputs {draws : MixDraws C} {aPk : Bytes} {count : ℕ}
    {dummies : List (ℕ × ZethNote)} (h : dummyInputs draws aPk count = .ok dummies) :
    dummies.mapM (fun input => intHex input.2.value) = .ok (List.replicate dummies.length 0) := by
  have hzero : intHex zeroUnitsHex = .ok 0 := by decide
  refine Except.mapM_eq_ok.mpr (List.forall₂_iff_get.mpr ⟨length_replicate.symm, ?_⟩)
  intro i hi hi'
  obtain ⟨hlength, hget⟩ := List.forall₂_iff_get.mp (Except.mapM_eq_ok.mp h)
  obtain ⟨apk, -, hdummy⟩ := bind_eq_ok.mp (hget i (hlength ▸ hi) hi)
  have hget' : (List.replicate dummies.length 0).get ⟨i, hi'⟩ = 0 := getElem_replicate _
  rw [← Except.ok.inj hdummy, hget']
  exact hzero

theorem sum_toZethUnits_padOutputs (draws : MixDraws C) (aPk : Bytes)
    (outputs : List (ZethAddressPub C × EtherValue)) :
    ((padOutputs draws aPk outputs).map fun output => toZethUnits output.2).sum =
      (outputs.map fun output => toZethUnits output.2).sum := by
  have hzero : toZethUnits ⟨0⟩ = 0 := Nat.zero_div _
  rw [padOutputs]
  split_ifs
  · rw [map_append, sum_append, map_replicate, hzero, sum_replicate, smul_zero,
      Nat.add_zero]
  · rfl

theorem intHex_value_of_createApiZethNote {phi hsig trapR recipient : Bytes} {outIndex value : ℕ}
    {note : ZethNote} (h : createApiZethNote phi hsig trapR outIndex recipient value = .ok note) :
    intHex note.value = .ok value := by
  obtain ⟨rho, -, h⟩ := bind_eq_ok.mp h
  obtain ⟨apk, -, h⟩ := bind_eq_ok.mp h
  obtain ⟨valueHex, hvalue, h⟩ := bind_eq_ok.mp h
  cases h
  exact intHex_int64ToHex hvalue

/-- The notes that are created have the values they are created for. -/
theorem mapM_intHex_createApiZethNotes {trapR : ℕ → Bytes} {phi hsig : Bytes}
    {outputs : List (Bytes × ℕ)} {notes : List ZethNote}
    (h : createApiZethNotes trapR phi hsig outputs = .ok notes) :
    notes.mapM (fun note => intHex note.value) = .ok (outputs.map Prod.snd) := by
  obtain ⟨hlength, hget⟩ := List.forall₂_iff_get.mp (Except.mapM_eq_ok.mp h)
  rw [length_zipIdx] at hlength
  refine Except.mapM_eq_ok.mpr (List.forall₂_iff_get.mpr
    ⟨by rw [length_map, hlength], fun i hi hi' => ?_⟩)
  have hnote := intHex_value_of_createApiZethNote (hget i (by simpa [hlength] using hi) hi)
  simpa using hnote

/-- The values of a request, in Zeth units. -/
theorem isBalanced_of_createProverInputs {sha256 : Bytes → Word} {draws : MixDraws C}
    {desc : MixCallDescription C} {request : ProofInputs}
    {keys : SigningSecretKey × SigningVerificationKey}
    (h : createProverInputs sha256 draws desc = .ok (request, keys)) {values : List ℕ}
    (hvalues : desc.inputs.mapM (fun input => intHex input.2.value) = .ok values) :
    request.isBalanced = .ok (toZethUnits desc.vIn + values.sum ==
      toZethUnits desc.vOut + (desc.outputs.map fun output => toZethUnits output.2).sum) := by
  obtain ⟨apiInputs, hinputs, h⟩ := bind_eq_ok.mp h
  obtain ⟨mkRoot, -, h⟩ := bind_eq_ok.mp h
  obtain ⟨nullifiers, -, h⟩ := bind_eq_ok.mp h
  obtain ⟨hSig, -, h⟩ := bind_eq_ok.mp h
  obtain ⟨apiOutputs, houtputs, h⟩ := bind_eq_ok.mp h
  obtain ⟨pubInValue, hin, h⟩ := bind_eq_ok.mp h
  obtain ⟨pubOutValue, hout, h⟩ := bind_eq_ok.mp h
  cases h
  -- the notes of the inputs are passed on as they are
  have hnotes : apiInputs.mapM (fun input => intHex input.note.value) = .ok values := by
    obtain ⟨hlength, hget⟩ := List.forall₂_iff_get.mp (Except.mapM_eq_ok.mp hinputs)
    obtain ⟨hlength', hget'⟩ := List.forall₂_iff_get.mp (Except.mapM_eq_ok.mp hvalues)
    refine Except.mapM_eq_ok.mpr (List.forall₂_iff_get.mpr
      ⟨hlength.symm.trans hlength', fun i hi hi' => ?_⟩)
    rw [(note_of_createApiInput (hget i (hlength ▸ hi) hi)).1]
    exact hget' i (hlength ▸ hi) hi'
  simp only [ProofInputs.isBalanced, intHex_int64ToHex hin, intHex_int64ToHex hout, hnotes,
    mapM_intHex_createApiZethNotes houtputs, ok_bind, map_map]
  rfl

/-- The values of a request for amounts that pass the check. -/
theorem isBalanced_of_mixRequest (hW : W.Exact) {sha256 : Bytes → Word} {draws : MixDraws C}
    {mkTree : MerkleTree} {keypair : OwnershipKeyPair}
    {request : ProofInputs} {keys : SigningSecretKey × SigningVerificationKey}
    (h : mixRequest W sha256 draws mkTree keypair vin vout inputs outputs = .ok (request, keys)) :
    ∃ values, inputs.mapM (fun input => intHex input.2.value) = .ok values ∧
      vin.wei + values.sum * zethPublicUnitValue =
        vout.wei + (outputs.map fun output => output.2.wei).sum ∧
      request.isBalanced = .ok (toZethUnits vin + values.sum ==
        toZethUnits vout + (outputs.map fun output => toZethUnits output.2).sum) := by
  obtain ⟨_, hcheck, h⟩ := bind_eq_ok.mp h
  obtain ⟨desc, hdesc, h⟩ := bind_eq_ok.mp h
  obtain ⟨_, -, h⟩ := bind_eq_ok.mp h
  obtain ⟨_, -, h⟩ := bind_eq_ok.mp h
  obtain ⟨⟨request', keys'⟩, hrequest, h⟩ := bind_eq_ok.mp h
  obtain ⟨_, -, h⟩ := bind_eq_ok.mp h
  obtain ⟨_, -, h⟩ := bind_eq_ok.mp h
  obtain ⟨rfl, rfl⟩ := Prod.mk.inj (Except.ok.inj h)
  obtain ⟨values, hvalues, hwei⟩ := wei_of_checkValues hW hcheck
  obtain ⟨_, -, hdesc⟩ := bind_eq_ok.mp hdesc
  obtain ⟨_, -, hdesc⟩ := bind_eq_ok.mp hdesc
  obtain ⟨dummies, hdummies, hdesc⟩ := bind_eq_ok.mp hdesc
  cases hdesc
  have hall : (inputs ++ dummies).mapM (fun input => intHex input.2.value) =
      .ok (values ++ List.replicate dummies.length 0) := by
    rw [mapM_append, hvalues, mapM_intHex_dummyInputs hdummies]
    rfl
  refine ⟨values, hvalues, hwei, ?_⟩
  rw [isBalanced_of_createProverInputs hrequest hall, sum_toZethUnits_padOutputs, sum_append,
    sum_replicate, smul_zero, Nat.add_zero]

/-- **Balance of a request.** A request for amounts that pass the check is balanced in Zeth units if
and only if the remainders of the public output value and of the outputs add up to that of the public
input value. -/
theorem mixRequest_balanced_iff (hW : W.Exact) {sha256 : Bytes → Word} {draws : MixDraws C}
    {mkTree : MerkleTree} {keypair : OwnershipKeyPair} {vin vout : EtherValue}
    {inputs : List (ℕ × ZethNote)} {outputs : List (ZethAddressPub C × EtherValue)}
    {request : ProofInputs} {keys : SigningSecretKey × SigningVerificationKey}
    (h : mixRequest W sha256 draws mkTree keypair vin vout inputs outputs = .ok (request, keys)) :
    request.isBalanced = .ok true ↔
      vin.wei % zethPublicUnitValue = vout.wei % zethPublicUnitValue +
        (outputs.map fun output => output.2.wei % zethPublicUnitValue).sum := by
  obtain ⟨values, -, hwei, hbalanced⟩ := isBalanced_of_mixRequest hW h
  have hiff := sum_div_eq_iff (by decide) hwei
  rw [map_map, map_map] at hiff
  rw [hbalanced, Except.ok.injEq, beq_iff_eq]
  exact hiff

/-! ### Two deposits -/

section Plain

/-- Nothing but zeros is drawn, and the signing keys are the generator. -/
def plainDraws : MixDraws Wallet.plainCryptography where
  dummyRho _ := zeroEntry
  dummyTrapR _ := zeroEntry
  dummyKPk := ()
  signing := (1, 1)
  phi := zeroEntry
  trapR _ := zeroEntry
  length_dummyRho _ := rfl
  length_dummyTrapR _ := rfl
  length_phi := rfl
  length_trapR _ := rfl

/-- A deposit into the notes of one owner, with an empty tree. -/
def plainDeposit (vin : ℕ) (outputs : List ℕ) :
    Except Exc (ProofInputs × SigningSecretKey × SigningVerificationKey) :=
  mixRequest Wallet.plainWeb3 (fun _ => 0) plainDraws (.perfect (fun _ _ => zeroEntry) 32 [])
    ⟨zeroEntry, zeroEntry⟩ ⟨vin⟩ ⟨0⟩ [] (outputs.map fun value => (⟨zeroEntry, ()⟩, ⟨value⟩))

theorem exact_plainWeb3 : Wallet.plainWeb3.Exact := fun h => (Except.ok.inj h).symm

theorem exists_plainDeposit (vin : ℕ) (outputs : List ℕ) (hin : vin < 2 ^ 64)
    (hout : ∀ value ∈ outputs, value < 2 ^ 64)
    (hcheck : checkValues (C := Wallet.plainCryptography) Wallet.plainWeb3 ⟨vin⟩ ⟨0⟩ []
      (outputs.map fun value => (⟨zeroEntry, ()⟩, ⟨value⟩)) = .ok ()) :
    ∃ request keys, plainDeposit vin outputs = .ok (request, keys) := by
  have hgen : (genSigningKeypair 1 1).2 = ⟨AltBN128.genG1, AltBN128.genG1⟩ := by
    rw [← one_nsmul AltBN128.genG1, ← Signing.ppk_genSigningKeypair (by decide +kernel) 1]
    rfl
  obtain ⟨vkBytes, hvk⟩ : ∃ vkBytes, (genSigningKeypair 1 1).2.toBytes = some vkBytes := by
    rw [hgen]
    exact ⟨_, rfl⟩
  refine exists_mixRequest (fun _ => 0) plainDraws rfl rfl hcheck (forall_mem_nil _)
    (forall_mem_map.mpr fun value hmem => ⟨rfl, ?_⟩) ?_ (by decide) hvk
  · exact (Nat.div_le_self _ _).trans_lt (hout value hmem)
  · exact (Nat.div_le_self _ _).trans_lt hin

/-- One Zeth unit into one note. -/
theorem mixRequest_balanced_one_unit :
    ∃ request keys, plainDeposit 1000000000000 [1000000000000] = .ok (request, keys) ∧
      request.isBalanced = .ok true := by
  obtain ⟨request, keys, h⟩ := exists_plainDeposit 1000000000000 [1000000000000] (by norm_num) (by simp) rfl
  exact ⟨request, keys, h, (mixRequest_balanced_iff exact_plainWeb3 h).mpr rfl⟩

/-- One Zeth unit in two halves: the check passes, and the request has an input of one unit and
outputs of none. -/
theorem mixRequest_halves_not_balanced :
    ∃ request keys, plainDeposit 1000000000000 [500000000000, 500000000000] = .ok (request, keys) ∧
      request.isBalanced = .ok false := by
  obtain ⟨request, keys, h⟩ := exists_plainDeposit 1000000000000
    [500000000000, 500000000000] (by norm_num) (by simp) rfl
  obtain ⟨values, hvalues, -, hbalanced⟩ := isBalanced_of_mixRequest exact_plainWeb3 h
  cases hvalues
  exact ⟨request, keys, h, hbalanced⟩

end Plain

end Zeth.Client
