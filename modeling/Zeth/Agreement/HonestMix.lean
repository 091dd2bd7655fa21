import Zeth.Agreement.SignedData
import Zeth.Circuit.PublicData
import Zeth.Client.MixRequest

/-!
# Honest calls are accepted

A client draws a one-time key, hashes its nullifiers and the key to `h_sig`, is given a proof with
the public data of the circuit, signs and calls `mix`. The contract assembles the same nullifiers
and the same `h_sig` and hashes the same strings, so the call is accepted.

## Main results

* `Agreement.honest_mix_accepted`.
-/

namespace Zeth.Agreement

open AltBN128 ByteString Circuit Circuit.JoinsplitGadget Client Client.Groth16 Python R1CS

/-- The words of a key are its bytes. -/
theorem toBytes_eq {vk : SigningVerificationKey} {parameter : Fin 4 → ℕ}
    (h : verificationKeyAsMixParameter vk = some parameter) :
    vk.toBytes = some (((List.finRange 4).map (keyWords parameter)).flatMap wordBytes) := by
  obtain ⟨ppk, hppk, h⟩ := Option.bind_eq_some_iff.mp h
  obtain ⟨spk, hspk, h⟩ := Option.bind_eq_some_iff.mp h
  cases h
  simp [SigningVerificationKey.toBytes, g1ToBytes, hppk, hspk, keyWords, wordBytes,
    List.finRange_succ, -BitVec.toNat_ofNat, toNat_ofNat_n]

/-- An ether mixer takes the value attached and pays what it can. -/
theorem processPublicValues_ether {m : Mixer} (htoken : m.token = 0) {sender : Address}
    {inputs : Inputs} {vpubIn vpubOut : ℕ}
    (hvalues : Mixer.assemblePublicValues (inputs 8) = (vpubIn, vpubOut))
    {first second : Mixer.External} {st : Mixer.State} (hbalance : vpubOut ≤ st.balance)
    (hsecond : ∀ st, (second st).isSome) :
    ∃ st', m.processPublicValues ⟨sender, vpubIn⟩ inputs first second st =
      .ok (st', ⟨vpubIn, vpubOut⟩) := by
  have hin : m.processVpubIn ⟨sender, vpubIn⟩ vpubIn first st = .ok (st, vpubIn) := by
    rcases Nat.eq_zero_or_pos vpubIn with rfl | hpos
    · rfl
    · simp [Mixer.processVpubIn, hpos, htoken, pure, Except.pure]
  have hout : ∃ st', m.processVpubOut vpubOut second st = .ok (st', vpubOut) := by
    rcases Nat.eq_zero_or_pos vpubOut with rfl | hpos
    · exact ⟨st, rfl⟩
    · obtain ⟨⟨st', moved⟩, hst'⟩ := Option.isSome_iff_exists.mp
        (hsecond { st with balance := st.balance - vpubOut })
      refine ⟨st', ?_⟩
      simp [Mixer.processVpubOut, Mixer.sendEther, hpos, htoken, not_lt.mpr hbalance, hst', pure,
        Except.pure]
  obtain ⟨st', hout⟩ := hout
  refine ⟨st', ?_⟩
  rw [Mixer.processPublicValues, hvalues]
  simp only [hin, hout, Except.ok_bind]
  rfl

/-- **Honest calls are accepted.** Let the public data be what the circuit packs of the nullifiers,
of `h_sig` and of the public values, and `h_sig` the hash of the nullifiers and of a one-time key.
Then the client signs, and in every state that knows the root, has not seen the nullifiers and has
room for two leaves, a mixer for ether that accepts the proof accepts the call: it takes `vpub_in`
and pays `vpub_out`. -/
theorem honest_mix_accepted {m : Mixer} {curve : Curve}
    (hextract : m.extractBytes32 = curve.extractBytes32)
    (hverify : m.verifySignature = OTSchnorr.verify m.sha256) (htoken : m.token = 0)
    {depth : ℕ} {L : Gadgetlib curve.Fr} (hL : L.PacksChunks) {H : HashGadget curve.Fr}
    (hH : H.digestLen = 256) {T : TreeHashGadget curve.Fr} {σ : Assignment curve.Fr}
    {t : JoinsplitData} (hpacked : IsPacked L (new depth 2 2 H T curve.fieldCapacity 2).1 σ t)
    {x y : ℕ} (hx : 1 ≤ x) (hxr : x < r) (hy : 1 ≤ y) (hyr : y < r)
    (hhsig : computeHSig m.sha256 (List.ofFn fun i => wordBytes (t.nullifiers i))
      (genSigningKeypair x y).2 = .ok (wordBytes t.hSig))
    {abi : MixAbi} {sender : Address} {ethAddr : String} {ciphertexts : List Bytes}
    {proof : Client.Groth16.Proof} {publicNumbers : List ℕ}
    (hrequest : IsRequest sender ethAddr ciphertexts proof publicNumbers)
    (hpublic : Mixer.copyInputs (toWords publicNumbers) = publicData σ)
    {words : List ℕ} (hwords : proofToContractParameters proof = .ok words)
    (hproof : m.verifyZkProof (toWords words) (m.hashPublicProofData (publicData σ)) = true)
    {st : Mixer.State} (hroot : st.roots (publicData σ 0) = true)
    (hne : t.nullifiers 0 ≠ t.nullifiers 1) (hfresh : ∀ i, st.nullifiers (t.nullifiers i) = false)
    (hroom : st.tree.numLeaves + 2 ≤ 2 ^ AbstractMerkleTree.depth)
    (hbalance : 10 ^ 12 * t.vpubOut.toNat ≤ st.balance + 10 ^ 12 * t.vpubIn.toNat)
    (first : Mixer.External) {second : Mixer.External} (hsecond : ∀ st, (second st).isSome) :
    ∃ sigma args st',
      joinsplitSign abi m.sha256 (genSigningKeypair x y).1 ethAddr ciphertexts proof publicNumbers
        false = .ok sigma ∧
      mixParametersToContractArguments
        ⟨proof, publicNumbers, (genSigningKeypair x y).2, sigma, ciphertexts⟩ = .ok args ∧
      m.mix ⟨sender, 10 ^ 12 * t.vpubIn.toNat⟩ (mixArgs args) first second st =
        .ok (st', ⟨10 ^ 12 * t.vpubIn.toNat, 10 ^ 12 * t.vpubOut.toNat⟩) := by
  have hg : (new depth 2 2 H T curve.fieldCapacity 2).1.HasWires := hasWires_new hH
  obtain ⟨parameter, hparameter, hsigned⟩ := exists_joinsplitSign m.sha256 hx hxr hy hyr
  have hargs (sigma : ℕ) : mixParametersToContractArguments
      ⟨proof, publicNumbers, (genSigningKeypair x y).2, sigma, ciphertexts⟩ =
        .ok ⟨words, parameter, sigma, publicNumbers, ciphertexts⟩ := by
    rw [mixParametersToContractArguments, hwords, Except.ok_bind, hparameter]
    rfl
  obtain ⟨sigma, -, hsign, hsig⟩ := hsigned (message_eq_mixCall hrequest (hargs 0))
  have hinputs : (mixArgs ⟨words, parameter, sigma, publicNumbers, ciphertexts⟩).publicInputs =
    publicData σ := hpublic
  -- what the contract assembles is what was packed
  have hnfs : m.assembleNullifiers (publicData σ) = [t.nullifiers 0, t.nullifiers 1] := by
    simp only [Mixer.assembleNullifiers, Mixer.assembleNullifier, hextract]
    exact congrArg₂ (fun a b => [a, b]) (hpacked.extractBytes32_eq hL hg 2)
      (hpacked.extractBytes32_eq hL hg 3)
  have hassemble : m.assembleHsig (publicData σ) = t.hSig := by
    rw [Mixer.assembleHsig, hextract]
    exact hpacked.extractBytes32_eq hL hg 4
  have hhash : m.sha256 ((m.assembleNullifiers (publicData σ) ++
      (List.finRange 4).map (keyWords parameter)).flatMap wordBytes) = t.hSig := by
    rw [computeHSig, toBytes_eq hparameter] at hhsig
    have hword := congrArg messageWord (Except.ok.inj hhsig)
    rw [messageWord_toBig, wordBytes, messageWord_toBig] at hword
    rw [hnfs, List.flatMap_append]
    exact hword
  have hnodup : (m.assembleNullifiers (publicData σ)).Nodup := by
    rw [hnfs]
    exact List.nodup_cons.mpr ⟨mt List.mem_singleton.mp hne, List.nodup_singleton _⟩
  have hunused : ∀ w ∈ m.assembleNullifiers (publicData σ), st.nullifiers w = false := by
    rw [hnfs]
    exact List.forall_mem_cons.mpr ⟨hfresh 0, List.forall_mem_singleton.mpr (hfresh 1)⟩
  obtain ⟨st₁, haccepts, hmix⟩ := @Mixer.mix_of_checks m ⟨sender, 10 ^ 12 * t.vpubIn.toNat⟩
    (mixArgs ⟨words, parameter, sigma, publicNumbers, ciphertexts⟩) first second st
    (hinputs ▸ hroot) (hinputs ▸ hnodup) (hinputs ▸ hunused)
    (hinputs ▸ hhash.trans hassemble.symm) (hverify ▸ hsig) (hinputs ▸ hproof) hroom
  rw [hinputs] at hmix haccepts
  obtain ⟨st', hmove⟩ := @processPublicValues_ether m htoken sender (publicData σ) _ _
    (hpacked.assemblePublicValues_eq hL hg) first second st₁
    (haccepts.balances.1 ▸ hbalance) hsecond
  exact ⟨sigma, _, st', hsign, hargs sigma, hmix.trans hmove⟩

/-- Five units are taken and two are paid. -/
def sampleData : JoinsplitData := ⟨0, ![1, 2], fun _ => 0, 5, 2⟩

/-- A mixer that checks signatures and accepts all proofs. -/
def sampleMixer : Mixer :=
  { Mixer.permissive fun _ _ => 0 with verifySignature := OTSchnorr.verify fun _ => 0 }

theorem honest_mix_accepted_sample :
    ∃ args st', sampleMixer.mix ⟨-1, 10 ^ 12 * 5⟩ (mixArgs args) (fun _ => none)
      (fun st => some (st, 0)) { sampleMixer.deploy with roots := fun _ => true } =
        .ok (st', ⟨10 ^ 12 * 5, 10 ^ 12 * 2⟩) := by
  have hone : 1 < r := by decide +kernel
  have hhsig : computeHSig (fun _ => 0) (List.ofFn fun i => wordBytes (sampleData.nullifiers i))
      (genSigningKeypair 1 1).2 = .ok (wordBytes 0) := by
    rw [computeHSig, toBytes_eq parameter_genSigningKeypair_one]
    rfl
  let σ := packAssignment .altBN128 sampleData
  let publicNumbers := List.ofFn fun i => (publicData σ i).toNat
  have hpublic : Mixer.copyInputs (toWords publicNumbers) = publicData σ := by
    funext i
    simp only [Mixer.copyInputs, toWords, publicNumbers, List.map_ofFn, Function.comp_def,
      BitVec.ofNat_toNat, BitVec.setWidth_eq]
    fin_cases i <;> rfl
  have hrequest : IsRequest (-1) (String.ofList ('0' :: 'x' :: List.replicate 40 'F'))
      [[1], [2, 3]] longProof publicNumbers :=
    ⟨denotesAddress_ones, rfl, isHex_longProof, List.length_ofFn,
      List.forall_mem_ofFn_iff.mpr fun i => (publicData σ i).isLt⟩
  obtain ⟨words, hwords, -⟩ := exists_proofToContractParameters isHex_longProof
  obtain ⟨-, args, st', -, -, hmix⟩ := @honest_mix_accepted sampleMixer .altBN128 rfl rfl rfl 1
    Gadgetlib.standard Gadgetlib.standard_packsChunks (HashGadget.copyLast 256) rfl
    TreeHashGadget.sum σ sampleData (isPacked_packAssignment Gadgetlib.standard_packsChunks
      (hasWires_new rfl) sampleData) 1 1 le_rfl hone le_rfl hone hhsig layoutAbi (-1) _ _ _ _
    hrequest hpublic words hwords rfl { sampleMixer.deploy with roots := fun _ => true } rfl
    (by decide) (fun _ => rfl) (by decide) (by decide) (fun _ => none) (fun st => some (st, 0))
    fun _ => rfl
  exact ⟨args, st', hmix⟩

end Zeth.Agreement
