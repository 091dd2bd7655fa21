import Mathlib.Logic.Equiv.List
import Zeth.Agreement.Signing
import Zeth.Client.MixParameters

/-!
# One string is signed by the client and checked by the contract

The client writes each number in hexadecimal and fills it up to 32 bytes, and the contract packs the
words of a call. Both hash the sender, the ciphertexts, the words of the proof and the public
inputs, and for `dispatch` all but the proof.

The arguments of `mix` are encoded by `web3` as the words of their numbers, and `abi.decode` returns
what `encode_abi` was given. SHA-256 is the same function on both sides.

## Main definitions

* `Agreement.mixArgs`: the words of the arguments of `mix`.
* `Agreement.DecodesParameters`, and `Agreement.layoutAbi`: the layout of the parameters.

## Main results

* `Agreement.joinsplitSign_signs_call`.
-/

namespace Zeth.Agreement

open AltBN128 ByteString Client Client.Groth16 Python List

/-! ### Words and their bytes -/

/-- The words of the arguments of `mix`. -/
def mixArgs (args : ContractArguments) : MixArgs where
  proof := toWords args.proof
  vk := keyWords args.vk
  sigma := BitVec.ofNat 256 args.sigma
  publicInputs := Mixer.copyInputs (toWords args.publicData)
  ciphertexts := Mixer.copyCiphertexts args.ciphertexts

/-- `encode_abi` encodes words, and `abi.decode` returns what it was given. -/
structure DecodesParameters (m : Mixer) (abi : MixAbi) : Prop where
  exists_encode : ∀ {vk sigma publicData} (ciphertexts : List Bytes), (∀ i, vk i < 2 ^ 256) →
    sigma < 2 ^ 256 → AreWords publicData → ∃ nestedParameters,
      abi.encodeParameters vk sigma publicData ciphertexts = .ok nestedParameters
  decode_encode : ∀ {vk sigma publicData ciphertexts nestedParameters},
    abi.encodeParameters vk sigma publicData ciphertexts = .ok nestedParameters →
      m.abiDecode nestedParameters =
        some ⟨keyWords vk, BitVec.ofNat 256 sigma, toWords publicData, ciphertexts⟩

theorem map_toNat_toWords {words : List ℕ} (h : AreWords words) :
    (toWords words).map BitVec.toNat = words := by
  rw [toWords, map_map]
  exact (map_congr_left fun word hword => Nat.mod_eq_of_lt (h word hword)).trans
    (map_id' words)

theorem flatMap_wordBytes_toWords {words : List ℕ} (h : AreWords words) :
    (toWords words).flatMap wordBytes = words.flatMap (toBig 32) := by
  conv_rhs => rw [← map_toNat_toWords h, flatMap_map]
  rfl

theorem map_copyInputs {publicData : List Word} (h : publicData.length = 9) :
    (List.finRange 9).map (Mixer.copyInputs publicData) = publicData := by
  refine ext_getElem (by rw [length_map, length_finRange, h]) fun i hi hi' => ?_
  rw [getElem_map, getElem_finRange, Mixer.copyInputs]
  exact getD_eq_getElem _ _ hi'

theorem copyCiphertexts_append {ciphertexts : List Bytes} (h : ciphertexts.length = 2) :
    Mixer.copyCiphertexts ciphertexts 0 ++ Mixer.copyCiphertexts ciphertexts 1 =
      ciphertexts.flatten := by
  match ciphertexts, h with
  | [c, c'], _ => simp [Mixer.copyCiphertexts]

/-- What the contract hashes, of the numbers of the client. -/
theorem dataToBeSigned_eq (sender : Address) {ciphertexts : List Bytes}
    (hciphertexts : ciphertexts.length = 2) {words publicData : List ℕ} (hwords : AreWords words)
    (hpublicData : AreWords publicData) (hlength : publicData.length = 9) :
    Mixer.dataToBeSigned sender (Mixer.copyCiphertexts ciphertexts) (toWords words)
        (Mixer.copyInputs (toWords publicData)) =
      toBig 32 sender.toNat ++ ciphertexts.flatten ++ words.flatMap (toBig 32) ++
        publicData.flatMap (toBig 32) := by
  have hlength' : (toWords publicData).length = 9 := by rw [toWords, length_map, hlength]
  rw [Mixer.dataToBeSigned, map_copyInputs hlength', flatMap_wordBytes_toWords hwords,
    flatMap_wordBytes_toWords hpublicData, append_assoc (toBig 32 sender.toNat),
    copyCiphertexts_append hciphertexts]

theorem messageWord_toBig (w : Word) : messageWord (toBig 32 w.toNat) = w := by
  rw [messageWord, fromBig_toBig, Nat.mod_eq_of_lt (w.isLt.trans_eq (by norm_num)),
    BitVec.ofNat_toNat, BitVec.setWidth_eq]

theorem parameter_lt {vk : SigningVerificationKey} {parameter : Fin 4 → ℕ}
    (h : verificationKeyAsMixParameter vk = some parameter) (i : Fin 4) :
    parameter i < 2 ^ 256 := by
  obtain ⟨ppk, -, h⟩ := Option.bind_eq_some_iff.mp h
  obtain ⟨spk, -, h⟩ := Option.bind_eq_some_iff.mp h
  cases h
  have hlt (x : FQ) : FQ.n x < 2 ^ 256 := (ZMod.val_lt x).trans_le q_le
  fin_cases i
  · exact hlt ppk.1
  · exact hlt ppk.2
  · exact hlt spk.1
  · exact hlt spk.2

/-! ### The two calls -/

/-- What is signed of a call of `mix`. -/
def mixCall (sender : Address) (args : MixArgs) : Mixer.SignedCall :=
  .mix sender args.ciphertexts args.proof args.publicInputs

/-- What is signed of a call of `dispatch`. -/
def dispatchCall (sender : Address) (params : NestedParameters) : Mixer.SignedCall :=
  .dispatch sender (Mixer.copyCiphertexts params.ciphertexts) (Mixer.copyInputs params.publicData)

/-- What the client is given: a sender, two ciphertexts, a proof of hexadecimal strings, and nine
public inputs. -/
structure IsRequest (sender : Address) (ethAddr : String) (ciphertexts : List Bytes)
    (proof : Client.Groth16.Proof) (publicData : List ℕ) : Prop where
  denotesAddress : DenotesAddress ethAddr sender
  length_ciphertexts : ciphertexts.length = 2
  isHex_proof : proof.IsHex
  length_publicData : publicData.length = 9
  areWords_publicData : ∀ n ∈ publicData, n < 2 ^ 256

section Calls

variable {m : Mixer} {abi : MixAbi} {sender : Address} {ethAddr : String} {ciphertexts : List Bytes}
  {proof : Client.Groth16.Proof} {publicData : List ℕ}

theorem message_eq_mixCall (h : IsRequest sender ethAddr ciphertexts proof publicData)
    {vk : SigningVerificationKey} {signature : ℕ} {args : ContractArguments}
    (hargs : mixParametersToContractArguments ⟨proof, publicData, vk, signature, ciphertexts⟩ =
      .ok args) :
    joinsplitSignMessage abi ethAddr ciphertexts proof publicData false =
      .ok (mixCall sender (mixArgs args)).preimage := by
  obtain ⟨words, hwords, hlt⟩ := exists_proofToContractParameters h.isHex_proof
  obtain ⟨proofParams, hproofParams, hargs⟩ := Except.bind_eq_ok.mp hargs
  cases hwords.symm.trans hproofParams
  obtain ⟨vkParam, -, hargs⟩ := Except.bind_eq_ok.mp hargs
  cases hargs
  rw [joinsplitSignMessage_eq h.denotesAddress h.length_ciphertexts hwords hlt
    h.areWords_publicData, if_neg Bool.false_ne_true, ← dataToBeSigned_eq sender
    h.length_ciphertexts hlt h.areWords_publicData h.length_publicData]
  rfl

theorem message_eq_dispatchCall (hdecode : DecodesParameters m abi)
    (h : IsRequest sender ethAddr ciphertexts proof publicData) {vk : SigningVerificationKey}
    {signature : ℕ} {nestedParameters : Bytes} {params : NestedParameters}
    (hnested : mixParametersToDispatchParameters abi
      ⟨proof, publicData, vk, signature, ciphertexts⟩ = .ok nestedParameters)
    (hparams : m.abiDecode nestedParameters = some params) :
    joinsplitSignMessage abi ethAddr ciphertexts proof publicData true =
      .ok (dispatchCall sender params).preimage := by
  obtain ⟨words, hwords, hlt⟩ := exists_proofToContractParameters h.isHex_proof
  obtain ⟨vkParam, -, hnested⟩ := Except.bind_eq_ok.mp hnested
  cases (hdecode.decode_encode hnested).symm.trans hparams
  have hnil : AreWords [] := forall_mem_nil _
  have hdata := dataToBeSigned_eq sender h.length_ciphertexts hnil h.areWords_publicData
    h.length_publicData
  rw [joinsplitSignMessage_eq h.denotesAddress h.length_ciphertexts hwords hlt
    h.areWords_publicData, if_pos rfl]
  exact congrArg Except.ok hdata.symm

/-- A signature on the digest of the string of a request, which the contract accepts. -/
theorem exists_joinsplitSign (sha256 : Bytes → Word) {x y : ℕ} (hx : 1 ≤ x) (hxr : x < r)
    (hy : 1 ≤ y) (hyr : y < r) :
    ∃ parameter, verificationKeyAsMixParameter (genSigningKeypair x y).2 = some parameter ∧
      ∀ {forDispatchCall : Bool} {message : Bytes},
        joinsplitSignMessage abi ethAddr ciphertexts proof publicData forDispatchCall =
          .ok message →
        ∃ sigma < 2 ^ 256,
          joinsplitSign abi sha256 (genSigningKeypair x y).1 ethAddr ciphertexts proof publicData
            forDispatchCall = .ok sigma ∧
          OTSchnorr.verify sha256 (keyWords parameter) (BitVec.ofNat 256 sigma)
            (sha256 message) = true := by
  obtain ⟨parameter, hparameter, haccept⟩ := exists_sign_accepted sha256 hx hxr hy hyr
  refine ⟨parameter, hparameter, fun {_ message} hmessage => ?_⟩
  obtain ⟨sigma, hlt, hsign, -, hverify⟩ :=
    haccept (toBig 32 (sha256 message).toNat) (length_toBig _ _)
  rw [messageWord_toBig] at hverify
  refine ⟨sigma, hlt, ?_, hverify⟩
  rw [joinsplitSign, hmessage, Except.ok_bind, hsign]
  rfl

end Calls

/-- **Client and contract sign the same bytes.** The string that `joinsplit_sign` hashes is the one
that `mix` hashes for the words the client passes, and without the proof the one that `dispatch`
hashes. So for the keys of the client, its signature is accepted on the digest of both calls. -/
theorem joinsplitSign_signs_call {m : Mixer} {abi : MixAbi} (hdecode : DecodesParameters m abi)
    {sender : Address} {ethAddr : String} {ciphertexts : List Bytes} {proof : Client.Groth16.Proof}
    {publicData : List ℕ} (h : IsRequest sender ethAddr ciphertexts proof publicData) :
    (∀ vk signature,
      (∀ args,
        mixParametersToContractArguments ⟨proof, publicData, vk, signature, ciphertexts⟩ =
            .ok args →
          joinsplitSignMessage abi ethAddr ciphertexts proof publicData false =
            .ok (mixCall sender (mixArgs args)).preimage) ∧
      ∀ nestedParameters params,
        mixParametersToDispatchParameters abi ⟨proof, publicData, vk, signature, ciphertexts⟩ =
            .ok nestedParameters → m.abiDecode nestedParameters = some params →
          joinsplitSignMessage abi ethAddr ciphertexts proof publicData true =
            .ok (dispatchCall sender params).preimage) ∧
    ∀ x y, 1 ≤ x → x < r → 1 ≤ y → y < r →
      (∃ sigma args,
        joinsplitSign abi m.sha256 (genSigningKeypair x y).1 ethAddr ciphertexts proof publicData
          false = .ok sigma ∧
        mixParametersToContractArguments
          ⟨proof, publicData, (genSigningKeypair x y).2, sigma, ciphertexts⟩ = .ok args ∧
        OTSchnorr.verify m.sha256 (mixArgs args).vk (mixArgs args).sigma
          (m.sha256 (mixCall sender (mixArgs args)).preimage) = true) ∧
      ∃ sigma nestedParameters params,
        joinsplitSign abi m.sha256 (genSigningKeypair x y).1 ethAddr ciphertexts proof publicData
          true = .ok sigma ∧
        mixParametersToDispatchParameters abi
          ⟨proof, publicData, (genSigningKeypair x y).2, sigma, ciphertexts⟩ =
            .ok nestedParameters ∧
        m.abiDecode nestedParameters = some params ∧
        OTSchnorr.verify m.sha256 params.vk params.sigma
          (m.sha256 (dispatchCall sender params).preimage) = true := by
  refine ⟨fun vk signature => ⟨fun args hargs => message_eq_mixCall h hargs,
    fun nestedParameters params hnested hparams =>
      message_eq_dispatchCall hdecode h hnested hparams⟩, fun x y hx hxr hy hyr => ⟨?_, ?_⟩⟩
  · obtain ⟨words, hwords, -⟩ := exists_proofToContractParameters h.isHex_proof
    obtain ⟨parameter, hparameter, hsigned⟩ := exists_joinsplitSign m.sha256 hx hxr hy hyr
    have hargs (sigma : ℕ) : mixParametersToContractArguments
        ⟨proof, publicData, (genSigningKeypair x y).2, sigma, ciphertexts⟩ =
          .ok ⟨words, parameter, sigma, publicData, ciphertexts⟩ := by
      rw [mixParametersToContractArguments, hwords, Except.ok_bind, hparameter]
      rfl
    -- the signature is not part of what is signed
    obtain ⟨sigma, -, hsign, hverify⟩ := hsigned (message_eq_mixCall h (hargs 0))
    exact ⟨sigma, _, hsign, hargs sigma, hverify⟩
  · obtain ⟨parameter, hparameter, hsigned⟩ := exists_joinsplitSign m.sha256 hx hxr hy hyr
    have hnested {sigma : ℕ} (hsigma : sigma < 2 ^ 256) :
        ∃ nestedParameters, mixParametersToDispatchParameters abi
          ⟨proof, publicData, (genSigningKeypair x y).2, sigma, ciphertexts⟩ =
            .ok nestedParameters ∧ m.abiDecode nestedParameters = some
              ⟨keyWords parameter, BitVec.ofNat 256 sigma, toWords publicData, ciphertexts⟩ := by
      obtain ⟨nestedParameters, hencode⟩ := hdecode.exists_encode ciphertexts
        (parameter_lt hparameter) hsigma h.areWords_publicData
      refine ⟨nestedParameters, ?_, hdecode.decode_encode hencode⟩
      rw [mixParametersToDispatchParameters, hparameter]
      exact hencode
    have hsmall : 0 < 2 ^ 256 := by norm_num
    obtain ⟨_, hzero, hparams⟩ := hnested hsmall
    obtain ⟨sigma, hlt, hsign, hverify⟩ :=
      hsigned (message_eq_dispatchCall hdecode h hzero hparams)
    obtain ⟨nestedParameters, hnested, hparams⟩ := hnested hlt
    exact ⟨sigma, nestedParameters, _, hsign, hnested, hparams, hverify⟩

/-! ### The layout of the parameters -/

/-- A string of bytes: its length, and the bytes filled up to words. -/
def abiBytes (bs : Bytes) : Bytes :=
  toBig 32 bs.length ++ (bs ++ List.replicate ((32 - bs.length % 32) % 32) 0)

/-- The offsets of parts that follow each other. -/
def abiOffsets : ℕ → List Bytes → List ℕ
  | _, [] => []
  | start, part :: parts => start :: abiOffsets (start + part.length) parts

/-- The words of the head, with the offsets of the two lists. -/
def abiHead (vk : Fin 4 → ℕ) (sigma : ℕ) (publicData : List ℕ) : List ℕ :=
  [vk 0, vk 1, vk 2, vk 3, sigma, 224, 256 + 32 * publicData.length]

/-- The words before the ciphertexts: how many there are, and their offsets. -/
def abiIndex (ciphertexts : List Bytes) : List ℕ :=
  ciphertexts.length :: abiOffsets (32 * ciphertexts.length) (ciphertexts.map abiBytes)

/-- The word at the start. -/
def readWord (bs : Bytes) : ℕ := fromBig (bs.take 32)

/-- Words at the start. -/
def readWords : ℕ → Bytes → List ℕ
  | 0, _ => []
  | n + 1, bs => readWord bs :: readWords n (bs.drop 32)

/-- The string at the start. -/
def readBytes (bs : Bytes) : Bytes := (bs.drop 32).take (readWord bs)

theorem readWord_append {n : ℕ} (hn : n < 2 ^ 256) (rest : Bytes) :
    readWord (toBig 32 n ++ rest) = n := by
  rw [readWord, take_left' (length_toBig _ _), fromBig_toBig]
  exact Nat.mod_eq_of_lt (hn.trans_eq (by norm_num))

theorem readWords_append {words : List ℕ} (hwords : AreWords words) (rest : Bytes) :
    readWords words.length (words.flatMap (toBig 32) ++ rest) = words := by
  induction words with
  | nil => rfl
  | cons word words ih =>
    obtain ⟨hword, hwords⟩ := forall_mem_cons.mp hwords
    rw [flatMap_cons, append_assoc, length_cons, readWords,
      readWord_append hword, drop_left' (length_toBig _ _), ih hwords]

theorem readBytes_append {bs : Bytes} (hbs : bs.length < 2 ^ 256) (rest : Bytes) :
    readBytes (abiBytes bs ++ rest) = bs := by
  rw [abiBytes, append_assoc, readBytes, readWord_append hbs,
    drop_left' (length_toBig _ _), append_assoc, take_left' rfl]

/-- At the offsets are the parts. -/
theorem map_readBytes_abiOffsets {ciphertexts : List Bytes}
    (hciphertexts : ∀ c ∈ ciphertexts, c.length < 2 ^ 256) (front : Bytes) :
    (abiOffsets front.length (ciphertexts.map abiBytes)).map (fun offset =>
      readBytes ((front ++ (ciphertexts.map abiBytes).flatten).drop offset)) = ciphertexts := by
  induction ciphertexts generalizing front with
  | nil => rfl
  | cons c ciphertexts ih =>
    obtain ⟨hc, hciphertexts⟩ := forall_mem_cons.mp hciphertexts
    have hrest := ih hciphertexts (front ++ abiBytes c)
    rw [length_append, append_assoc] at hrest
    rw [map_cons, flatten_cons, abiOffsets, map_cons, hrest, drop_left' rfl,
      readBytes_append hc]

/-- The parameters, encoded. -/
def abiLayout (vk : Fin 4 → ℕ) (sigma : ℕ) (publicData : List ℕ) (ciphertexts : List Bytes) :
    Bytes :=
  (abiHead vk sigma publicData).flatMap (toBig 32) ++
    ((publicData.length :: publicData).flatMap (toBig 32) ++
      ((abiIndex ciphertexts).flatMap (toBig 32) ++ (ciphertexts.map abiBytes).flatten))

/-- The parameters, decoded by the offsets of the head. -/
def abiRead (bs : Bytes) : NestedParameters :=
  let head := readWords 7 bs
  let publicData := bs.drop (head.getD 5 0)
  let ciphertexts := bs.drop (head.getD 6 0)
  ⟨fun i => BitVec.ofNat 256 (head.getD i 0), BitVec.ofNat 256 (head.getD 4 0),
    toWords (readWords (readWord publicData) (publicData.drop 32)),
    (readWords (readWord ciphertexts) (ciphertexts.drop 32)).map fun offset =>
      readBytes ((ciphertexts.drop 32).drop offset)⟩

theorem length_abiOffsets (start : ℕ) (parts : List Bytes) :
    (abiOffsets start parts).length = parts.length := by
  induction parts generalizing start with
  | nil => rfl
  | cons part parts ih => rw [abiOffsets, length_cons, ih, length_cons]

theorem length_flatMap_toBig (words : List ℕ) :
    (words.flatMap (toBig 32)).length = 32 * words.length := by
  rw [length_flatMap, map_congr_left fun word _ => length_toBig 32 word,
    map_const', sum_replicate, smul_eq_mul, Nat.mul_comm]

/-- The ciphertexts, from their number on. -/
theorem map_readBytes_abiIndex {ciphertexts : List Bytes} (hindex : AreWords (abiIndex ciphertexts))
    (hciphertexts : ∀ c ∈ ciphertexts, c.length < 2 ^ 256) {bs : Bytes}
    (hbs : bs = (abiIndex ciphertexts).flatMap (toBig 32) ++ (ciphertexts.map abiBytes).flatten) :
    (readWords (readWord bs) (bs.drop 32)).map (fun offset =>
      readBytes ((bs.drop 32).drop offset)) = ciphertexts := by
  obtain ⟨hcount, hoffsets⟩ := forall_mem_cons.mp hindex
  have hlen : (abiOffsets (32 * ciphertexts.length) (ciphertexts.map abiBytes)).length =
      ciphertexts.length := by
    rw [length_abiOffsets, length_map]
  have hfront : ((abiOffsets (32 * ciphertexts.length)
      (ciphertexts.map abiBytes)).flatMap (toBig 32)).length = 32 * ciphertexts.length := by
    rw [length_flatMap_toBig, hlen]
  have hread := readWords_append hoffsets (ciphertexts.map abiBytes).flatten
  have hparts := map_readBytes_abiOffsets hciphertexts
    ((abiOffsets (32 * ciphertexts.length) (ciphertexts.map abiBytes)).flatMap (toBig 32))
  rw [hlen] at hread
  rw [hfront] at hparts
  rw [hbs, abiIndex, flatMap_cons, append_assoc, readWord_append hcount,
    drop_left' (length_toBig _ _), hread, hparts]

section Layout

variable {vk : Fin 4 → ℕ} {sigma : ℕ} {publicData : List ℕ} {ciphertexts : List Bytes}
  (hhead : AreWords (abiHead vk sigma publicData))

include hhead

theorem readWords_abiLayout :
    readWords 7 (abiLayout vk sigma publicData ciphertexts) = abiHead vk sigma publicData :=
  readWords_append hhead _

/-- What is encoded is decoded. -/
theorem abiRead_abiLayout (hnumbers : AreWords (publicData.length :: publicData))
    (hindex : AreWords (abiIndex ciphertexts)) (hparts : ∀ c ∈ ciphertexts, c.length < 2 ^ 256) :
    abiRead (abiLayout vk sigma publicData ciphertexts) =
      ⟨keyWords vk, BitVec.ofNat 256 sigma, toWords publicData, ciphertexts⟩ := by
  have hlen : ((abiHead vk sigma publicData).flatMap (toBig 32)).length = 224 :=
    length_flatMap_toBig _
  obtain ⟨hcount, hnumbers⟩ := forall_mem_cons.mp hnumbers
  have hpublic : (abiLayout vk sigma publicData ciphertexts).drop 224 =
      toBig 32 publicData.length ++ (publicData.flatMap (toBig 32) ++
        ((abiIndex ciphertexts).flatMap (toBig 32) ++ (ciphertexts.map abiBytes).flatten)) := by
    rw [abiLayout, drop_left' hlen, flatMap_cons, append_assoc]
  have hciphertexts : (abiLayout vk sigma publicData ciphertexts).drop
      (256 + 32 * publicData.length) =
        (abiIndex ciphertexts).flatMap (toBig 32) ++ (ciphertexts.map abiBytes).flatten := by
    rw [abiLayout, ← append_assoc]
    refine drop_left' ?_
    rw [length_append, hlen, length_flatMap_toBig, length_cons]
    omega
  have hkey : (fun i : Fin 4 => BitVec.ofNat 256 ((abiHead vk sigma publicData).getD i 0)) =
      keyWords vk := by
    funext i
    fin_cases i <;> rfl
  rw [abiRead, readWords_abiLayout hhead]
  simp only [hkey]
  simp only [abiHead, getD_cons_succ, getD_cons_zero]
  rw [hpublic, map_readBytes_abiIndex hindex hparts hciphertexts, readWord_append hcount,
    drop_left' (length_toBig _ _), readWords_append hnumbers]

end Layout

/-- `encode_abi`. Numbers that no word holds are not encoded by the library; parameters with such a
number are written in unary. -/
def layoutAbi : MixAbi where
  encodeSingle value :=
    if value.length ≤ 32 then .ok (value ++ List.replicate (32 - value.length) 0)
    else .error (.valueError "exceeds total byte size for bytes32 encoding")
  encodeSingle_eq hvalue := by rw [if_pos hvalue.le, hvalue]; exact congrArg _ (append_nil _)
  encodeParameters vk sigma publicData ciphertexts :=
    .ok (if ∀ word ∈ abiHead vk sigma publicData ++ publicData.length :: publicData ++
        abiIndex ciphertexts ++ ciphertexts.map List.length, word < 2 ^ 256 then
      abiLayout vk sigma publicData ciphertexts
    else List.replicate (Encodable.encode
      (List.ofFn vk, sigma, publicData, ciphertexts.map (List.map BitVec.toNat))) 0)

/-- `abi.decode`. In unary there is no offset in the head. -/
def layoutDecode (bs : Bytes) : Option NestedParameters :=
  if (readWords 7 bs).getD 5 0 = 224 then some (abiRead bs)
  else (Encodable.decode bs.length : Option (List ℕ × ℕ × List ℕ × List (List ℕ))).map fun p =>
    ⟨fun i => BitVec.ofNat 256 (p.1.getD i 0), BitVec.ofNat 256 p.2.1, toWords p.2.2.1,
      p.2.2.2.map (List.map (BitVec.ofNat 8))⟩

/-- A mixer that decodes parameters. -/
def layoutMixer : Mixer := { Mixer.permissive fun l _ => l with abiDecode := layoutDecode }

theorem readWords_replicate_zero (k n : ℕ) :
    readWords k (List.replicate n 0) = List.replicate k 0 := by
  induction k generalizing n with
  | zero => rfl
  | succ k ih =>
    rw [readWords, readWord, take_replicate, ← toBig_zero, fromBig_toBig, Nat.zero_mod,
      drop_replicate, ih, replicate_succ]

theorem decodesParameters_layout : DecodesParameters layoutMixer layoutAbi where
  exists_encode _ _ _ _ := ⟨_, rfl⟩
  decode_encode := by
    intro vk sigma publicData ciphertexts nestedParameters h
    obtain rfl := Except.ok.inj h
    rw [show layoutMixer.abiDecode = layoutDecode from rfl]
    by_cases hfits : ∀ word ∈ abiHead vk sigma publicData ++ publicData.length :: publicData ++
        abiIndex ciphertexts ++ ciphertexts.map List.length, word < 2 ^ 256
    · rw [if_pos hfits]
      simp only [forall_mem_append, forall_mem_map] at hfits
      obtain ⟨⟨⟨hhead, hnumbers⟩, hindex⟩, hparts⟩ := hfits
      rw [layoutDecode, readWords_abiLayout hhead, abiRead_abiLayout hhead hnumbers hindex hparts]
      exact if_pos rfl
    · rw [if_neg hfits]
      have hbyte (b : Byte) : BitVec.ofNat 8 b.toNat = b := by
        rw [BitVec.ofNat_toNat, BitVec.setWidth_eq]
      have hciphertexts : (ciphertexts.map (List.map BitVec.toNat)).map
          (List.map (BitVec.ofNat 8)) = ciphertexts := by
        simp [map_map, Function.comp_def, hbyte]
      have hkey : (fun i : Fin 4 => BitVec.ofNat 256 ((List.ofFn vk).getD i 0)) = keyWords vk := by
        funext i
        rw [getD_eq_getElem _ _ (by rw [length_ofFn]; exact i.isLt), List.getElem_ofFn]
        rfl
      have hoffset : ¬ (List.replicate 7 0).getD 5 0 = 224 := by decide
      rw [layoutDecode, readWords_replicate_zero, if_neg hoffset, length_replicate,
        Encodable.encodek, Option.map_some]
      simp only [hkey, hciphertexts]

/-! ### A request -/

/-- A coordinate of 48 bytes, as on BLS12-377. -/
def longCoordinate : String := String.ofList ('0' :: 'x' :: List.replicate 96 'a')

/-- A proof whose coordinates are of two words each. -/
def longProof : Client.Groth16.Proof :=
  ⟨⟨longCoordinate, longCoordinate⟩,
    ⟨.list [longCoordinate, longCoordinate], .list [longCoordinate, longCoordinate]⟩,
    ⟨longCoordinate, longCoordinate⟩⟩

theorem isHexString_ofList {digits : List Char} (hdigits : AreHexDigits digits)
    (heven : digits.length % 2 = 0) (hpos : 0 < digits.length) :
    IsHexString (String.ofList ('0' :: 'x' :: digits)) := by
  have heq : hexDigits (String.ofList ('0' :: 'x' :: digits)) = digits := by
    simp [hexDigits]
  refine ⟨?_, ?_, ?_⟩ <;> rw [heq]
  · exact hdigits
  · exact heven
  · exact hpos

theorem isHex_longProof : longProof.IsHex := by
  have h : IsHexString longCoordinate :=
    isHexString_ofList (fun c hc => by rw [eq_of_mem_replicate hc]; rfl) rfl (by simp)
  refine ⟨⟨h, h⟩, fun s hs => ?_, h, h⟩
  have hs : s ∈ List.replicate 4 longCoordinate := hs
  rwa [eq_of_mem_replicate hs]

/-- The address of 160 ones, in upper case. -/
theorem denotesAddress_ones :
    DenotesAddress (String.ofList ('0' :: 'x' :: List.replicate 40 'F')) (-1) := by
  refine ⟨?_, ?_, ?_, ?_⟩ <;> rw [String.toList_ofList]
  · rfl
  · exact fun c hc => by rw [eq_of_mem_replicate hc]; rfl
  · rfl
  · decide +kernel

/-- A request with a proof of 18 words and small numbers, sent by `mix` and by `dispatch`. -/
theorem joinsplitSign_signs_call_long :
    (∃ sigma args,
      joinsplitSign layoutAbi layoutMixer.sha256 (genSigningKeypair 1 1).1
        (String.ofList ('0' :: 'x' :: List.replicate 40 'F')) [[1], [2, 3]] longProof
        (List.replicate 9 0xabc) false = .ok sigma ∧
      mixParametersToContractArguments ⟨longProof, List.replicate 9 0xabc,
        (genSigningKeypair 1 1).2, sigma, [[1], [2, 3]]⟩ = .ok args ∧
      OTSchnorr.verify layoutMixer.sha256 (mixArgs args).vk (mixArgs args).sigma
        (layoutMixer.sha256 (mixCall (-1) (mixArgs args)).preimage) = true) ∧
    ∃ sigma nestedParameters params,
      joinsplitSign layoutAbi layoutMixer.sha256 (genSigningKeypair 1 1).1
        (String.ofList ('0' :: 'x' :: List.replicate 40 'F')) [[1], [2, 3]] longProof
        (List.replicate 9 0xabc) true = .ok sigma ∧
      mixParametersToDispatchParameters layoutAbi ⟨longProof, List.replicate 9 0xabc,
        (genSigningKeypair 1 1).2, sigma, [[1], [2, 3]]⟩ = .ok nestedParameters ∧
      layoutMixer.abiDecode nestedParameters = some params ∧
      OTSchnorr.verify layoutMixer.sha256 params.vk params.sigma
        (layoutMixer.sha256 (dispatchCall (-1) params).preimage) = true := by
  have hone : 1 < r := by decide +kernel
  have hrequest : IsRequest (-1) (String.ofList ('0' :: 'x' :: List.replicate 40 'F'))
      [[1], [2, 3]] longProof (List.replicate 9 0xabc) :=
    ⟨denotesAddress_ones, rfl, isHex_longProof, rfl, fun n hn => by
      rw [eq_of_mem_replicate hn]; norm_num⟩
  exact (joinsplitSign_signs_call decodesParameters_layout hrequest).2 1 1 (le_refl 1) hone
    (le_refl 1) hone

end Zeth.Agreement
