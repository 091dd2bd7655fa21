import Zeth.Client.Groth16
import Zeth.Client.HexWords
import Zeth.Client.Signing
import Zeth.Client.Utils

/-!
# Parameters of a call of the mixer

What the client passes to `mix` and `dispatch`, and what it signs before
(`client/zeth/core/mixer_client.py`). The string that is signed is the address of the sender, the
ciphertexts, the words of the proof and the public data. Each number is written in hexadecimal, made
even and filled up to 32 bytes, and read back as bytes (`client/zeth/core/utils.py`). For `dispatch`
the proof is left out.

The library `eth_abi` is a parameter, of which it is known that it encodes 32 bytes as they are.

## Main definitions

* `ethAddressToBytes32`, `messageToBytes`.
* `joinsplitSignMessage`, `joinsplitSign`.
* `MixParameters`, `mixParametersToContractArguments`, `mixParametersToDispatchParameters`.

## Main results

* `ethAddressToBytes32_eq`, `messageToBytes_int`: numbers in 32 bytes.
* `Groth16.exists_proofToContractParameters`: the words of a proof are below `2 ^ 256`.
* `joinsplitSignMessage_eq`.
-/

namespace Zeth.Client

open ByteString Python AltBN128 List

open Except (ok_bind)

/-! ### Numbers in 32 bytes -/

/-- The library `eth_abi`. -/
structure MixAbi where
  /-- `encode_single("bytes32", value)`. -/
  encodeSingle : Bytes → Except Exc Bytes
  encodeSingle_eq : ∀ {value}, value.length = 32 → encodeSingle value = .ok value
  /-- `encode_abi(['uint256[4]', 'uint256', 'uint256[]', 'bytes[]'], …)`. -/
  encodeParameters : (Fin 4 → ℕ) → ℕ → List ℕ → List Bytes → Except Exc Bytes

/-- `eth_address_to_bytes`. -/
def ethAddressToBytes (ethAddr : String) : Except Exc Bytes := do
  assert (ethAddr.length == 42) ""
  assert (ethAddr.toList.take 2 == ['0', 'x']) ""
  fromhex (String.ofList (ethAddr.toList.drop 2))

/-- `eth_address_to_bytes32`. -/
def ethAddressToBytes32 (ethAddr : String) : Except Exc Bytes := do
  extend32Bytes (← ethAddressToBytes ethAddr)

/-- A variable that is encoded: a number or a string. -/
inductive Message where
  | int (n : ℕ)
  | str (s : String)

/-- `string_list_flatten`, on a list of variables or lists of variables. -/
def messageListFlatten (messageList : List (Message ⊕ List Message)) : List Message :=
  if messageList.any Sum.isRight then messageList.flatMap (Sum.elim (fun m => [m]) id)
  else messageList.filterMap Sum.getLeft?

/-- The digits of a variable. Those of a string are after the `0x` it may start with. -/
def Message.hex : Message → Except Exc String
  | .int n => .ok (format04X n)
  | .str s =>
    match s.toList with
    | _ :: 'x' :: digits => .ok (String.ofList digits)
    | _ :: _ :: _ => .ok s
    | _ => .error (.indexError "string index out of range")

variable (abi : MixAbi)

/-- One pass of the loop of `message_to_bytes`. -/
def Message.toBytes (m : Message) : Except Exc Bytes := do
  let mHex ← hexExtend32Bytes (← m.hex)
  abi.encodeSingle (← fromhex mHex)

/-- `message_to_bytes`. -/
def messageToBytes (messageList : List (Message ⊕ List Message)) : Except Exc Bytes := do
  return (← (messageListFlatten messageList).mapM (Message.toBytes abi)).flatten

/-- Strings of up to 32 bytes are filled up. -/
theorem hexExtend32Bytes_digits {digits : List Char} (hdigits : AreHexDigits digits)
    (hlen : digits.length ≤ 64) :
    hexExtend32Bytes (String.ofList digits) = .ok (Python.hex (toBig 32 (hexNumber digits))) := by
  -- the digits after the length has been made even
  obtain ⟨even, k, heven, hk, hdigits', hnumber, hres⟩ : ∃ (even : List Char) (k : ℕ),
      even.length = 2 * k ∧ k ≤ 32 ∧ AreHexDigits even ∧ hexNumber even = hexNumber digits ∧
      (if (String.ofList digits).length % 2 ≠ 0 then "0" ++ String.ofList digits
        else String.ofList digits) = String.ofList even := by
    rw [String.length_ofList]
    split_ifs with hodd
    · refine ⟨'0' :: digits, (digits.length + 1) / 2, ?_, by omega, ?_, ?_, ?_⟩
      · rw [length_cons]
        omega
      · exact forall_mem_cons.mpr ⟨rfl, hdigits⟩
      · have hzero : hexNumber ['0'] = 0 := by decide
        rw [← singleton_append, hexNumber_append, hzero, Nat.mul_zero, Nat.add_zero]
      · exact String.ofList_append.symm
    · exact ⟨digits, digits.length / 2, by omega, by omega, hdigits, rfl, rfl⟩
  have hlt : hexNumber digits < 256 ^ k := by
    rw [← hnumber]
    refine (hexNumber_lt even).trans_eq ?_
    rw [heven, pow_mul]
    rfl
  have hread : fromhex (String.ofList even) = .ok (toBig k (hexNumber digits)) := by
    rw [fromhex, String.toList_ofList, fromhexChars_eq hdigits' heven, hnumber]
  have hextend := extend32Bytes_eq ((length_toBig k (hexNumber digits)).trans_le hk)
  rw [length_toBig, ← toBig_eq_replicate_append hk hlt] at hextend
  simp only [hexExtend32Bytes, hres, hread, ok_bind, hextend]
  rfl

/-- The digits of `"{0:0>4X}".format(n)`. -/
theorem exists_format04X {n : ℕ} (hn : n < 2 ^ 256) :
    ∃ digits, format04X n = String.ofList digits ∧ AreHexDigits digits ∧ digits.length ≤ 64 ∧
      hexNumber digits = n := by
  have hdigit : ∀ d ∈ (Nat.digits 16 n).reverse, hexVal (hexDigitUpper d) = some d := fun d hd =>
    (hexVal_hexDigitUpper (Nat.digits_lt_base (by norm_num) (mem_reverse.mp hd))).1
  refine ⟨_, rfl, ?_, ?_, ?_⟩
  · refine forall_mem_append.mpr ⟨fun c hc => ?_, fun c hc => ?_⟩
    · rw [eq_of_mem_replicate hc]
      rfl
    · obtain ⟨d, hd, rfl⟩ := mem_map.mp hc
      rw [hdigit d hd]
      rfl
  · have hlen : (Nat.digits 16 n).length ≤ 64 := by
      rw [Nat.digits_length_le_iff (by norm_num)]
      exact hn.trans_eq (by norm_num)
    rw [length_append, length_replicate, hexNumberChars, length_map,
      length_reverse]
    omega
  · have hzeros (k : ℕ) : hexNumber (List.replicate k '0') = 0 := by
      have hzero : (hexVal '0').getD 0 = 0 := rfl
      rw [hexNumber, map_replicate, hzero, reverse_replicate,
        Nat.ofDigits_replicate_zero]
    have hback : ((Nat.digits 16 n).reverse.map hexDigitUpper).map
        (fun c => (hexVal c).getD 0) = (Nat.digits 16 n).reverse := by
      rw [map_map]
      refine (map_congr_left fun d hd => ?_).trans (map_id' _)
      rw [Function.comp_apply, hdigit d hd, Option.getD_some]
    rw [hexNumber_append, hzeros, Nat.mul_zero, Nat.add_zero, hexNumber, hexNumberChars, hback,
      reverse_reverse, Nat.ofDigits_digits]

variable {abi}

theorem toBytes_int {n : ℕ} (hn : n < 2 ^ 256) :
    Message.toBytes abi (.int n) = .ok (toBig 32 n) := by
  obtain ⟨digits, hformat, hdigits, hlen, hnumber⟩ := exists_format04X hn
  rw [Message.toBytes, Message.hex, hformat, ok_bind, hexExtend32Bytes_digits hdigits hlen,
    ok_bind, fromhex_hex, ok_bind, abi.encodeSingle_eq (length_toBig _ _), hnumber]

/-- Numbers of 256 bits are encoded in 32 bytes each. -/
theorem messageToBytes_int {ns : List ℕ} (hns : ∀ n ∈ ns, n < 2 ^ 256) :
    messageToBytes abi (ns.map fun n => .inl (.int n)) = .ok (ns.flatMap (toBig 32)) := by
  have hflatten : messageListFlatten (ns.map fun n => .inl (.int n)) = ns.map .int := by
    have hany : (ns.map fun n => (.inl (.int n) : Message ⊕ List Message)).any Sum.isRight =
        false := by
      rw [any_map, any_eq_false]
      exact fun n _ => Bool.false_ne_true
    rw [messageListFlatten, hany, if_neg Bool.false_ne_true, filterMap_map]
    exact congrFun filterMap_eq_map' ns
  have hmap : (ns.map Message.int).mapM (Message.toBytes abi) = .ok (ns.map (toBig 32)) := by
    rw [Except.mapM_eq_ok, List.forall₂_map_left_iff, List.forall₂_map_right_iff, List.forall₂_same]
    exact fun n hn => toBytes_int (hns n hn)
  rw [messageToBytes, hflatten, hmap, ok_bind, List.flatMap]
  rfl

/-- A string that stands for an address: `0x` and 40 digits, in upper or in lower case. -/
structure DenotesAddress (ethAddr : String) (address : BitVec 160) : Prop where
  take_eq : ethAddr.toList.take 2 = ['0', 'x']
  areHexDigits : AreHexDigits (ethAddr.toList.drop 2)
  length_eq : (ethAddr.toList.drop 2).length = 40
  number_eq : hexNumber (ethAddr.toList.drop 2) = address.toNat

theorem ethAddressToBytes32_eq {ethAddr : String} {address : BitVec 160}
    (h : DenotesAddress ethAddr address) :
    ethAddressToBytes32 ethAddr = .ok (toBig 32 address.toNat) := by
  have hlen : (ethAddr.length == 42) = true := by
    have h40 := h.length_eq
    rw [length_drop, String.length_toList] at h40
    rw [beq_iff_eq]
    omega
  have hbytes : ethAddressToBytes ethAddr = .ok (toBig 20 address.toNat) := by
    rw [ethAddressToBytes, hlen, h.take_eq, beq_self_eq_true, assert_true, ok_bind,
      ok_bind, fromhex, String.toList_ofList,
      fromhexChars_eq (k := 20) h.areHexDigits h.length_eq, h.number_eq]
  have hlt : address.toNat < 256 ^ 20 := address.isLt.trans_eq (by norm_num)
  have hle : (toBig 20 address.toNat).length ≤ 32 := by
    rw [length_toBig]
    norm_num
  rw [ethAddressToBytes32, hbytes, ok_bind, extend32Bytes_eq hle, length_toBig,
    ← toBig_eq_replicate_append (by norm_num) hlt]

/-! ### Words of proofs -/

/-- Both coordinates are hexadecimal strings. -/
def G1Point.IsHex (g1 : G1Point) : Prop := IsHexString g1.xCoord ∧ IsHexString g1.yCoord

/-- The coordinates are both strings or both lists of strings. -/
def G2Point.IsHex (g2 : G2Point) : Prop :=
  match g2.xCoord, g2.yCoord with
  | .str x, .str y => IsHexString x ∧ IsHexString y
  | .list x, .list y => ∀ s ∈ x ++ y, IsHexString s
  | _, _ => False

/-- All coordinates of a proof are hexadecimal strings, of any number of words. -/
structure Groth16.Proof.IsHex (proof : Groth16.Proof) : Prop where
  a : proof.a.IsHex
  b : proof.b.IsHex
  c : proof.c.IsHex

/-- All numbers fit into words. -/
def AreWords (words : List ℕ) : Prop := ∀ word ∈ words, word < 2 ^ 256

theorem AreWords.append {words words' : List ℕ} (h : AreWords words) (h' : AreWords words') :
    AreWords (words ++ words') :=
  forall_mem_append.mpr ⟨h, h'⟩

theorem exists_hexToUint256List {s : String} (hs : IsHexString s) :
    ∃ words, hexToUint256List s = .ok words ∧ AreWords words :=
  (hexToUint256List_spec hs).imp fun _ h => ⟨h.1, h.2.lt⟩

theorem exists_hexListToUint256List {elements : List String}
    (h : ∀ s ∈ elements, IsHexString s) :
    ∃ words, hexListToUint256List elements = .ok words ∧ AreWords words := by
  obtain ⟨wordLists, hlists⟩ := Except.exists_mapM fun s hs =>
    (exists_hexToUint256List (h s hs)).imp fun _ h => h.1
  refine ⟨wordLists.flatten, ?_, fun word hword => ?_⟩
  · rw [hexListToUint256List, hlists]
    rfl
  · obtain ⟨words, hwords, hmem⟩ := mem_flatten.mp hword
    obtain ⟨s, hs, hsplit⟩ := Except.exists_of_mem_mapM hlists hwords
    obtain ⟨words', hwords', hlt⟩ := exists_hexToUint256List (h s hs)
    cases hsplit.symm.trans hwords'
    exact hlt word hmem

theorem exists_g1PointToContractParameters {g1 : G1Point} (h : g1.IsHex) :
    ∃ words, g1PointToContractParameters g1 = .ok words ∧ AreWords words := by
  obtain ⟨x, hx, hxs⟩ := exists_hexToUint256List h.1
  obtain ⟨y, hy, hys⟩ := exists_hexToUint256List h.2
  refine ⟨x ++ y, ?_, hxs.append hys⟩
  rw [g1PointToContractParameters, hx, ok_bind, hy]
  rfl

theorem exists_g2PointToContractParameters {g2 : G2Point} (h : g2.IsHex) :
    ∃ words, g2PointToContractParameters g2 = .ok words ∧ AreWords words := by
  obtain ⟨xs | xs, ys | ys⟩ := g2
  · exact exists_g1PointToContractParameters h
  · exact h.elim
  · exact h.elim
  · obtain ⟨hx, hy⟩ := forall_mem_append.mp h
    obtain ⟨x, hx, hxs⟩ := exists_hexListToUint256List hx
    obtain ⟨y, hy, hys⟩ := exists_hexListToUint256List hy
    refine ⟨x ++ y, ?_, hxs.append hys⟩
    simp only [g2PointToContractParameters, Coordinate.elements, hx, hy, ok_bind]
    rfl

/-- A proof is turned into words. -/
theorem Groth16.exists_proofToContractParameters {proof : Proof} (h : proof.IsHex) :
    ∃ words, proofToContractParameters proof = .ok words ∧ AreWords words := by
  obtain ⟨a, ha, has⟩ := exists_g1PointToContractParameters h.a
  obtain ⟨b, hb, hbs⟩ := exists_g2PointToContractParameters h.b
  obtain ⟨c, hc, hcs⟩ := exists_g1PointToContractParameters h.c
  refine ⟨a ++ b ++ c, ?_, (has.append hbs).append hcs⟩
  rw [proofToContractParameters, ha, ok_bind, hb, ok_bind, hc]
  rfl

/-! ### What is signed and what is sent -/

variable (abi)

/-- `_proof_and_inputs_to_bytes`, for Groth16. -/
def proofAndInputsToBytes (proof : Groth16.Proof) (publicData : List ℕ) :
    Except Exc (Bytes × Bytes) := do
  let proofParams ← Groth16.proofToContractParameters proof
  let proofBytes ← messageToBytes abi (proofParams.map fun n => .inl (.int n))
  let inputsBytes ← messageToBytes abi (publicData.map fun n => .inl (.int n))
  return (proofBytes, inputsBytes)

/-- The string that `joinsplit_sign` hashes. -/
def joinsplitSignMessage (senderEthAddress : String) (ciphertexts : List Bytes)
    (proof : Groth16.Proof) (publicData : List ℕ) (forDispatchCall : Bool) :
    Except Exc Bytes := do
  assert (ciphertexts.length == jsInputs) ""
  let sender ← ethAddressToBytes32 senderEthAddress
  let (proofBytes, pubInputsBytes) ← proofAndInputsToBytes abi proof publicData
  return sender ++ ciphertexts.flatten ++ (if forDispatchCall then [] else proofBytes) ++
    pubInputsBytes

/-- A coordinate of a point; `py_ecc` has none for the identity. -/
def subscript {α : Type} : Option α → Except Exc α
  | some a => .ok a
  | none => .error (.exception "'NoneType' object is not subscriptable")

/-- `joinsplit_sign`. -/
def joinsplitSign (sha256 : Bytes → BitVec 256) (sk : SigningSecretKey) (senderEthAddress : String)
    (ciphertexts : List Bytes) (proof : Groth16.Proof) (publicData : List ℕ)
    (forDispatchCall : Bool) : Except Exc ℕ := do
  let message ←
    joinsplitSignMessage abi senderEthAddress ciphertexts proof publicData forDispatchCall
  subscript (Signing.sign sha256 sk (toBig 32 (sha256 message).toNat))

/-- `MixParameters`, with the proof of `extended_proof`. -/
structure MixParameters where
  proof : Groth16.Proof
  publicData : List ℕ
  signatureVk : SigningVerificationKey
  signature : ℕ
  ciphertexts : List Bytes

/-- The arguments of `mix` before they are encoded. -/
structure ContractArguments where
  proof : List ℕ
  vk : Fin 4 → ℕ
  sigma : ℕ
  publicData : List ℕ
  ciphertexts : List Bytes

/-- `mix_parameters_to_contract_arguments`, for Groth16. -/
def mixParametersToContractArguments (mixParameters : MixParameters) :
    Except Exc ContractArguments := do
  let proofContractParams ← Groth16.proofToContractParameters mixParameters.proof
  let vkParam ← subscript (verificationKeyAsMixParameter mixParameters.signatureVk)
  return ⟨proofContractParams, vkParam, mixParameters.signature, mixParameters.publicData,
    mixParameters.ciphertexts⟩

/-- `mix_parameters_to_dispatch_parameters`. -/
def mixParametersToDispatchParameters (mixParameters : MixParameters) : Except Exc Bytes := do
  let vkParam ← subscript (verificationKeyAsMixParameter mixParameters.signatureVk)
  abi.encodeParameters vkParam mixParameters.signature mixParameters.publicData
    mixParameters.ciphertexts

variable {abi}

/-- The parts of the string, with each number in 32 bytes. -/
theorem joinsplitSignMessage_eq {ethAddr : String} {address : BitVec 160}
    (haddress : DenotesAddress ethAddr address) {ciphertexts : List Bytes}
    (hciphertexts : ciphertexts.length = jsInputs) {proof : Groth16.Proof} {words : List ℕ}
    (hproof : Groth16.proofToContractParameters proof = .ok words) (hwords : AreWords words)
    {publicData : List ℕ} (hpublicData : AreWords publicData) (forDispatchCall : Bool) :
    joinsplitSignMessage abi ethAddr ciphertexts proof publicData forDispatchCall =
      .ok (toBig 32 address.toNat ++ ciphertexts.flatten ++
        (if forDispatchCall then [] else words.flatMap (toBig 32)) ++
        publicData.flatMap (toBig 32)) := by
  have hboth : proofAndInputsToBytes abi proof publicData =
      .ok (words.flatMap (toBig 32), publicData.flatMap (toBig 32)) := by
    rw [proofAndInputsToBytes, hproof, ok_bind, messageToBytes_int hwords, ok_bind,
      messageToBytes_int hpublicData]
    rfl
  rw [joinsplitSignMessage, beq_iff_eq.mpr hciphertexts, assert_true, ok_bind,
    ethAddressToBytes32_eq haddress, ok_bind, hboth]
  rfl

end Zeth.Client
