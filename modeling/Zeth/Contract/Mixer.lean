import Zeth.Contract.Curve
import Zeth.Contract.MerkleTree
import Zeth.Foundation.Bytes

/-!
# The mixer contract

`AbstractMixer.sol`: notes are spent and created by calls of `mix`, or of `dispatch` by a permitted
contract that has verified the proof itself. A call gives nine public inputs,
`[root, commitments, nullifiers, h_sig, h_i, residual]`. It is accepted if its root is known, its
nullifiers are new, `h_sig` matches, and the signature and the proof verify. The nullifiers are
recorded, the commitments appended to the tree and the new root recorded, and only then the public
values are moved, which calls code outside the contract: the token, or the sender.

That code may call the mixer again. Its behaviour is a parameter of `mix` and `dispatch`, an
`External`: what the storage of the mixer is when it returns and how many units of the token it has
moved, or that it failed. A call that reverts changes nothing.

The verifiers, the SHA-256 precompile and the decoder of nested parameters are fields of `Mixer`,
together with the constants set by the constructor. The depth of the tree is `32`.

The state has three fields that are not storage: `log` records the accepted calls and the leaves
inserted by calls of `insert` from outside, and `recorded` the roots marked in `_roots` with the
leaves present at the time. `tokenBalance` is what the token contract has booked for the mixer.

## Main definitions

* `Inputs`, `Mixer`, `Mixer.State`, `Mixer.onCurve`, `Mixer.deploy`.
* `Mixer.hashPublicProofData`, `Mixer.assembleNullifier`, `Mixer.assembleHsig`,
  `assemblePublicValues`.
* `Mixer.checkMkrootNullifiersHsigAppendNullifiersState`,
  `Mixer.mixAppendCommitmentsEmitAndHandlePublicValues`, `Mixer.processPublicValues`.
* `Mixer.mix`, `Mixer.dispatch`, `Mixer.insert`.
-/

namespace Zeth

open ByteString

/-- `_DEPTH`. -/
def AbstractMerkleTree.depth : ℕ := 32

-- Named, so that positions in the inputs are one term in all modules.
instance neZero_nine : NeZero 9 := ⟨by decide⟩

/-- The public inputs, `uint256[_NUM_INPUTS]`. -/
abbrev Inputs := Fin 9 → Word

/-- The bytes of a word in memory. -/
def wordBytes (w : Word) : Bytes := toBig 32 w.toNat

/-- The parameters decoded by `dispatch`. -/
structure NestedParameters where
  vk : Fin 4 → Word
  sigma : Word
  publicData : List Word
  ciphertexts : List Bytes

/-- The fixed part of a deployed mixer: the code it links to and the constants of its
constructor. -/
structure Mixer where
  /-- `_hash`. -/
  hash : Word → Word → Word
  /-- `_extractBytes32`. -/
  extractBytes32 : Word → Word → ℕ → Word
  /-- `_verifyZkProof`, for the stored verification key. -/
  verifyZkProof : List Word → Word → Bool
  /-- `LibOTSchnorrVerifier._verify`. -/
  verifySignature : (Fin 4 → Word) → Word → Word → Bool
  /-- The SHA-256 precompile. -/
  sha256 : Bytes → Word
  /-- `abi.decode` of nested parameters, which reverts on malformed data. -/
  abiDecode : Bytes → Option NestedParameters
  /-- `_token`. -/
  token : Address
  /-- `_permittedDispatcher`. -/
  permittedDispatcher : Address
  /-- `_vkHash`. -/
  vkHash : Word × Word

/-- The sender of a call and the ether attached to it. -/
structure Msg where
  sender : Address
  value : ℕ
  deriving DecidableEq, Repr

/-- The arguments of `mix`. -/
structure MixArgs where
  proof : List Word
  vk : Fin 4 → Word
  sigma : Word
  publicInputs : Inputs
  ciphertexts : Fin 2 → Bytes

/-- The arguments of `dispatch`. -/
structure DispatchArgs where
  nestedVkHash : Word × Word
  nestedInputs : List Word
  nestedParameters : Bytes

/-- The event emitted by accepted calls. -/
structure LogMix where
  root : Word
  nullifiers : List Word
  commitments : List Word
  ciphertexts : Fin 2 → Bytes

namespace Mixer

open AbstractMerkleTree (depth)

/-- A call that has changed the storage. -/
inductive Event where
  /-- A call of `mix` or `dispatch` with the given public inputs has been accepted. -/
  | accepted (inputs : Inputs)
  /-- A call of `insert` from outside has appended a leaf. -/
  | inserted (commitment : Word)

/-- A root with the leaves present when it was recorded. -/
structure RootRecord where
  root : Word
  leaves : List Word

/-- The storage and the balances of a mixer, with the record of what has happened. -/
structure State where
  tree : AbstractMerkleTree.Tree Word
  /-- `_roots`. -/
  roots : Word → Bool
  /-- `_nullifiers`. -/
  nullifiers : Word → Bool
  /-- The ether held. -/
  balance : ℕ
  /-- The units of the token held. -/
  tokenBalance : ℤ
  /-- The events emitted. -/
  emitted : List LogMix
  log : List Event
  recorded : List RootRecord

/-- What code called by the mixer does: it fails, or leaves a state of the mixer and has moved an
amount of the token. -/
abbrev External := State → Option (State × ℕ)

/-- What a call has taken from and paid to its sender, in wei or in units of the token. -/
structure Movement where
  taken : ℕ
  paid : ℕ
  deriving DecidableEq, Repr

variable (m : Mixer)

/-- The mixer with the hash and the layout of residual bits of a curve. -/
def onCurve (curve : Curve) (keccak256 : Word → Word) : Mixer :=
  { m with hash := curve.hash keccak256, extractBytes32 := curve.extractBytes32 }

/-- The constructor. -/
def deploy : State :=
  let tree := AbstractMerkleTree.initializeTree m.hash 0 depth
  { tree := tree
    roots := Function.update (fun _ => false) (tree.nodes 0) true
    nullifiers := fun _ => false
    balance := 0
    tokenBalance := 0
    emitted := []
    log := []
    recorded := [⟨tree.nodes 0, tree.leaves depth⟩] }

/-! ### Reading the public inputs -/

/-- The initialisation vector of the hash of the public inputs. -/
def inputHashIv : Word :=
  13196537064117388418196223856311987714388543839552400408340921397545324034315#256

/-- `_hashPublicProofData`. -/
def hashPublicProofData (publicData : Inputs) : Word :=
  let h := (List.finRange 9).foldl (fun h i => m.hash h (publicData i)) inputHashIv
  m.hash h 9#256

/-- `_assemblePublicValues`: `vpub_in` and `vpub_out` in wei. -/
def assemblePublicValues (residualBits : Word) : ℕ × ℕ :=
  let publicValueMask := 0xffffffffffffffff#256
  (((residualBits >>> 64) &&& publicValueMask).toNat * 10 ^ 12,
    (residualBits &&& publicValueMask).toNat * 10 ^ 12)

/-- `_assembleHsig`. -/
def assembleHsig (primaryInputs : Inputs) : Word :=
  m.extractBytes32 (primaryInputs 5) (primaryInputs 8) 4

/-- `_assembleNullifier`; the index is in range by its type. -/
def assembleNullifier (index : Fin 2) (primaryInputs : Inputs) : Word :=
  m.extractBytes32 (primaryInputs ⟨3 + index, by omega⟩) (primaryInputs 8) (2 + index)

/-- The nullifiers of a call. -/
def assembleNullifiers (primaryInputs : Inputs) : List Word :=
  (List.finRange 2).map fun i => m.assembleNullifier i primaryInputs

/-- The commitments of a call. -/
def commitments (primaryInputs : Inputs) : List Word :=
  (List.finRange 2).map fun i : Fin 2 => primaryInputs ⟨1 + i, by omega⟩

/-! ### Checks and effects -/

/-- The loop that checks that the nullifiers are new and records them. -/
def appendNullifiers : List Word → State → Except String State
  | [], st => .ok st
  | nullifier :: nfs, st => do
    require (!st.nullifiers nullifier) "Invalid nullifier: This nullifier has already been used"
    appendNullifiers nfs { st with nullifiers := Function.update st.nullifiers nullifier true }

/-- `_checkMkrootNullifiersHsigAppendNullifiersState`: the state after the call and the
nullifiers. -/
def checkMkrootNullifiersHsigAppendNullifiersState (vk : Fin 4 → Word) (primaryInputs : Inputs)
    (st : State) : Except String (State × List Word) := do
  require (st.roots (primaryInputs 0)) "Invalid root: This root doesn't exist"
  let nfs := m.assembleNullifiers primaryInputs
  let st ← appendNullifiers nfs st
  let expectedHsig := m.sha256 ((nfs ++ (List.finRange 4).map vk).flatMap wordBytes)
  require (expectedHsig == m.assembleHsig primaryInputs)
    "Invalid hsig: This hsig does not correspond to the hash of vk and the nfs"
  return (st, nfs)

/-- The part of `_mixAppendCommitmentsEmitAndHandlePublicValues` before the public values are
moved: the commitments are appended to the tree and the new root is recorded. -/
def appendCommitments (inputs : Inputs) (ciphertexts : Fin 2 → Bytes) (nullifiers : List Word)
    (st : State) : Except String State := do
  let tree ← AbstractMerkleTree.insertAll depth st.tree (commitments inputs)
  let (tree, newMerkleRoot) ← AbstractMerkleTree.recomputeRoot m.hash depth tree 2
  return { st with
    tree := tree
    roots := Function.update st.roots newMerkleRoot true
    emitted := st.emitted ++ [⟨newMerkleRoot, nullifiers, commitments inputs, ciphertexts⟩]
    log := st.log ++ [.accepted inputs]
    recorded := st.recorded ++ [⟨newMerkleRoot, tree.leaves depth⟩] }

/-- `msg.sender.call{value: value}("")` with the `require` on its success. The call fails without
running any code when the balance is too low. -/
def sendEther (value : ℕ) (external : External) (message : String) (st : State) :
    Except String State :=
  if st.balance < value then .error message
  else
    match external { st with balance := st.balance - value } with
    | some (st, _) => .ok st
    | none => .error message

/-- The part of `_processPublicValues` that takes `vpub_in`, with the amount taken. -/
def processVpubIn (msg : Msg) (vpubIn : ℕ) (external : External) (st : State) :
    Except String (State × ℕ) :=
  if vpubIn > 0 then
    if m.token ≠ 0 then
      match external st with
      | some (st, moved) => .ok ({ st with tokenBalance := st.tokenBalance + moved }, moved)
      | none => .error "transferFrom reverted"
    else do
      require (msg.value == vpubIn) "Wrong msg.value: Value paid is not correct"
      return (st, msg.value)
  else if msg.value > 0 then do
    return (← sendEther msg.value external "vpub_in return transfer failed" st, 0)
  else .ok (st, 0)

/-- The part of `_processPublicValues` that pays `vpub_out`, with the amount paid. -/
def processVpubOut (vpubOut : ℕ) (external : External) (st : State) :
    Except String (State × ℕ) :=
  if vpubOut > 0 then
    if m.token ≠ 0 then
      match external st with
      | some (st, moved) => .ok ({ st with tokenBalance := st.tokenBalance - moved }, moved)
      | none => .error "transfer reverted"
    else do
      return (← sendEther vpubOut external "vpub_out transfer failed" st, vpubOut)
  else .ok (st, 0)

/-- `_processPublicValues`, with the amounts it has moved. -/
def processPublicValues (msg : Msg) (primaryInputs : Inputs) (first second : External)
    (st : State) : Except String (State × Movement) := do
  let (vpubIn, vpubOut) := assemblePublicValues (primaryInputs 8)
  let (st, taken) ← m.processVpubIn msg vpubIn first st
  let (st, paid) ← m.processVpubOut vpubOut second st
  return (st, ⟨taken, paid⟩)

/-- `_mixAppendCommitmentsEmitAndHandlePublicValues`. -/
def mixAppendCommitmentsEmitAndHandlePublicValues (msg : Msg) (inputs : Inputs)
    (ciphertexts : Fin 2 → Bytes) (nullifiers : List Word) (first second : External)
    (st : State) : Except String (State × Movement) := do
  let st ← m.appendCommitments inputs ciphertexts nullifiers st
  m.processPublicValues msg inputs first second st

/-! ### Entry points -/

/-- The bytes that the sender of a call has signed; `mix` signs the proof too. -/
def dataToBeSigned (sender : Address) (ciphertexts : Fin 2 → Bytes) (proof : List Word)
    (inputs : Inputs) : Bytes :=
  toBig 32 sender.toNat ++ ciphertexts 0 ++ ciphertexts 1 ++ proof.flatMap wordBytes ++
    ((List.finRange 9).map inputs).flatMap wordBytes

/-- `mix`. The attached ether is part of the balance from the start. -/
def mix (msg : Msg) (args : MixArgs) (first second : External) (st : State) :
    Except String (State × Movement) := do
  let st := { st with balance := st.balance + msg.value }
  let (st, nullifiers) ←
    m.checkMkrootNullifiersHsigAppendNullifiersState args.vk args.publicInputs st
  let hashToBeSigned :=
    m.sha256 (dataToBeSigned msg.sender args.ciphertexts args.proof args.publicInputs)
  require (m.verifySignature args.vk args.sigma hashToBeSigned)
    "Invalid signature: Unable to verify the signature correctly"
  require (m.verifyZkProof args.proof (m.hashPublicProofData args.publicInputs))
    "Invalid proof: Unable to verify the proof correctly"
  m.mixAppendCommitmentsEmitAndHandlePublicValues msg args.publicInputs args.ciphertexts nullifiers
    first second st

/-- The public inputs copied from decoded data. -/
def copyInputs (publicData : List Word) : Inputs := fun i => publicData.getD i 0

/-- The ciphertexts copied from decoded data. -/
def copyCiphertexts (ciphertexts : List Bytes) : Fin 2 → Bytes := fun i => ciphertexts.getD i []

/-- The checks of `dispatch` on its arguments, with the decoded parameters. -/
def decodeDispatch (msg : Msg) (args : DispatchArgs) : Except String NestedParameters := do
  require (msg.sender == m.permittedDispatcher) "dispatcher not permitted"
  require (args.nestedVkHash == m.vkHash) "invalid nestedVkHash"
  require (args.nestedInputs.length == 1) "invalid num nested inputs"
  match m.abiDecode args.nestedParameters with
  | none => .error "abi.decode reverted"
  | some params => do
    require (params.publicData.length == 9) "invalid number of public inputs in decoded data."
    require (params.ciphertexts.length == 2) "invalid number of ciphertexts in decoded data."
    return params

/-- `dispatch`. -/
def dispatch (msg : Msg) (args : DispatchArgs) (first second : External) (st : State) :
    Except String (State × Movement) := do
  let st := { st with balance := st.balance + msg.value }
  let params ← m.decodeDispatch msg args
  let inputs := copyInputs params.publicData
  let ciphertexts := copyCiphertexts params.ciphertexts
  require (args.nestedInputs.getD 0 0 == m.hashPublicProofData inputs)
    "hash of public data does not match primary input"
  let (st, nullifiers) ← m.checkMkrootNullifiersHsigAppendNullifiersState params.vk inputs st
  let hashToBeSigned := m.sha256 (dataToBeSigned msg.sender ciphertexts [] inputs)
  require (m.verifySignature params.vk params.sigma hashToBeSigned) "Invalid signature in dispatch"
  m.mixAppendCommitmentsEmitAndHandlePublicValues msg inputs ciphertexts nullifiers first second st

/-- A call of `insert`, which the mixer inherits, from outside. -/
def insert (commitment : Word) (st : State) : Except String State := do
  let tree ← AbstractMerkleTree.insert depth st.tree commitment
  return { st with tree := tree, log := st.log ++ [.inserted commitment] }

/-- `tokenFallback`, inherited from `ERC223ReceivingContract`: it reads four bytes of its argument
and has no effect. -/
def tokenFallback (data : Bytes) : Except String Unit :=
  require (decide (4 ≤ data.length)) "Panic(0x32)"

end Mixer

end Zeth
