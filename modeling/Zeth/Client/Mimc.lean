import Mathlib.Data.ZMod.Basic
import Zeth.Foundation.Mimc
import Zeth.Foundation.Python

/-!
# MiMC and the input hasher of the client

The client computes MiMC with the integers of Python (`client/zeth/core/mimc.py`): the arguments are
reduced at the start and each power of a sum after it has been taken. The constants of the rounds
are the iterates of Keccak-256 on the hash of a seed string and are not reduced. A list of field
elements is hashed by a chain of compressions (`client/zeth/core/input_hasher.py`).

Keccak-256 is a parameter.

## Main definitions

* `Client.MiMC`, `Client.MiMC.encrypt`, `Client.MiMC.hashInt`, `Client.MiMC.hash`.
* `Client.InputHasher`, `Client.InputHasher.hash`.

## Main results

* `Client.MiMC.hashInt_eq_ok`, `Client.InputHasher.hash_eq_ok`.
-/

namespace Zeth.Client

open ByteString Python

variable (keccak256 : Bytes → BitVec 256)

/-- `_str_to_bytes`, for strings of ASCII characters. -/
def strToBytes (value : String) : Bytes := value.toList.map fun c => BitVec.ofNat 8 c.toNat

/-- `_update_round_constant`. -/
def updateRoundConstant (rc : ℕ) : Except Exc ℕ := do
  return (keccak256 (← toBytesBig 32 rc)).toNat

/-- `MiMC17Base`. -/
structure MiMC where
  seed : ℕ
  prime : ℕ
  numRounds : ℕ
  deriving DecidableEq, Repr

namespace MiMC

/-- `MiMCBase.__init__`. -/
def new (seedStr : String) (prime numRounds : ℕ) : MiMC where
  seed := (keccak256 (strToBytes seedStr)).toNat
  prime := prime
  numRounds := numRounds

variable (m : MiMC)

/-- `MiMC17Base.mimc_round`. -/
def mimcRound (message key rc : ℕ) : ℕ := (message + key + rc) ^ 17 % m.prime

/-- The loop of `encrypt` over the rounds after the first. -/
def encryptRounds (key : ℕ) : ℕ → ℕ → ℕ → Except Exc ℕ
  | 0, _, result => .ok result
  | n + 1, roundConstant, result => do
    let roundConstant ← updateRoundConstant keccak256 roundConstant
    encryptRounds key n roundConstant (m.mimcRound result key roundConstant)

/-- `encrypt`. -/
def encrypt (message ek : ℕ) : Except Exc ℕ := do
  let result := message % m.prime
  let key := ek % m.prime
  let result := m.mimcRound result key 0
  let result ← m.encryptRounds keccak256 key (m.numRounds - 1) m.seed result
  return (result + key) % m.prime

/-- `hash_int`. -/
def hashInt (x y : ℕ) : Except Exc ℕ := do
  assert (x < m.prime) ""
  assert (y < m.prime) ""
  return ((← m.encrypt keccak256 x y) + x + y) % m.prime

/-- `hash`. -/
def hash (left right : Bytes) : Except Exc Bytes := do
  let x := fromBig left % m.prime
  let y := fromBig right % m.prime
  toBytesBig 32 (← m.hashInt keccak256 x y)

/-! ### What is computed -/

/-- Keccak-256 on numbers, by their 32 bytes. -/
def keccakNat (rc : ℕ) : ℕ := (keccak256 (toBig 32 rc)).toNat

theorem updateRoundConstant_eq_ok {rc : ℕ} (hrc : rc < 2 ^ 256) :
    updateRoundConstant keccak256 rc = .ok (keccakNat keccak256 rc) := by
  have hbytes : toBytesBig 32 rc = .ok (toBig 32 rc) := if_pos hrc
  rw [updateRoundConstant, hbytes]
  rfl

/-- The constants of the rounds modulo a number. -/
def constants (p : ℕ) : List (ZMod p) :=
  Mimc.constants (keccakNat keccak256) Nat.cast m.seed m.numRounds

theorem cast_mimcRound (message key rc : ℕ) :
    (m.mimcRound message key rc : ZMod m.prime) =
      ((message : ZMod m.prime) + key + rc) ^ 17 := by
  rw [mimcRound, ZMod.natCast_mod]
  push_cast
  rfl

/-- The rounds are those of MiMC in the field. -/
theorem encryptRounds_eq_ok (key n : ℕ) {roundConstant : ℕ} (hrc : roundConstant < 2 ^ 256)
    (result : ℕ) : ∃ result', m.encryptRounds keccak256 key n roundConstant result = .ok result' ∧
      (result' : ZMod m.prime) = Mimc.rounds 17 (key : ZMod m.prime)
        ((List.iterate (keccakNat keccak256) (keccakNat keccak256 roundConstant) n).map Nat.cast)
        result := by
  induction n generalizing roundConstant result with
  | zero => exact ⟨result, rfl, rfl⟩
  | succ n ih =>
    have hnext : keccakNat keccak256 roundConstant < 2 ^ 256 := BitVec.isLt _
    obtain ⟨result', hok, hresult'⟩ := ih hnext
      (m.mimcRound result key (keccakNat keccak256 roundConstant))
    refine ⟨result', ?_, ?_⟩
    · rw [encryptRounds, updateRoundConstant_eq_ok keccak256 hrc, Except.ok_bind]
      exact hok
    · rw [hresult', cast_mimcRound, List.iterate, List.map_cons, Mimc.rounds_cons]

/-- On field elements `hash_int` is the compression function of MiMC. -/
theorem hashInt_eq_ok (hseed : m.seed < 2 ^ 256) {p : ℕ} (hp : m.prime = p) {x y : ℕ} (hx : x < p)
    (hy : y < p) : ∃ h, m.hashInt keccak256 x y = .ok h ∧ h < p ∧
      (h : ZMod p) = Mimc.compress 17 (m.constants keccak256 p) x y := by
  subst hp
  obtain ⟨result, hok, hresult⟩ := m.encryptRounds_eq_ok keccak256 (y % m.prime) (m.numRounds - 1)
    hseed (m.mimcRound (x % m.prime) (y % m.prime) 0)
  refine ⟨((result + y % m.prime) % m.prime + x + y) % m.prime, ?_, ?_, ?_⟩
  · rw [hashInt, assert_decide hx, assert_decide hy, Except.ok_bind, Except.ok_bind, encrypt, hok]
    rfl
  · exact Nat.mod_lt _ (Nat.zero_lt_of_lt hx)
  · rw [cast_mimcRound] at hresult
    simp only [ZMod.natCast_mod, Nat.cast_add, Nat.cast_zero] at hresult ⊢
    rw [hresult, Mimc.compress, constants, Mimc.constants, Mimc.rounds_cons,
      add_assoc _ (x : ZMod m.prime)]

end MiMC

/-- `MIMC_MT_SEED`. -/
def mimcMtSeed : String := "clearmatics_mt_seed"

/-- `MiMCAltBN128`. -/
def miMCAltBN128 : MiMC :=
  MiMC.new keccak256 mimcMtSeed
    21888242871839275222246405745257275088548364400416034343698204186575808495617 65

/-- `MiMCBLS12_377`. -/
def miMCBLS12377 : MiMC :=
  MiMC.new keccak256 mimcMtSeed
    8444461749428370424248824938781546531375899335154063827935233455917409239041 62

/-! ### The input hasher -/

/-- `DEFAULT_IV_UINT256`. -/
def defaultIvUint256 : ℕ :=
  13196537064117388418196223856311987714388543839552400408340921397545324034315

/-- `InputHasher`. -/
structure InputHasher where
  compressionFn : MiMC
  iv : ℕ
  deriving DecidableEq, Repr

namespace InputHasher

/-- `InputHasher.__init__`. -/
def new (compressionFn : MiMC) (iv : ℕ) : Except Exc InputHasher := do
  assert (compressionFn.prime < 2 <<< 256) ""
  return ⟨compressionFn, iv % compressionFn.prime⟩

/-- `hash`. -/
def hash (hasher : InputHasher) (values : List ℕ) : Except Exc ℕ := do
  let current ← values.foldlM (hasher.compressionFn.hashInt keccak256) hasher.iv
  hasher.compressionFn.hashInt keccak256 current values.length

/-- A chain of compressions of field elements. -/
theorem foldlM_hashInt {m : MiMC} (hseed : m.seed < 2 ^ 256) {p : ℕ} (hp : m.prime = p)
    {values : List ℕ} (hvalues : ∀ value ∈ values, value < p) {current : ℕ}
    (hcurrent : current < p) :
    ∃ h, values.foldlM (m.hashInt keccak256) current = .ok h ∧ h < p ∧
      (h : ZMod p) = (values.map Nat.cast).foldl
        (Mimc.compress 17 (m.constants keccak256 p)) (current : ZMod p) := by
  induction values generalizing current with
  | nil => exact ⟨current, rfl, hcurrent, rfl⟩
  | cons value values ih =>
    obtain ⟨hvalue, hvalues⟩ := List.forall_mem_cons.mp hvalues
    obtain ⟨next, hnext, hlt, hcast⟩ := m.hashInt_eq_ok keccak256 hseed hp hcurrent hvalue
    obtain ⟨h, hok, hlt', hcast'⟩ := ih hvalues hlt
    refine ⟨h, ?_, hlt', ?_⟩
    · rw [List.foldlM_cons, hnext, Except.ok_bind, hok]
    · rw [hcast', hcast]
      rfl

/-- The hash of fewer field elements than the prime. -/
theorem hash_eq_ok {m : MiMC} (hseed : m.seed < 2 ^ 256) {p : ℕ} (hp : m.prime = p)
    (hprime : p < 2 <<< 256) (iv : ℕ) {values : List ℕ} (hvalues : ∀ value ∈ values, value < p)
    (hlen : values.length < p) :
    ∃ hasher h, new m iv = .ok hasher ∧ hasher.hash keccak256 values = .ok h ∧ h < p ∧
      (h : ZMod p) = Mimc.chain (Mimc.compress 17 (m.constants keccak256 p)) iv
        (values.map Nat.cast) := by
  have hiv : iv % p < p := Nat.mod_lt _ (Nat.zero_lt_of_lt hlen)
  obtain ⟨current, hcurrent, hlt, hcast⟩ := foldlM_hashInt keccak256 hseed hp hvalues hiv
  obtain ⟨h, hok, hlt', hcast'⟩ := m.hashInt_eq_ok keccak256 hseed hp hlt hlen
  subst hp
  refine ⟨⟨m, iv % m.prime⟩, h, ?_, ?_, hlt', ?_⟩
  · rw [new, assert_decide hprime]
    rfl
  · rw [hash, hcurrent, Except.ok_bind, hok]
  · rw [hcast', hcast, ZMod.natCast_mod, Mimc.chain, List.length_map]

end InputHasher

end Zeth.Client
