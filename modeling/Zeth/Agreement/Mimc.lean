import Zeth.Circuit.MimcWitness
import Zeth.Client.Mimc
import Zeth.Contract.MixerCall
import Zeth.Contract.ScalarField

/-!
# One hash in the contract, the client and the circuit

The contract, the client and the circuit each have their own implementation of MiMC: in assembly on
words, on the integers of Python, and as a system of constraints. All three compute the same
function of the scalar field, and so do the hashes of the public inputs that are built on them. The
initialisation vector of these is larger than the order of the field; the client and the circuit
reduce it, the contract does not.

Keccak-256 is the same function in the contract and in the client; the table of constants of the
circuit holds its iterates. The seed that is written out in the contract is the hash of the string
from which the client starts.

## Main results

* `LibMiMC.cast_hashE17`: the hash of the contract in the field.
* `Agreement.mimc_agrees`.
-/

namespace Zeth

open ByteString R1CS List

/-! ### The contract -/

namespace LibMiMC

variable {r : Word}

theorem toNat_ofNat_mod (hr : r ≠ 0) (n : ℕ) :
    (BitVec.ofNat 256 (n % r.toNat)).toNat = n % r.toNat := by
  have hpos : 0 < r.toNat := Nat.pos_of_ne_zero fun h => hr (BitVec.eq_of_toNat_eq h)
  exact Nat.mod_eq_of_lt ((Nat.mod_lt n hpos).trans r.isLt)

theorem toNat_addmod (hr : r ≠ 0) (x y : Word) :
    (addmod x y r).toNat = (x.toNat + y.toNat) % r.toNat := by
  rw [addmod, if_neg hr, toNat_ofNat_mod hr]

theorem cast_addmod (hr : r ≠ 0) (x y : Word) :
    ((addmod x y r).toNat : ZMod r.toNat) = (x.toNat : ZMod r.toNat) + y.toNat := by
  rw [toNat_addmod hr, ZMod.natCast_mod, Nat.cast_add]

theorem cast_mulmod (hr : r ≠ 0) (x y : Word) :
    ((mulmod x y r).toNat : ZMod r.toNat) = (x.toNat : ZMod r.toNat) * y.toNat := by
  rw [mulmod, if_neg hr, toNat_ofNat_mod hr, ZMod.natCast_mod, Nat.cast_mul]

theorem cast_pow17 (hr : r ≠ 0) (a : Word) :
    ((pow17 a r).toNat : ZMod r.toNat) = (a.toNat : ZMod r.toNat) ^ 17 := by
  simp only [pow17, cast_mulmod hr]
  ring

variable (keccak256 : Word → Word)

theorem cast_hashRounds (hr : r ≠ 0) (y : Word) (n : ℕ) (pad a : Word) :
    ((hashRounds keccak256 y r n pad a).toNat : ZMod r.toNat) =
      Mimc.rounds 17 (y.toNat : ZMod r.toNat)
        ((List.iterate keccak256 (keccak256 pad) n).map fun w => (w.toNat : ZMod r.toNat))
        a.toNat := by
  induction n generalizing pad a with
  | zero => rfl
  | succ n ih =>
    rw [hashRounds, ih, cast_pow17 hr, cast_addmod hr, cast_addmod hr, List.iterate, map_cons,
      Mimc.rounds_cons, add_right_comm]

/-- The hash of the contract is the compression function of MiMC. -/
theorem cast_hashE17 (hr : r ≠ 0) (x y : Word) (rounds : ℕ) :
    ((hashE17 keccak256 x y r rounds).toNat : ZMod r.toNat) =
      Mimc.compress 17 (Mimc.constants keccak256 (fun w => (w.toNat : ZMod r.toNat)) seed rounds)
        x.toNat y.toNat := by
  simp only [hashE17, cast_addmod hr, cast_hashRounds keccak256 hr, cast_pow17 hr]
  rw [Mimc.compress, Mimc.constants, Mimc.rounds_cons, add_zero]
  exact add_assoc _ _ _

theorem toNat_hashE17_lt (hr : r ≠ 0) (x y : Word) (rounds : ℕ) :
    (hashE17 keccak256 x y r rounds).toNat < r.toNat := by
  rw [hashE17, toNat_addmod hr]
  exact Nat.mod_lt _ (Nat.pos_of_ne_zero fun h => hr (BitVec.eq_of_toNat_eq h))

end LibMiMC

namespace Curve

/-- The number of rounds selected by `mimc_compression_function_selector`. -/
def mimcRounds : Curve → ℕ
  | altBN128 => 65
  | bls12_377 => 62

theorem mimcRounds_pos (curve : Curve) : 0 < curve.mimcRounds := by
  cases curve with
  | altBN128 => exact Nat.succ_pos 64
  | bls12_377 => exact Nat.succ_pos 61

theorem r_ne_zero (curve : Curve) : curve.r ≠ 0 := by
  cases curve <;> decide

theorem nine_lt_r (curve : Curve) : 9 < curve.r.toNat := by
  cases curve <;> decide

theorem hash_eq_hashE17 (keccak256 : Word → Word) (curve : Curve) (x y : Word) :
    curve.hash keccak256 x y = LibMiMC.hashE17 keccak256 x y curve.r curve.mimcRounds := by
  cases curve <;> rfl

/-- The constants of the rounds, for the first `n` rounds. -/
def mimcConstants (keccak256 : Word → Word) (curve : Curve) (n : ℕ) : List curve.Fr :=
  Mimc.constants keccak256 (fun w => (w.toNat : curve.Fr)) LibMiMC.seed n

/-- The compression function in the scalar field. -/
def compress (keccak256 : Word → Word) (curve : Curve) : curve.Fr → curve.Fr → curve.Fr :=
  Mimc.compress 17 (curve.mimcConstants keccak256 curve.mimcRounds)

theorem cast_hash (keccak256 : Word → Word) (curve : Curve) (x y : Word) :
    ((curve.hash keccak256 x y).toNat : curve.Fr) =
      curve.compress keccak256 x.toNat y.toNat := by
  rw [hash_eq_hashE17]
  exact LibMiMC.cast_hashE17 keccak256 curve.r_ne_zero x y _

theorem toNat_hash_lt (keccak256 : Word → Word) (curve : Curve) (x y : Word) :
    (curve.hash keccak256 x y).toNat < curve.r.toNat := by
  rw [hash_eq_hashE17]
  exact LibMiMC.toNat_hashE17_lt keccak256 curve.r_ne_zero x y _

end Curve

/-! ### The hash of the public inputs in the contract -/

namespace Mixer

theorem cast_foldl_hash (keccak256 : Word → Word) (curve : Curve) (ws : List Word) (w : Word) :
    ((ws.foldl (curve.hash keccak256) w).toNat : curve.Fr) =
      (ws.map fun w => (w.toNat : curve.Fr)).foldl (curve.compress keccak256) w.toNat := by
  induction ws generalizing w with
  | nil => rfl
  | cons v ws ih => rw [foldl_cons, ih, curve.cast_hash, map_cons, foldl_cons]

theorem cast_hashPublicProofData (m : Mixer) (keccak256 : Word → Word) (curve : Curve)
    (publicData : Inputs) :
    (((m.onCurve curve keccak256).hashPublicProofData publicData).toNat : curve.Fr) =
      Mimc.chain (curve.compress keccak256) inputHashIv.toNat
        ((List.finRange 9).map fun i => ((publicData i).toNat : curve.Fr)) := by
  have hfold : (List.finRange 9).foldl (fun h i => curve.hash keccak256 h (publicData i))
      inputHashIv = ((List.finRange 9).map publicData).foldl (curve.hash keccak256) inputHashIv :=
    foldl_map.symm
  refine (curve.cast_hash keccak256 _ _).trans ?_
  have hchain := cast_foldl_hash keccak256 curve ((List.finRange 9).map publicData) inputHashIv
  rw [← hfold, map_map] at hchain
  rw [Mimc.chain, length_map, length_finRange]
  exact congrArg (curve.compress keccak256 · (9 : ℕ)) hchain

end Mixer

/-! ### The client -/

namespace Client

variable (keccak256 : Bytes → Word)

/-- `get_tree_hash_for_pairing`. -/
def getTreeHashForPairing : Curve → MiMC
  | .altBN128 => miMCAltBN128 keccak256
  | .bls12_377 => miMCBLS12377 keccak256

/-- Keccak-256 of one word. -/
def keccakWord (w : Word) : Word := keccak256 (toBig 32 w.toNat)

variable (curve : Curve)

theorem getTreeHashForPairing_prime :
    (getTreeHashForPairing keccak256 curve).prime = curve.r.toNat := by
  cases curve <;> rfl

theorem getTreeHashForPairing_numRounds :
    (getTreeHashForPairing keccak256 curve).numRounds = curve.mimcRounds := by
  cases curve <;> rfl

theorem getTreeHashForPairing_seed :
    (getTreeHashForPairing keccak256 curve).seed = (keccak256 (strToBytes mimcMtSeed)).toNat := by
  cases curve <;> rfl

/-- The client and the contract have the same constants when the seed of the contract is the hash of
the string of the client. -/
theorem constants_getTreeHashForPairing
    (hseed : keccak256 (strToBytes mimcMtSeed) = LibMiMC.seed) :
    (getTreeHashForPairing keccak256 curve).constants keccak256 curve.r.toNat =
      curve.mimcConstants (keccakWord keccak256) curve.mimcRounds := by
  have hsemiconj : Function.Semiconj BitVec.toNat (keccakWord keccak256)
      (MiMC.keccakNat keccak256) := fun _ => rfl
  rw [MiMC.constants, getTreeHashForPairing_numRounds, getTreeHashForPairing_seed, hseed,
    Mimc.constants_semiconj hsemiconj]
  rfl

end Client

/-! ### Agreement -/

namespace Agreement

open Client

/-- Numbers below the order of the field with equal residues are equal. -/
theorem eq_of_cast_eq {curve : Curve} {a b : ℕ} (ha : a < curve.r.toNat) (hb : b < curve.r.toNat)
    (h : (a : curve.Fr) = b) : a = b := by
  have hmod := (ZMod.natCast_eq_natCast_iff' a b curve.r.toNat).mp h
  rwa [Nat.mod_eq_of_lt ha, Nat.mod_eq_of_lt hb] at hmod

variable {keccak256 : Bytes → Word} (hseed : keccak256 (strToBytes mimcMtSeed) = LibMiMC.seed)
  {curve : Curve}

include hseed

theorem client_hash (x y : Word) :
    (getTreeHashForPairing keccak256 curve).hash keccak256 (toBig 32 x.toNat) (toBig 32 y.toNat) =
      .ok (toBig 32 (curve.hash (keccakWord keccak256) x y).toNat) := by
  have hr : 0 < curve.r.toNat := curve.prime_r.pos
  have hprime := getTreeHashForPairing_prime keccak256 curve
  have hread (w : Word) : fromBig (toBig 32 w.toNat) = w.toNat :=
    (fromBig_toBig 32 w.toNat).trans (Nat.mod_eq_of_lt w.isLt)
  obtain ⟨h, hok, hlt, hcast⟩ := (getTreeHashForPairing keccak256 curve).hashInt_eq_ok keccak256
    (by rw [getTreeHashForPairing_seed]; exact BitVec.isLt _) hprime
    (Nat.mod_lt x.toNat hr) (Nat.mod_lt y.toNat hr)
  have hsame : h = (curve.hash (keccakWord keccak256) x y).toNat := by
    refine eq_of_cast_eq hlt (curve.toNat_hash_lt _ x y) ?_
    rw [hcast, constants_getTreeHashForPairing keccak256 curve hseed, ZMod.natCast_mod,
      ZMod.natCast_mod, curve.cast_hash]
    rfl
  rw [MiMC.hash, hread, hread, hprime, hok, ← hsame]
  exact if_pos (hlt.trans curve.r.isLt)

theorem client_inputHasher (m : Mixer) {publicData : Inputs}
    (hpublicData : ∀ i, (publicData i).toNat < curve.r.toNat) :
    ∃ hasher, InputHasher.new (getTreeHashForPairing keccak256 curve) defaultIvUint256 = .ok hasher ∧
      hasher.hash keccak256 ((List.finRange 9).map fun i => (publicData i).toNat) =
        .ok ((m.onCurve curve (keccakWord keccak256)).hashPublicProofData publicData).toNat := by
  have hprime := getTreeHashForPairing_prime keccak256 curve
  have hvalues : ∀ value ∈ (List.finRange 9).map fun i => (publicData i).toNat,
      value < curve.r.toNat := by
    rintro value hvalue
    obtain ⟨i, -, rfl⟩ := mem_map.mp hvalue
    exact hpublicData i
  have hlen : ((List.finRange 9).map fun i => (publicData i).toNat).length < curve.r.toNat := by
    rw [length_map, length_finRange]
    exact curve.nine_lt_r
  obtain ⟨hasher, h, hnew, hok, hlt, hcast⟩ := InputHasher.hash_eq_ok keccak256
    (by rw [getTreeHashForPairing_seed]; exact BitVec.isLt _) hprime
    (curve.r.isLt.trans (by decide)) defaultIvUint256 hvalues hlen
  refine ⟨hasher, hnew, hok.trans (congrArg Except.ok ?_)⟩
  refine eq_of_cast_eq hlt (curve.toNat_hash_lt _ _ _) ?_
  rw [hcast, constants_getTreeHashForPairing keccak256 curve hseed, map_map,
    m.cast_hashPublicProofData]
  rfl

/-- **One hash.** For words `x` and `y`, the hash of the contract is below the order of the field, the
client returns its bytes, and every satisfying assignment of the gadget on linear combinations with
the values of `x` and `y` has it as its result. For nine field elements the same holds of the hash of
the public inputs. -/
theorem mimc_agrees {roundConstants : List curve.Fr}
    (htable : roundConstants = curve.mimcConstants (keccakWord keccak256) 93) (m : Mixer) :
    (∀ x y : Word,
      (curve.hash (keccakWord keccak256) x y).toNat < curve.r.toNat ∧
      (getTreeHashForPairing keccak256 curve).hash keccak256 (toBig 32 x.toNat)
          (toBig 32 y.toNat) =
        .ok (toBig 32 (curve.hash (keccakWord keccak256) x y).toNat) ∧
      ∀ (σ : Assignment curve.Fr) (lx ly : LinearCombination curve.Fr) (result : Var)
        (start next : ℕ), lx.eval σ = x.toNat → ly.eval σ = y.toNat →
        Satisfies σ (Circuit.roundRows 17
          (Circuit.MimcMp.new curve.mimcRounds roundConstants lx ly result start).1 next) →
        σ result = (curve.hash (keccakWord keccak256) x y).toNat) ∧
    ∀ publicData : Inputs, (∀ i, (publicData i).toNat < curve.r.toNat) →
      ((m.onCurve curve (keccakWord keccak256)).hashPublicProofData publicData).toNat <
        curve.r.toNat ∧
      (∃ hasher,
        InputHasher.new (getTreeHashForPairing keccak256 curve) defaultIvUint256 = .ok hasher ∧
        hasher.hash keccak256 ((List.finRange 9).map fun i => (publicData i).toNat) =
          .ok ((m.onCurve curve (keccakWord keccak256)).hashPublicProofData publicData).toNat) ∧
      ∀ (σ : Assignment curve.Fr) (inputs : List (LinearCombination curve.Fr)) (result : Var)
        (hasher : Alloc (List (List (Circuit.MimcRound curve.Fr)))) (start next : ℕ),
        inputs.map (LinearCombination.eval σ) =
          (List.finRange 9).map (fun i => ((publicData i).toNat : curve.Fr)) →
        Circuit.MimcInputHasher.new curve.mimcRounds roundConstants inputs result = .ok hasher →
        Satisfies σ (Circuit.roundRows 17 (hasher start).1.flatten next) →
        σ result = ((m.onCurve curve (keccakWord keccak256)).hashPublicProofData publicData).toNat := by
  have hrounds : curve.mimcRounds ≤ 93 := by
    cases curve <;> decide
  have htake : roundConstants.take curve.mimcRounds =
      curve.mimcConstants (keccakWord keccak256) curve.mimcRounds := by
    rw [htable]
    exact Mimc.take_constants _ _ _ curve.mimcRounds_pos hrounds
  have hlen : curve.mimcRounds ≤ roundConstants.length := by
    rw [htable, Curve.mimcConstants, Mimc.length_constants _ _ _ (by decide)]
    exact hrounds
  have hbits : Circuit.MimcRound.ReadsBits 17 := Circuit.MimcRound.readsBits_of_size_ne (by decide)
  refine ⟨fun x y => ⟨curve.toNat_hash_lt _ x y, client_hash hseed x y, ?_⟩,
    fun publicData hpublicData => ⟨curve.toNat_hash_lt _ _ _,
      client_inputHasher hseed m hpublicData, ?_⟩⟩
  · intro σ lx ly result start next hx hy hrows
    have hcomputes := Circuit.computes_of_mem (by decide) (by decide) hbits hrows
    rw [Circuit.MimcMp.result_eq curve.mimcRounds_pos hlen hcomputes, htake, hx, hy,
      curve.cast_hash]
    rfl
  · intro σ inputs result hasher start next hinputs hnew hrows
    rw [Circuit.MimcInputHasher.result_eq (by decide) (by decide) hbits curve.mimcRounds_pos hlen
      hnew hrows, htake, hinputs, m.cast_hashPublicProofData]
    rfl

omit hseed in
/-- With a hash that has the seed of the contract, the gadget for zero and one has a satisfying
assignment, and its result is the hash of the contract. -/
theorem mimc_agrees_zero_one :
    ∃ keccak256 : Bytes → Word, keccak256 (strToBytes mimcMtSeed) = LibMiMC.seed ∧
      ∃ σ : Assignment Curve.altBN128.Fr,
        Satisfies σ (Circuit.roundRows 17 (Circuit.MimcMp.new 65
          (Curve.altBN128.mimcConstants (keccakWord keccak256) 93) (.var 1) (.var 2) 3 4).1 68) ∧
        σ 3 = (Curve.altBN128.hash (keccakWord keccak256) 0 1).toNat := by
  let keccak256 : Bytes → Word := fun _ => LibMiMC.seed
  have horderly : Circuit.Orderly (4 + (65 - 1)) (Circuit.MimcMp.new 65
      (Curve.altBN128.mimcConstants (keccakWord keccak256) 93) (.var 1) (.var 2) 3 4).1 :=
    Circuit.MimcMp.orderly_new (by decide) fun v hv => by
      rcases mem_pair.mp hv with rfl | rfl <;> decide
  obtain ⟨σ, hrows, hsame⟩ := horderly.exists_satisfies (Assignment.blank.set 2 1)
  have hargs : ∀ v < 3, σ v = Assignment.blank.set 2 1 v := fun v hv =>
    hsame v (hv.trans (by decide)) (by
      rw [Circuit.MimcMp.map_result_new]
      exact Circuit.notMem_fresh (hv.trans (by decide)) hv.ne _)
  have hx : (LinearCombination.var 1).eval σ = ((0 : Word).toNat : Curve.altBN128.Fr) := by
    rw [LinearCombination.eval_var, hargs 1 (by decide)]
    rfl
  have hy : (LinearCombination.var 2).eval σ = ((1 : Word).toNat : Curve.altBN128.Fr) := by
    rw [LinearCombination.eval_var, hargs 2 (by decide)]
    rfl
  have hagrees := (@mimc_agrees keccak256 rfl .altBN128 _ rfl (Mixer.permissive fun x _ => x)).1 0 1
  exact ⟨keccak256, rfl, σ, hrows, hagrees.2.2 σ _ _ 3 4 68 hx hy hrows⟩

end Agreement

end Zeth
