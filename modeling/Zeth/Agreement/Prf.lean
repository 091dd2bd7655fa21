import Mathlib.Tactic.DeriveFintype
import Zeth.Circuit.Note
import Zeth.Client.Prf

/-!
# One set of pseudorandom functions in the client and the circuit

The client hashes byte strings, the gadgets of the circuit arrays of wires. For the same keys, nonces
and signature hashes the 512 bits of the two are the same. The tags of the four functions, with the
index of the note for two of them, are different, so that no two functions hash the same block.

## Main definitions

* `PrfKind`, `PrfKind.input`: the blocks that the gadgets pass to their hashers.

## Main results

* `Agreement.prf_blocks_agree`.
-/

namespace Zeth

namespace Agreement

open ByteString Circuit Client Python R1CS

variable {F : Type} [Field F]

/-- The pseudorandom functions of the circuit, for two notes. -/
inductive PrfKind where
  | addr
  | nf
  | pk (index : Fin 2)
  | rho (index : Fin 2)
  deriving DecidableEq, Fintype

/-- The wires that the gadget passes to its hasher: `key` is the key or `phi`, and `right` the second
half, which `PRF_addr_a_pk_gadget` does not have. -/
def PrfKind.input (H : HashGadget F) (ZERO : Var) (key right result : List Var) (next : ℕ) :
    PrfKind → List Var
  | addr => (PrfGadget.addrAPk H ZERO key result next).1.input
  | nf => (PrfGadget.nf H ZERO key right result next).1.input
  | pk index => (PrfGadget.pk H ZERO key right index result next).1.input
  | rho index => (PrfGadget.rho H ZERO key right index result next).1.input

/-- The tag of a function. -/
def PrfKind.tag : PrfKind → List Bool
  | addr => [true, true, false, false]
  | nf => [true, true, true, false]
  | pk index => [false, index.val == 1, false, false]
  | rho index => [false, index.val == 1, true, false]

/-- The second half of a block. -/
def PrfKind.rightHalf (H : HashGadget F) (ZERO : Var) (right : List Var) : PrfKind → List Var
  | addr => List.replicate (H.blockLen / 2) ZERO
  | _ => right

theorem PrfKind.tag_injective : ∀ kind kind' : PrfKind, kind.tag = kind'.tag → kind = kind' := by
  decide

variable {H : HashGadget F} {ZERO : Var} {σ : Assignment F} {key right result : List Var} {next : ℕ}

/-- The wires of a block: the tag, 252 bits of the key, and the second half. -/
theorem PrfKind.input_eq (kind : PrfKind) :
    kind.input H ZERO key right result next =
      (kind.tag.map fun b => if b then ONE else ZERO) ++ key.take 252 ++
        kind.rightHalf H ZERO right := by
  have hindex : ∀ index : Fin 2,
      (if index.val = 0 then ZERO else ONE) = if index.val == 1 then ONE else ZERO := by
    intro index
    fin_cases index <;> rfl
  cases kind with
  | addr => rfl
  | nf => rfl
  | pk index =>
    simp only [input, PrfGadget.pk, PrfGadget.getTagPk, hindex]
    rfl
  | rho index =>
    simp only [input, PrfGadget.rho, PrfGadget.getTagRho, hindex]
    rfl

/-- The bits of a block. -/
theorem PrfKind.carries_input (hzero : σ ZERO = 0) {keyBits rightBits : List Bool}
    (hkey : Carries σ key keyBits) (hright : Carries σ right rightBits) {kind : PrfKind}
    (hkind : kind ≠ addr) :
    Carries σ (kind.input H ZERO key right result next)
      (kind.tag ++ keyBits.take 252 ++ rightBits) := by
  rw [input_eq]
  refine ((PrfGadget.carries_tag hzero _).append (hkey.take 252)).append ?_
  cases kind with
  | addr => exact absurd rfl hkind
  | _ => exact hright

theorem PrfKind.carries_input_addr (hH : H.blockLen = 512) (hzero : σ ZERO = 0)
    {keyBits : List Bool} (hkey : Carries σ key keyBits) :
    Carries σ (addr.input H ZERO key right result next)
      (addr.tag ++ keyBits.take 252 ++ List.replicate 256 false) := by
  rw [input_eq]
  refine ((PrfGadget.carries_tag hzero _).append (hkey.take 252)).append ?_
  rw [rightHalf, hH, Carries, List.map_replicate, List.map_replicate, hzero]
  rfl

/-- Blocks of different functions differ in their tags. -/
theorem PrfKind.input_ne (hzero : σ ZERO = 0) {σ' : Assignment F} {ZERO' : Var}
    (hzero' : σ' ZERO' = 0) {key' right' result' : List Var} {next' : ℕ} {kind kind' : PrfKind}
    (hne : kind ≠ kind') :
    (kind.input H ZERO key right result next).map σ ≠
      (kind'.input H ZERO' key' right' result' next').map σ' := by
  intro heq
  have hfour : ∀ kind : PrfKind, kind.tag.length = 4 := by decide
  rw [input_eq, input_eq, List.append_assoc, List.append_assoc, List.map_append,
    PrfGadget.carries_tag hzero, List.map_append, List.map_append,
    PrfGadget.carries_tag hzero'] at heq
  have htag := (List.append_inj heq (by simp [hfour])).1
  exact hne (tag_injective _ _ (ofBool_injective.list_map htag))

theorem length_block {block key : Bytes} {tag right : List Bool}
    (h : toBits block = tag ++ (toBits key).take 252 ++ right) (htag : tag.length = 4)
    (hkey : key.length = 32) (hright : right.length = 256) : block.length = 64 := by
  have hlen := congrArg List.length h
  rw [List.length_append, length_tagged htag hkey, hright, length_toBits] at hlen
  omega

/-- The client and the circuit hash the same blocks to derive owners, nullifiers and nonces, and no
two functions hash the same block. -/
theorem prf_blocks_agree (E : EthAbi) (H : HashGadget F) (hH : H.blockLen = 512)
    (σ : Assignment F) (ZERO : Var) (hzero : σ ZERO = 0) :
    (∀ aSk : Bytes, aSk.length = 32 → ∀ key, Carries σ key (toBits aSk) → ∀ right result next,
      ∃ block, block.length = 64 ∧ deriveAPkBlock E aSk = .ok block ∧
        deriveAPk E aSk = .ok (Blake2s.hash block) ∧
        Carries σ (PrfKind.addr.input H ZERO key right result next) (toBits block)) ∧
    (∀ aSk rho : Bytes, aSk.length = 32 → rho.length = 32 →
      ∀ note : ZethNote, fromhex note.rho = .ok rho →
      ∀ key, Carries σ key (toBits aSk) → ∀ right, Carries σ right (toBits rho) → ∀ result next,
      ∃ block, block.length = 64 ∧ nullifierBlock note aSk = .ok block ∧
        computeNullifier note aSk = .ok (Blake2s.hash block) ∧
        Carries σ (PrfKind.nf.input H ZERO key right result next) (toBits block)) ∧
    (∀ phi hSig : Bytes, phi.length = 32 → hSig.length = 32 →
      ∀ key, Carries σ key (toBits phi) → ∀ right, Carries σ right (toBits hSig) →
      ∀ (index : Fin 2) result next,
      ∃ block, block.length = 64 ∧ computeRhoIBlock phi hSig index = .ok block ∧
        computeRhoI phi hSig index = .ok (Blake2s.hash block) ∧
        Carries σ ((PrfKind.rho index).input H ZERO key right result next) (toBits block)) ∧
    ∀ kind kind' : PrfKind, kind ≠ kind' →
      ∀ (σ' : Assignment F) ZERO', σ' ZERO' = 0 →
      ∀ key right result next key' right' result' next',
        (kind.input H ZERO key right result next).map σ ≠
          (kind'.input H ZERO' key' right' result' next').map σ' := by
  refine ⟨?_, ?_, ?_, ?_⟩
  · intro aSk haSk key hkey right result next
    obtain ⟨block, hblock, hbits⟩ := exists_deriveAPkBlock E haSk
    refine ⟨block, ?_, hblock, ?_, ?_⟩
    · exact length_block hbits rfl haSk List.length_replicate
    · rw [deriveAPk, hblock]
      rfl
    · rw [hbits]
      exact PrfKind.carries_input_addr hH hzero hkey
  · intro aSk rho haSk hrho note hnote key hkey right hright result next
    obtain ⟨block, hblock, hbits⟩ := exists_nullifierBlock haSk hnote
    refine ⟨block, ?_, hblock, ?_, ?_⟩
    · exact length_block hbits rfl haSk (by rw [length_toBits, hrho])
    · rw [computeNullifier_eq, hblock]
      rfl
    · rw [hbits]
      exact PrfKind.carries_input hzero hkey hright nofun
  · intro phi hSig hphi hhSig key hkey right hright index result next
    obtain ⟨block, hblock, hbits⟩ := exists_computeRhoIBlock hSig hphi index.isLt
    refine ⟨block, ?_, hblock, ?_, ?_⟩
    · exact length_block hbits rfl hphi (by rw [length_toBits, hhSig])
    · rw [computeRhoI, hblock]
      rfl
    · rw [hbits]
      exact PrfKind.carries_input hzero hkey hright nofun
  · intro kind kind' hne σ' ZERO' hzero' key right result next key' right' result' next'
    exact PrfKind.input_ne hzero hzero' hne

/-- Thirty-two bytes that count up. -/
def countingBytes (start : ℕ) : Bytes := (List.range' start 32).map (BitVec.ofNat 8)

/-- The owner, a nullifier and a nonce, for a key that counts from zero and a second half that counts
on, with all bits on wires of their own. -/
theorem prf_blocks_agree_counting :
    ∃ σ : Assignment SampleField, ∃ addr nf rho,
      deriveAPk ⟨fun l => .ok l.flatten, fun _ => rfl⟩ (countingBytes 0) =
        .ok (Blake2s.hash addr) ∧
      Carries σ (PrfKind.addr.input (.copyLast (F := SampleField) 256) 1 (List.range' 2 256) [] [] 514)
        (toBits addr) ∧
      computeNullifier ⟨"", "", hex (countingBytes 32), ""⟩ (countingBytes 0) =
        .ok (Blake2s.hash nf) ∧
      Carries σ (PrfKind.nf.input (.copyLast (F := SampleField) 256) 1 (List.range' 2 256)
        (List.range' 258 256) [] 514) (toBits nf) ∧
      computeRhoI (countingBytes 0) (countingBytes 32) 1 = .ok (Blake2s.hash rho) ∧
      Carries σ ((PrfKind.rho 1).input (.copyLast (F := SampleField) 256) 1 (List.range' 2 256)
        (List.range' 258 256) [] 514) (toBits rho) := by
  have hlen : ([] ++ List.range' 2 256 ++ List.range' 258 256).length =
      (toBits (countingBytes 0) ++ toBits (countingBytes 32)).length := by
    simp [countingBytes]
  obtain ⟨σ, hcarries, hold⟩ := (((Allocated.nil 2).append_range' two_pos 256).append_range'
    (by norm_num) 256).exists_carries (F := SampleField) hlen .blank
  have hzero : σ 1 = 0 := hold 1 (by simp)
  obtain ⟨hkey, hright⟩ := (carries_append_iff (by simp [countingBytes])).mp hcarries
  obtain ⟨haddr, hnf, hrho, -⟩ := prf_blocks_agree ⟨fun l => .ok l.flatten, fun _ => rfl⟩
    (.copyLast (F := SampleField) 256) rfl σ 1 hzero
  obtain ⟨addr, -, -, hapk, haddr⟩ := haddr _ rfl _ hkey [] [] 514
  obtain ⟨nf, -, -, hnullifier, hnf⟩ := hnf _ _ rfl rfl ⟨"", "", hex (countingBytes 32), ""⟩
    (fromhex_hex _) _ hkey _ hright [] 514
  obtain ⟨rho, -, -, hnonce, hrho⟩ := hrho _ _ rfl rfl _ hkey _ hright 1 [] 514
  exact ⟨σ, addr, nf, rho, hapk, haddr, hnullifier, hnf, hnonce, hrho⟩

end Agreement

end Zeth
