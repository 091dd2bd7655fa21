import Zeth.Contract.AltBN128
import Zeth.Contract.Mixer

/-!
# One-time Schnorr signatures in the contract

`LibOTSchnorrVerifier.sol`: a signature `sigma` of a message under a key `(X, Y)` of two points is
accepted if `sigma • G = Y + h • X`, where `h` is the SHA-256 hash of the words of `Y` and the
message. The assembly computes both sides in one pad of five words, with the results of the
precompiled contracts written over their arguments, and ignores whether the calls succeeded.

A call that fails leaves its argument in the place of its result. If `Y` is not a point the left side
is compared with the words of `Y`, and no signature is accepted. If `X` is not a point then both the
multiplication and the addition fail, so that `Y` itself is compared: a signature is accepted for
`Y = sigma • G`, whatever the message (`OTSchnorr.verify_eq_true_iff`).

## Main definitions

* `OTSchnorr.verify`, `OTSchnorr.IsSignature`.

## Main results

* `OTSchnorr.verify_eq_true_iff`, `OTSchnorr.signature_exact_iff`.
-/

namespace Zeth

namespace OTSchnorr

open AltBN128 PairingGroups

/-- The contract at address 2. -/
def sha256Precompile (sha256 : ByteString.Bytes → Word) : Evm.Precompile Word := fun ws =>
  some [sha256 (ws.flatMap wordBytes)]

variable (sha256 : ByteString.Bytes → Word) (vk : Fin 4 → Word) (sigma hashToBeSigned : Word)

/-- `LibOTSchnorrVerifier._verify`. -/
def verify : Bool :=
  let pad : Evm.Memory Word := fun _ => 0
  -- The hash of the words of `Y` and the message goes to position `4`.
  let pad := pad.write 0 [vk 2, vk 3, hashToBeSigned]
  let pad := (Evm.call (sha256Precompile sha256) 0 3 4 1 pad).1
  -- `h • X` over `X`, then the sum over `Y`.
  let pad := pad.write 2 [vk 0, vk 1]
  let pad := (Evm.call bn256ScalarMul 2 3 2 2 pad).1
  let pad := (Evm.call bn256Add 0 4 0 2 pad).1
  -- `sigma • G` over the generator.
  let pad := pad.write 2 [1, 2, sigma]
  let pad := (Evm.call bn256ScalarMul 2 3 2 2 pad).1
  pad 0 == pad 2 && pad 1 == pad 3

/-- The hash of the verification equation. -/
def challenge : Word := sha256 ([vk 2, vk 3, hashToBeSigned].flatMap wordBytes)

/-- The words of the key encode points that satisfy the verification equation. -/
def IsSignature : Prop :=
  ∃ X Y, g1.decode [vk 0, vk 1] = some X ∧ g1.decode [vk 2, vk 3] = some Y ∧
    sigma.toNat • genG1 = Y + (challenge sha256 vk hashToBeSigned).toNat • X

variable {sha256 vk sigma hashToBeSigned}

theorem bn256ScalarMul_eq_some {x y s : Word} {output : List Word} :
    bn256ScalarMul [x, y, s] = some output ↔
      ∃ P, g1.decode [x, y] = some P ∧ output = g1.encode (s.toNat • P) := by
  have hlen : [x, y].length = 2 := rfl
  rw [bn256ScalarMul, show [x, y, s] = [x, y] ++ [s] from rfl, Encoding.ecMul_eq_some hlen]
  simp only [Option.some.injEq, exists_and_left, exists_eq_left']

theorem bn256ScalarMul_eq_none {x y s : Word} :
    bn256ScalarMul [x, y, s] = none ↔ g1.decode [x, y] = none := by
  have hlen : [x, y].length = 2 := rfl
  rw [bn256ScalarMul, show [x, y, s] = [x, y] ++ [s] from rfl, Encoding.ecMul_eq_none hlen]
  simp

/-- The two sides that are compared: a failed call leaves what was there before it. -/
theorem verify_eq_true_iff_words :
    verify sha256 vk sigma hashToBeSigned = true ↔
      (bn256Add ([vk 2, vk 3] ++ (bn256ScalarMul [vk 0, vk 1,
        challenge sha256 vk hashToBeSigned]).getD [vk 0, vk 1])).getD [vk 2, vk 3] =
        g1.encode (sigma.toNat • genG1) := by
  have hsha : (sha256Precompile sha256).Returns 1 := by
    rintro input output ⟨⟩
    rfl
  have hadd : bn256Add.Returns 2 := Encoding.ecAdd_returns
  have hmul : bn256ScalarMul.Returns 2 := Encoding.ecMul_returns
  have hgen : bn256ScalarMul [1, 2, sigma] = some (g1.encode (sigma.toNat • genG1)) :=
    bn256ScalarMul_eq_some.mpr ⟨genG1, decode_genG1, rfl⟩
  unfold verify
  extract_lets pad₀ pad₁ pad₂ pad₃ pad₄ pad₅ pad₆ pad₇
  -- What the pad holds after each step, in the two regions of two words.
  have h₁ : pad₁.read 0 3 = [vk 2, vk 3, hashToBeSigned] := pad₀.read_write rfl
  have hY₂ : pad₂.read 0 2 = [vk 2, vk 3] :=
    (Evm.read_call_of_disjoint hsha (by omega)).trans (congrArg (List.take 2) h₁)
  have hh₂ : pad₂.read 4 1 = [challenge sha256 vk hashToBeSigned] := by
    refine (Evm.read_call hsha).trans ?_
    rw [h₁]
    rfl
  have hY₃ : pad₃.read 0 2 = [vk 2, vk 3] :=
    (pad₂.read_write_of_disjoint (by simp)).trans hY₂
  have hX₃ : pad₃.read 2 2 = [vk 0, vk 1] := pad₂.read_write rfl
  have hXh₃ : pad₃.read 2 3 = [vk 0, vk 1, challenge sha256 vk hashToBeSigned] := by
    have hh₃ : pad₃.read 4 1 = _ := (pad₂.read_write_of_disjoint (by simp)).trans hh₂
    rw [pad₃.read_add 2 2 1, hX₃, hh₃]
    rfl
  have hY₄ : pad₄.read 0 2 = [vk 2, vk 3] :=
    (Evm.read_call_of_disjoint hmul (by omega)).trans hY₃
  have hX₄ : pad₄.read 2 2 =
      (bn256ScalarMul [vk 0, vk 1, challenge sha256 vk hashToBeSigned]).getD [vk 0, vk 1] := by
    refine (Evm.read_call hmul).trans ?_
    rw [hXh₃, hX₃]
  have h₅ : pad₅.read 0 2 = (bn256Add ([vk 2, vk 3] ++ (bn256ScalarMul [vk 0, vk 1,
      challenge sha256 vk hashToBeSigned]).getD [vk 0, vk 1])).getD [vk 2, vk 3] := by
    refine (Evm.read_call hadd).trans ?_
    rw [pad₄.read_add 0 2 2, hY₄, hX₄]
  have h₆ : pad₆.read 2 3 = [1, 2, sigma] := pad₅.read_write rfl
  have hsum : pad₇.read 0 2 = pad₅.read 0 2 :=
    (Evm.read_call_of_disjoint hmul (by omega)).trans (pad₅.read_write_of_disjoint (by simp))
  have hsigma : pad₇.read 2 2 = g1.encode (sigma.toNat • genG1) := by
    refine (Evm.read_call hmul).trans ?_
    rw [h₆, hgen, Option.getD_some]
  have hcmp : (pad₇ 0 == pad₇ 2 && pad₇ 1 == pad₇ 3) = true ↔
      pad₇.read 0 2 = pad₇.read 2 2 := by
    simp [Evm.Memory.read, List.range_succ]
  rw [hcmp, hsum, h₅, hsigma]

/-- The verifier accepts the signatures that satisfy the equation and, for keys whose first point is
not valid, those with `Y = sigma • G`. -/
theorem verify_eq_true_iff :
    verify sha256 vk sigma hashToBeSigned = true ↔
      IsSignature sha256 vk sigma hashToBeSigned ∨
        (g1.decode [vk 0, vk 1] = none ∧
          g1.decode [vk 2, vk 3] = some (sigma.toNat • genG1)) := by
  have hlen : [vk 2, vk 3].length = 2 := rfl
  have hY : [vk 2, vk 3] = g1.encode (sigma.toNat • genG1) ↔
      g1.decode [vk 2, vk 3] = some (sigma.toNat • genG1) :=
    canonical_g1.decode_eq_some_iff.symm
  rw [verify_eq_true_iff_words, IsSignature]
  cases hX : g1.decode [vk 0, vk 1] with
  | none =>
    -- The multiplication fails, and then the addition.
    have hadd : bn256Add ([vk 2, vk 3] ++ [vk 0, vk 1]) = none :=
      (Encoding.ecAdd_eq_none hlen).mpr (.inr hX)
    rw [bn256ScalarMul_eq_none.mpr hX, Option.getD_none, hadd, Option.getD_none, hY]
    simp
  | some X =>
    have hmul : bn256ScalarMul [vk 0, vk 1, challenge sha256 vk hashToBeSigned] =
        some (g1.encode ((challenge sha256 vk hashToBeSigned).toNat • X)) :=
      bn256ScalarMul_eq_some.mpr ⟨X, hX, rfl⟩
    rw [hmul, Option.getD_some]
    cases hdec : g1.decode [vk 2, vk 3] with
    | none =>
      have hadd : bn256Add ([vk 2, vk 3] ++
          g1.encode ((challenge sha256 vk hashToBeSigned).toNat • X)) = none :=
        (Encoding.ecAdd_eq_none hlen).mpr (.inl hdec)
      rw [hadd, Option.getD_none, hY, hdec]
      simp
    | some Y =>
      have hadd : bn256Add ([vk 2, vk 3] ++
          g1.encode ((challenge sha256 vk hashToBeSigned).toNat • X)) =
          some (g1.encode (Y + (challenge sha256 vk hashToBeSigned).toNat • X)) :=
        (Encoding.ecAdd_eq_some hlen).mpr ⟨Y, _, hdec, g1.decode_encode _, rfl⟩
      rw [hadd, Option.getD_some, g1.encode_injective.eq_iff]
      simp [eq_comm]

/-- The verifier accepts exactly the signatures that satisfy the equation if and only if the first
point of the key is valid or the second one is not `sigma • G`. -/
theorem signature_exact_iff (sha256 : ByteString.Bytes → Word) (vk : Fin 4 → Word)
    (sigma hashToBeSigned : Word) :
    (verify sha256 vk sigma hashToBeSigned = true ↔
        IsSignature sha256 vk sigma hashToBeSigned) ↔
      ((g1.decode [vk 0, vk 1]).isSome ∨
        g1.decode [vk 2, vk 3] ≠ some (sigma.toNat • genG1)) := by
  rw [verify_eq_true_iff, Option.isSome_iff_ne_none]
  constructor
  · intro h
    by_contra hcond
    push Not at hcond
    obtain ⟨X, Y, hX, -⟩ := h.mp (.inr hcond)
    exact absurd (hcond.1.symm.trans hX) nofun
  · rintro hcond
    refine or_iff_left ?_
    rintro ⟨hX, hY⟩
    exact hcond.elim (fun h => h hX) fun h => h hY

/-- With `X = (1, 1)`, which is not on the curve, and `Y = G`, the signature `1` is accepted. -/
theorem signature_not_exact :
    verify (fun _ => 0) ![1, 1, 1, 2] 1 0 = true ∧
      ¬ IsSignature (fun _ => 0) ![1, 1, 1, 2] 1 0 := by
  have hX : g1.decode [1, 1] = none := by decide +kernel
  have hY : g1.decode [1, 2] = some ((1 : Word).toNat • genG1) := by
    rw [show (1 : Word).toNat = 1 from rfl, one_nsmul, decode_genG1]
  refine ⟨verify_eq_true_iff.mpr (.inr ⟨hX, hY⟩), ?_⟩
  rintro ⟨X, Y, hX', -⟩
  exact absurd (hX.symm.trans hX') nofun

end OTSchnorr

end Zeth
