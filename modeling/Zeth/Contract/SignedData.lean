import Zeth.Contract.MixerCall

/-!
# What the one-time signature of a call binds

Before a call is accepted, its signature is verified on a hash of the sender, the two ciphertexts, the
words of the proof and the nine public inputs, one after the other. `dispatch` leaves the proof out.
The ciphertexts are byte strings of any length, and no length is hashed.

So the string that is hashed fixes the sender and the public inputs, the first 32 and the last 288
bytes, but between them only the concatenation: bytes may move from one ciphertext to the other, and
the words of a proof may be the end of a ciphertext of a call of `dispatch`. Two calls with the same
string are the same call exactly when they are of one kind and their ciphertexts have the same
lengths.

## Main definitions

* `Mixer.SignedCall`, `Mixer.SignedCall.preimage`.

## Main results

* `Mixer.SignedCall.eq_iff_of_preimage_eq`.
-/

namespace Zeth

open ByteString List

@[simp] theorem length_wordBytes (w : Word) : (wordBytes w).length = 32 := length_toBig 32 w.toNat

theorem wordBytes_injective : Function.Injective wordBytes := by
  intro v w h
  exact BitVec.eq_of_toNat_eq (toBig_inj v.isLt w.isLt h)

namespace Mixer

variable {m : Mixer}

/-- The parts of a call of `mix` or `dispatch` that are to be bound by its signature. -/
inductive SignedCall where
  | mix (sender : Address) (ciphertexts : Fin 2 → Bytes) (proof : List Word) (inputs : Inputs)
  | dispatch (sender : Address) (ciphertexts : Fin 2 → Bytes) (inputs : Inputs)

namespace SignedCall

/-- The call is one of `mix`. -/
def isMix : SignedCall → Bool
  | .mix .. => true
  | .dispatch .. => false

def sender : SignedCall → Address
  | .mix sender _ _ _ => sender
  | .dispatch sender _ _ => sender

def ciphertexts : SignedCall → Fin 2 → Bytes
  | .mix _ ciphertexts _ _ => ciphertexts
  | .dispatch _ ciphertexts _ => ciphertexts

/-- The words of the proof that are hashed. -/
def proof : SignedCall → List Word
  | .mix _ _ proof _ => proof
  | .dispatch .. => []

def inputs : SignedCall → Inputs
  | .mix _ _ _ inputs => inputs
  | .dispatch _ _ inputs => inputs

/-- The string that is hashed. -/
def preimage (call : SignedCall) : Bytes :=
  dataToBeSigned call.sender call.ciphertexts call.proof call.inputs

end SignedCall

/-! ### What the string fixes -/

namespace SignedCall

/-- The bytes between the sender and the public inputs. -/
def body (call : SignedCall) : Bytes :=
  call.ciphertexts 0 ++ call.ciphertexts 1 ++ call.proof.flatMap wordBytes

/-- Strings are equal when the senders, the bytes between and the public inputs are. -/
theorem preimage_eq_iff {a b : SignedCall} :
    a.preimage = b.preimage ↔ a.sender = b.sender ∧ a.body = b.body ∧ a.inputs = b.inputs := by
  have hsplit (c : SignedCall) : c.preimage =
      toBig 32 c.sender.toNat ++ (c.body ++ ((List.finRange 9).map c.inputs).flatMap wordBytes) := by
    simp only [preimage, dataToBeSigned, body, append_assoc]
  have hlen (c : SignedCall) :
      (((List.finRange 9).map c.inputs).flatMap wordBytes).length = 288 := by
    simp only [length_flatMap, map_map, Function.comp_def, length_wordBytes]
    rfl
  constructor
  · intro h
    rw [hsplit, hsplit] at h
    obtain ⟨hsender, hrest⟩ := append_inj h (by rw [length_toBig, length_toBig])
    obtain ⟨hbody, hinputs⟩ := append_inj' hrest ((hlen a).trans (hlen b).symm)
    have hwords := flatMap_injective (by norm_num) length_wordBytes wordBytes_injective hinputs
    refine ⟨BitVec.eq_of_toNat_eq (toBig_inj ?_ ?_ hsender), hbody, ?_⟩
    · exact a.sender.isLt.trans (by norm_num)
    · exact b.sender.isLt.trans (by norm_num)
    · funext i
      exact map_inj_left.mp hwords i (mem_finRange i)
  · rintro ⟨hsender, hbody, hinputs⟩
    rw [hsplit, hsplit, hsender, hbody, hinputs]

/-- **What the signature binds.** Two calls for which the same string is hashed have the same sender
and the same public inputs. They are the same call if and only if they are of the same kind and their
ciphertexts have the same lengths. -/
theorem eq_iff_of_preimage_eq {a b : SignedCall} (h : a.preimage = b.preimage) :
    a.sender = b.sender ∧ a.inputs = b.inputs ∧
      (a = b ↔ a.isMix = b.isMix ∧
        ∀ i, (a.ciphertexts i).length = (b.ciphertexts i).length) := by
  obtain ⟨hsender, hbody, hinputs⟩ := preimage_eq_iff.mp h
  refine ⟨hsender, hinputs, ?_, ?_⟩
  · rintro rfl
    exact ⟨rfl, fun _ => rfl⟩
  · rintro ⟨hkind, hlen⟩
    rw [body, body, append_assoc, append_assoc] at hbody
    obtain ⟨hzero, hrest⟩ := append_inj hbody (hlen 0)
    obtain ⟨hone, hproof⟩ := append_inj hrest (hlen 1)
    have hwords := flatMap_injective (by norm_num) length_wordBytes wordBytes_injective hproof
    have hciphertexts : a.ciphertexts = b.ciphertexts := by
      funext i
      match i with
      | 0 => exact hzero
      | 1 => exact hone
    cases a with
    | mix sender ciphertexts proof inputs =>
      cases b with
      | mix sender' ciphertexts' proof' inputs' =>
        exact mix.injEq .. ▸ ⟨hsender, hciphertexts, hwords, hinputs⟩
      | dispatch => cases hkind
    | dispatch sender ciphertexts inputs =>
      cases b with
      | mix => cases hkind
      | dispatch sender' ciphertexts' inputs' =>
        exact dispatch.injEq .. ▸ ⟨hsender, hciphertexts, hinputs⟩

/-- A call of `mix` with a proof of the given number of words, all zero. -/
def zeroProofMix (ciphertexts : List Bytes) (words : ℕ) : SignedCall :=
  .mix 0 (copyCiphertexts ciphertexts) (List.replicate words 0) fun _ => 0

/-- A call of `dispatch` whose second ciphertext is as many zero words. -/
def zeroProofDispatch (words : ℕ) : SignedCall :=
  .dispatch 0 (copyCiphertexts [[], (List.replicate words (0 : Word)).flatMap wordBytes]) fun _ => 0

theorem preimage_zeroProof (words : ℕ) :
    (zeroProofMix [] words).preimage = (zeroProofDispatch words).preimage :=
  preimage_eq_iff.mpr ⟨rfl, (append_nil _).symm, rfl⟩

/-- Calls of two kinds with one string are not the same. -/
theorem eq_iff_of_preimage_eq_zeroProof :
    (zeroProofMix [] 8).preimage = (zeroProofDispatch 8).preimage ∧
      (zeroProofMix [] 8 = zeroProofDispatch 8 ↔ true = false ∧
        ∀ i, ((zeroProofMix [] 8).ciphertexts i).length =
          ((zeroProofDispatch 8).ciphertexts i).length) :=
  ⟨preimage_zeroProof 8, (eq_iff_of_preimage_eq (preimage_zeroProof 8)).2.2⟩

theorem zeroProofMix_ne_zeroProofDispatch (words : ℕ) :
    zeroProofMix [] words ≠ zeroProofDispatch words := by
  rintro ⟨⟩

/-- A byte moves from one ciphertext to the other, and the string is the same. With proofs of the
lengths that the three verifiers accept, a call of `mix` becomes one of `dispatch`, and the string is
the same. -/
theorem preimage_not_injective :
    ((zeroProofMix [[1], []] 8).preimage = (zeroProofMix [[], [1]] 8).preimage ∧
      zeroProofMix [[1], []] 8 ≠ zeroProofMix [[], [1]] 8) ∧
    ((zeroProofMix [] 8).preimage = (zeroProofDispatch 8).preimage ∧
      zeroProofMix [] 8 ≠ zeroProofDispatch 8) ∧
    ((zeroProofMix [] 16).preimage = (zeroProofDispatch 16).preimage ∧
      zeroProofMix [] 16 ≠ zeroProofDispatch 16) ∧
    (zeroProofMix [] 18).preimage = (zeroProofDispatch 18).preimage ∧
      zeroProofMix [] 18 ≠ zeroProofDispatch 18 := by
  refine ⟨⟨preimage_eq_iff.mpr ⟨rfl, rfl, rfl⟩, fun h => ?_⟩,
    ⟨preimage_zeroProof 8, zeroProofMix_ne_zeroProofDispatch 8⟩,
    ⟨preimage_zeroProof 16, zeroProofMix_ne_zeroProofDispatch 16⟩,
    preimage_zeroProof 18, zeroProofMix_ne_zeroProofDispatch 18⟩
  cases congrFun (mix.inj h).2.1 0

end SignedCall

end Mixer

end Zeth
