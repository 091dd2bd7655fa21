import Mathlib
import Zeth.Contract.MixerCall

/-!
# The public values moved by a call

An accepted call moves the public values that `_assemblePublicValues` reads from the last public
input, a word. The proof is bound to the hash of the public inputs, which reads that word modulo the
order `r` of the scalar field. The two agree exactly when the word is below `r`: since `r` is odd
and larger than `2 ^ 128`, two words with the same residue and the same low `128` bits are equal.
No line of the contract checks that the word is below `r`.

## Main definitions

* `Curve.provedMovement`: the movement that the proof of a call is about.
* `Mixer.Moves`: a movement made by some accepted call with given inputs.

## Main results

* `Mixer.hashPublicProofData_congr`: the hash reads residues.
* `Mixer.moves_eq`: the movement is the one assembled from the word.
* `Mixer.movement_eq_proved_iff`: it is the one proved exactly when the word is below `r`.
-/

namespace Zeth

namespace Curve

/-- The movement in wei that the residue of the last public input stands for. -/
def provedMovement (curve : Curve) (inputs : Inputs) : Mixer.Movement :=
  let residual := (inputs 8).toNat % curve.r.toNat
  ⟨10 ^ 12 * (residual / 2 ^ 64 % 2 ^ 64), 10 ^ 12 * (residual % 2 ^ 64)⟩

theorem r_coprime (curve : Curve) : Nat.Coprime curve.r.toNat (2 ^ 128) :=
  Nat.Coprime.pow_right 128 (by cases curve <;> decide +kernel)

theorem r_pos (curve : Curve) : 0 < curve.r.toNat := by
  cases curve <;> decide +kernel

theorem r_large (curve : Curve) : 2 ^ 256 ≤ curve.r.toNat * 2 ^ 128 := by
  cases curve <;> decide +kernel

/-- Words with the same residue and the same public value bits are equal. -/
theorem eq_of_modEq_of_low (curve : Curve) {x y : ℕ} (hx : x < 2 ^ 256) (hy : y < 2 ^ 256)
    (hr : x ≡ y [MOD curve.r.toNat]) (hlow : x % 2 ^ 128 = y % 2 ^ 128) : x = y := by
  have hmod : x ≡ y [MOD curve.r.toNat * 2 ^ 128] :=
    (Nat.modEq_and_modEq_iff_modEq_mul curve.r_coprime).mp ⟨hr, hlow⟩
  exact Nat.ModEq.eq_of_lt_of_lt hmod (hx.trans_le curve.r_large) (hy.trans_le curve.r_large)

end Curve

namespace Mixer

variable {m : Mixer}

theorem assemblePublicValues_eq (w : Word) :
    assemblePublicValues w =
      (10 ^ 12 * (w.toNat / 2 ^ 64 % 2 ^ 64), 10 ^ 12 * (w.toNat % 2 ^ 64)) := by
  have hmask (v : ℕ) : v &&& 0xffffffffffffffff = v % 2 ^ 64 :=
    Nat.and_two_pow_sub_one_eq_mod v 64
  rw [assemblePublicValues, BitVec.toNat_and, BitVec.toNat_and, BitVec.toNat_ushiftRight,
    Nat.shiftRight_eq_div_pow]
  have hconst : (0xffffffffffffffff#256).toNat = 0xffffffffffffffff := rfl
  rw [hconst, hmask, hmask, mul_comm, mul_comm (_ % _)]

/-- Two words have the same public values when their low `128` bits agree. -/
theorem assemblePublicValues_eq_iff (x y : ℕ) :
    ((10 ^ 12 * (x / 2 ^ 64 % 2 ^ 64), 10 ^ 12 * (x % 2 ^ 64)) : ℕ × ℕ) =
        (10 ^ 12 * (y / 2 ^ 64 % 2 ^ 64), 10 ^ 12 * (y % 2 ^ 64)) ↔
      x % 2 ^ 128 = y % 2 ^ 128 := by
  rw [Prod.mk.injEq]
  omega

/-- The hash of the public inputs depends on their residues only. -/
theorem hashPublicProofData_congr (m : Mixer) (curve : Curve) (keccak256 : Word → Word)
    {inputs inputs' : Inputs}
    (h : ∀ j, (inputs j).toNat ≡ (inputs' j).toNat [MOD curve.r.toNat]) :
    (m.onCurve curve keccak256).hashPublicProofData inputs =
      (m.onCurve curve keccak256).hashPublicProofData inputs' := by
  have hfold (js : List (Fin 9)) (w : Word) :
      js.foldl (fun w j => curve.hash keccak256 w (inputs j)) w =
        js.foldl (fun w j => curve.hash keccak256 w (inputs' j)) w := by
    induction js generalizing w with
    | nil => rfl
    | cons j js ih =>
      rw [List.foldl_cons, List.foldl_cons, curve.hash_congr keccak256 (Nat.ModEq.refl _) (h j), ih]
  rw [hashPublicProofData, hashPublicProofData]
  exact congrArg (fun w => curve.hash keccak256 w 9#256) (hfold _ _)

/-! ### Movements -/

/-- A call of the token that returns has moved the stated amount. -/
def External.MovesExactly (amount : ℕ) (external : External) : Prop :=
  ∀ st st' moved, external st = some (st', moved) → moved = amount

variable (m) in
/-- A movement made by an accepted call with the given public inputs. When the mixer has a token,
calls of the token that return have moved the amount they were asked to. -/
inductive Moves (inputs : Inputs) (mv : Movement) : Prop where
  | mix (msg : Msg) (args : MixArgs) (first second : External) (st st' : State)
      (hcall : m.mix msg args first second st = .ok (st', mv))
      (hinputs : args.publicInputs = inputs)
      (htoken : m.token ≠ 0 → first.MovesExactly (assemblePublicValues (inputs 8)).1 ∧
        second.MovesExactly (assemblePublicValues (inputs 8)).2)
  | dispatch (msg : Msg) (args : DispatchArgs) (params : NestedParameters)
      (first second : External) (st st' : State)
      (hcall : m.dispatch msg args first second st = .ok (st', mv))
      (hdecode : m.abiDecode args.nestedParameters = some params)
      (hinputs : copyInputs params.publicData = inputs)
      (htoken : m.token ≠ 0 → first.MovesExactly (assemblePublicValues (inputs 8)).1 ∧
        second.MovesExactly (assemblePublicValues (inputs 8)).2)

theorem processVpubIn_taken {external : External} {msg : Msg} {vpubIn taken : ℕ} {st st' : State}
    (h : m.processVpubIn msg vpubIn external st = .ok (st', taken))
    (htoken : m.token ≠ 0 → external.MovesExactly vpubIn) : taken = vpubIn := by
  unfold processVpubIn at h
  split_ifs at h with hin htok hvalue
  · cases hrun : external st with
    | none => simp [hrun] at h
    | some result =>
      obtain ⟨st₁, moved⟩ := result
      simp only [hrun, Except.ok.injEq, Prod.mk.injEq] at h
      rw [← h.2]
      exact htoken htok st st₁ moved hrun
  · obtain ⟨_, hreq, hret⟩ := Except.bind_eq_ok.mp h
    cases hret
    simpa using hreq
  · obtain ⟨_, -, hret⟩ := Except.bind_eq_ok.mp h
    cases hret
    omega
  · cases h
    omega

theorem processVpubOut_paid {external : External} {vpubOut paid : ℕ} {st st' : State}
    (h : m.processVpubOut vpubOut external st = .ok (st', paid))
    (htoken : m.token ≠ 0 → external.MovesExactly vpubOut) : paid = vpubOut := by
  unfold processVpubOut at h
  split_ifs at h with hout htok
  · cases hrun : external st with
    | none => simp [hrun] at h
    | some result =>
      obtain ⟨st₁, moved⟩ := result
      simp only [hrun, Except.ok.injEq, Prod.mk.injEq] at h
      rw [← h.2]
      exact htoken htok st st₁ moved hrun
  · obtain ⟨_, -, hret⟩ := Except.bind_eq_ok.mp h
    cases hret
    rfl
  · cases h
    omega

/-- An accepted call moves the public values assembled from its last public input. -/
theorem moves_eq {inputs : Inputs} {mv : Movement} (h : m.Moves inputs mv) :
    (mv.taken, mv.paid) = assemblePublicValues (inputs 8) := by
  have hmoves {msg : Msg} {first second : External} {st st' : State}
      (hmove : m.processPublicValues msg inputs first second st = .ok (st', mv))
      (htoken : m.token ≠ 0 → first.MovesExactly (assemblePublicValues (inputs 8)).1 ∧
        second.MovesExactly (assemblePublicValues (inputs 8)).2) :
      (mv.taken, mv.paid) = assemblePublicValues (inputs 8) := by
    obtain ⟨st₁, hin, hout⟩ := processPublicValues_cases hmove
    rw [processVpubIn_taken hin fun ht => (htoken ht).1,
      processVpubOut_paid hout fun ht => (htoken ht).2]
  cases h with
  | mix msg args first second st st' hcall hinputs htoken =>
    obtain ⟨st₁, -, hmove⟩ := (Commits.mix args hcall hinputs).cases
    exact hmoves hmove htoken
  | dispatch msg args params first second st st' hcall hdecode hinputs htoken =>
    obtain ⟨st₁, -, hmove⟩ := (Commits.dispatch args params hcall hdecode hinputs).cases
    exact hmoves hmove htoken

/-! ### Calls that are accepted -/

/-- A mixer for ether whose verifiers accept everything and whose SHA-256 is constant. -/
def valueMixer (digest : Word) : Mixer :=
  { permissive fun l _ => l with sha256 := fun _ => digest }.onCurve .altBN128 id

/-- Public inputs with the given last input, for a new mixer. -/
def valueInputs (digest residual : Word) : Inputs :=
  Function.update (copyInputs [0, 1, 2, 3, 4, 0, 0, 0, residual]) 0
    ((valueMixer digest).deploy.tree.nodes 0)

/-- In a new mixer of that kind, a call that attaches its `vpub_in` and has no `vpub_out` is
accepted. -/
theorem moves_valueInputs {digest residual : Word} {value : ℕ}
    (hnodup : ((valueMixer digest).assembleNullifiers (valueInputs digest residual)).Nodup)
    (hhsig : digest = (valueMixer digest).assembleHsig (valueInputs digest residual))
    (hvalues : assemblePublicValues residual = (value, 0)) :
    (valueMixer digest).Moves (valueInputs digest residual) ⟨value, 0⟩ := by
  have hroom : (valueMixer digest).deploy.tree.numLeaves + 2 ≤ 2 ^ AbstractMerkleTree.depth :=
    show 0 + 2 ≤ 2 ^ 32 by decide
  obtain ⟨st₁, -, hmix⟩ := @mix_of_checks (valueMixer digest) ⟨0, value⟩
    (plainArgs (valueInputs digest residual)) (fun _ => none) (fun _ => none)
    (valueMixer digest).deploy deploy_roots hnodup (fun _ _ => rfl) hhsig rfl rfl hroom
  have hmove : (valueMixer digest).processPublicValues ⟨0, value⟩ (valueInputs digest residual)
      (fun _ => none) (fun _ => none) st₁ = .ok (st₁, ⟨value, 0⟩) := by
    have hlast : valueInputs digest residual 8 = residual := rfl
    have htoken : (valueMixer digest).token = 0 := rfl
    rw [processPublicValues, hlast, hvalues]
    simp only [processVpubIn, processVpubOut, htoken, ne_eq, not_true_eq_false, if_false,
      beq_self_eq_true, require_true, Except.ok_bind, gt_iff_lt, lt_irrefl]
    split_ifs with hpos
    · rfl
    · rw [show value = 0 by omega]
      rfl
  exact .mix ⟨0, value⟩ (plainArgs (valueInputs digest residual)) (fun _ => none) (fun _ => none)
    (valueMixer digest).deploy st₁ (hmix.trans hmove) rfl fun hne => absurd rfl hne

/-! ### Moved and proved -/

/-- **Value moved and value proved.** For every accepted call of `mix` or `dispatch`, the movement
is the one that the residue of the last public input stands for if and only if that input is below
`r`. Of two accepted calls whose inputs have the same residues, and so the same hash, the movements
are the same if and only if the last inputs are the same word. -/
theorem movement_eq_proved_iff (m : Mixer) (curve : Curve) (keccak256 : Word → Word)
    {inputs : Inputs} {mv : Movement} (h : (m.onCurve curve keccak256).Moves inputs mv) :
    (mv = curve.provedMovement inputs ↔ (inputs 8).toNat < curve.r.toNat) ∧
      ∀ inputs' mv', (m.onCurve curve keccak256).Moves inputs' mv' →
        (∀ j, (inputs j).toNat ≡ (inputs' j).toNat [MOD curve.r.toNat]) →
        (m.onCurve curve keccak256).hashPublicProofData inputs =
            (m.onCurve curve keccak256).hashPublicProofData inputs' ∧
          (mv = mv' ↔ inputs 8 = inputs' 8) := by
  have hpair (a b : Movement) : a = b ↔ (a.taken, a.paid) = (b.taken, b.paid) := by
    cases a
    cases b
    simp
  have hmv := moves_eq h
  rw [assemblePublicValues_eq] at hmv
  refine ⟨?_, fun inputs' mv' h' hcongr => ⟨hashPublicProofData_congr m curve keccak256 hcongr, ?_⟩⟩
  · rw [hpair, hmv]
    refine (assemblePublicValues_eq_iff _ _).trans ⟨fun hlow => ?_, fun hlt => ?_⟩
    · have hword := curve.eq_of_modEq_of_low (inputs 8).isLt
        ((Nat.mod_le _ _).trans_lt (inputs 8).isLt) (Nat.mod_modEq _ _).symm hlow
      rw [hword]
      exact Nat.mod_lt _ curve.r_pos
    · rw [Nat.mod_eq_of_lt hlt]
  · rw [hpair, hmv, moves_eq h', assemblePublicValues_eq]
    refine (assemblePublicValues_eq_iff _ _).trans ⟨fun hlow => ?_, fun heq => by rw [heq]⟩
    exact BitVec.eq_of_toNat_eq
      (curve.eq_of_modEq_of_low (inputs 8).isLt (inputs' 8).isLt (hcongr 8) hlow)

/-- A call with `vpub_in` of five units moves what it proves. -/
theorem movement_eq_proved_five_units :
    (valueMixer 0).Moves (valueInputs 0 (5 * 2 ^ 64)) ⟨5 * 10 ^ 12, 0⟩ ∧
      Curve.altBN128.provedMovement (valueInputs 0 (5 * 2 ^ 64)) = ⟨5 * 10 ^ 12, 0⟩ := by
  have hmoves : (valueMixer 0).Moves (valueInputs 0 (5 * 2 ^ 64)) ⟨5 * 10 ^ 12, 0⟩ :=
    moves_valueInputs (by decide +kernel) (by decide +kernel) (by decide +kernel)
  refine ⟨hmoves, (((movement_eq_proved_iff { permissive fun l _ => l with sha256 := fun _ => 0 }
    .altBN128 id hmoves).1).mpr ?_).symm⟩
  decide +kernel

/-- A last input above `r` whose low `128` bits are zero. -/
def unpaidResidual : Word := 0x30644e72e131a029b85045b68181585e#256 <<< 128

/-- The digest that the call below has to match. -/
def unpaidDigest : Word := Curve.altBN128.extractBytes32 0 unpaidResidual 4

/-- A call that moves nothing although its residue stands for public values in and out. -/
theorem movement_unpaid :
    (valueMixer unpaidDigest).Moves (valueInputs unpaidDigest unpaidResidual) ⟨0, 0⟩ ∧
      Curve.altBN128.provedMovement (valueInputs unpaidDigest unpaidResidual) =
        ⟨15549829690402705262 * 10 ^ 12, 13555283387672952831 * 10 ^ 12⟩ ∧
      (⟨0, 0⟩ : Movement) ≠
        Curve.altBN128.provedMovement (valueInputs unpaidDigest unpaidResidual) := by
  refine ⟨moves_valueInputs ?_ ?_ ?_, ?_, ?_⟩
  · decide +kernel
  · decide +kernel
  · decide +kernel
  · decide +kernel
  · decide +kernel

end Mixer

end Zeth
