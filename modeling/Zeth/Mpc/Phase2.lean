import Mathlib.Algebra.Field.ZMod
import Zeth.Foundation.Except
import Zeth.Foundation.SameRatio
import Zeth.Foundation.StreamCodec

/-!
# The second phase of the MPC

The second phase of the MPC for Groth16 keys (`libzeth/mpc/groth16/phase2.tcc`) is a chain of
contributions. A contributor answers a challenge, which holds an accumulator and the digest of the
transcript, by multiplying the `delta` of the accumulator by a secret scalar and dividing its other
entries by it, and publishes a key with a proof of knowledge of the scalar. The next challenge has
the new accumulator and the digest of that key. The keys, written one after the other, are the
transcript.

The groups are modules over the scalar field, the pairing is a bilinear map. Reading and writing of
points, the hash of byte strings, the map from digests to scalars and the random scalars are
parameters.

## Main definitions

* `Mpc.Setting`: the curve and the functions from elsewhere.
* `Mpc.Accumulator`, `Mpc.PublicKey`, `Mpc.Challenge`, `Mpc.Response`.
* `Mpc.Setting.computeResponse`, `Mpc.Setting.computeChallenge`, `Mpc.Setting.verifyResponse`,
  `Mpc.Setting.updateIsConsistent`, `Mpc.Setting.verifyTranscript`,
  `Mpc.Setting.verifyTranscriptCommand`.
* `Mpc.Setting.responses`, `Mpc.Setting.lastChallenge`: a chain of contributions.

## Main results

* `Mpc.Setting.phase2_complete`: the responses of a chain are accepted, as are its transcript and its
  last accumulator.
-/

namespace Zeth.Mpc

open ByteString List

/-! ### Data -/

/-- `mpc_hash_t`. -/
abbrev Digest := {bs : Bytes // bs.length = 64}

/-- `srs_mpc_phase2_accumulator`. -/
@[ext] structure Accumulator (G₁ G₂ : Type) where
  csHash : Digest
  deltaG1 : G₁
  deltaG2 : G₂
  HG1 : List G₁
  LG1 : List G₁
  deriving DecidableEq

/-- `srs_mpc_phase2_publickey`. -/
structure PublicKey (G₁ G₂ : Type) where
  transcriptDigest : Digest
  newDeltaG1 : G₁
  sG1 : G₁
  sDeltaJG1 : G₁
  rDeltaJG2 : G₂
  deriving DecidableEq

/-- `srs_mpc_phase2_challenge`. -/
structure Challenge (G₁ G₂ : Type) where
  transcriptDigest : Digest
  accumulator : Accumulator G₁ G₂
  deriving DecidableEq

/-- `srs_mpc_phase2_response`. -/
structure Response (G₁ G₂ : Type) where
  newAccumulator : Accumulator G₁ G₂
  publickey : PublicKey G₁ G₂
  deriving DecidableEq

/-- The order in which the fields of a public key are written. -/
def PublicKey.fields {G₁ G₂ : Type} :
    Digest × G₁ × G₁ × G₁ × G₂ ≃ PublicKey G₁ G₂ where
  toFun p := ⟨p.1, p.2.1, p.2.2.1, p.2.2.2.1, p.2.2.2.2⟩
  invFun k := (k.transcriptDigest, k.newDeltaG1, k.sG1, k.sDeltaJG1, k.rDeltaJG2)
  left_inv _ := rfl
  right_inv _ := rfl

variable (F G₁ G₂ GT : Type) [Field F] [AddCommGroup G₁] [Module F G₁] [AddCommGroup G₂]
  [Module F G₂] [AddCommGroup GT] [Module F GT]

/-- The curve, and the functions of other libraries. -/
structure Setting where
  pairing : G₁ →ₗ[F] G₂ →ₗ[F] GT
  /-- `G1::one()` and `G2::one()`. -/
  oneG1 : G₁
  oneG2 : G₂
  /-- `operator<<` and `operator>>` of the points, which are well formed. -/
  codecG1 : StreamCodec G₁
  codecG2 : StreamCodec G₂
  /-- `srs_mpc_digest_to_fp`. -/
  digestToFp : Digest → F
  /-- `mpc_compute_hash` and the hash of what is written to a `mpc_hash_ostream`. -/
  computeHash : Bytes → Digest

namespace Setting

variable {F G₁ G₂ GT} (S : Setting F G₁ G₂ GT)

/-- `srs_mpc_phase2_publickey::write` and `read`. -/
def publickeyCodec : StreamCodec (PublicKey G₁ G₂) :=
  ((StreamCodec.fixed 64).pair
    (S.codecG1.pair (S.codecG1.pair (S.codecG1.pair S.codecG2)))).map PublicKey.fields

instance consuming_publickeyCodec : S.publickeyCodec.Consuming :=
  StreamCodec.consuming_map _ _

/-- `srs_mpc_phase2_publickey::compute_digest`. -/
def computeDigest (publickey : PublicKey G₁ G₂) : Digest :=
  S.computeHash (S.publickeyCodec.write publickey)

/-- `srs_mpc_digest_to_g2`. -/
def digestToG2 (transcriptDigest : Digest) : G₂ := S.digestToFp transcriptDigest • S.oneG2

/-! ### Contributions -/

/-- `srs_mpc_phase2_compute_public_key`, where `s` is the random element. -/
def computePublicKey (transcriptDigest : Digest) (lastDelta : G₁) (deltaJ : F) (s : G₁) :
    PublicKey G₁ G₂ where
  transcriptDigest := transcriptDigest
  newDeltaG1 := deltaJ • lastDelta
  sG1 := s
  sDeltaJG1 := deltaJ • s
  rDeltaJG2 := deltaJ • S.digestToG2 transcriptDigest

/-- `srs_mpc_phase2_update_accumulator`. -/
def updateAccumulator (lastAccum : Accumulator G₁ G₂) (deltaJ : F) : Accumulator G₁ G₂ where
  csHash := lastAccum.csHash
  deltaG1 := deltaJ • lastAccum.deltaG1
  deltaG2 := deltaJ • lastAccum.deltaG2
  HG1 := lastAccum.HG1.map (deltaJ⁻¹ • ·)
  LG1 := lastAccum.LG1.map (deltaJ⁻¹ • ·)

/-- `srs_mpc_phase2_initial_challenge`. -/
def initialChallenge (accumulator : Accumulator G₁ G₂) : Challenge G₁ G₂ :=
  ⟨S.computeHash accumulator.csHash, accumulator⟩

/-- `srs_mpc_phase2_compute_response`. -/
def computeResponse (challenge : Challenge G₁ G₂) (deltaJ : F) (s : G₁) : Response G₁ G₂ where
  newAccumulator := updateAccumulator challenge.accumulator deltaJ
  publickey := S.computePublicKey challenge.transcriptDigest challenge.accumulator.deltaG1 deltaJ s

/-- `srs_mpc_phase2_compute_challenge`. -/
def computeChallenge (response : Response G₁ G₂) : Challenge G₁ G₂ :=
  ⟨S.computeDigest response.publickey, response.newAccumulator⟩

/-! ### Verification -/

/-- `random_linear_combination`, where `r i` is the random scalar of the entry `i`. -/
def randomLinearCombination (r : ℕ → F) (as bs : List G₁) : Except String (G₁ × G₁) :=
  if as.length ≠ bs.length then .error "vector size mismatch (random_linear_comb)"
  else .ok (SameRatio.combination r as, SameRatio.combination r bs)

section Verification

variable [DecidableEq GT]

/-- `same_ratio`. -/
def sameRatio (a₁ b₁ : G₁) (a₂ b₂ : G₂) : Bool := S.pairing a₁ b₂ = S.pairing b₁ a₂

/-- `same_ratio_vectors` on vectors of the first group. -/
def sameRatioVectors (r : ℕ → F) (a₁s b₁s : List G₁) (a₂ b₂ : G₂) : Except String Bool := do
  if a₁s.length ≠ b₁s.length then
    throw "vector size mismatch in same_ratio_batch"
  let (a₁Accum, b₁Accum) ← randomLinearCombination r a₁s b₁s
  return S.sameRatio a₁Accum b₁Accum a₂ b₂

/-- `srs_mpc_phase2_verify_publickey`. -/
def verifyPublickey (lastDeltaG1 : G₁) (publickey : PublicKey G₁ G₂) : Bool :=
  let rG2 := S.digestToG2 publickey.transcriptDigest
  S.sameRatio publickey.sG1 publickey.sDeltaJG1 rG2 publickey.rDeltaJG2 &&
    S.sameRatio lastDeltaG1 publickey.newDeltaG1 rG2 publickey.rDeltaJG2

/-- `srs_mpc_phase2_update_is_consistent`, with the random scalars for the two vectors. -/
def updateIsConsistent (rL rH : ℕ → F) (last updated : Accumulator G₁ G₂) :
    Except String Bool := do
  if last.csHash ≠ updated.csHash ∨ last.HG1.length ≠ updated.HG1.length ∨
      last.LG1.length ≠ updated.LG1.length then
    return false
  if !S.sameRatio last.deltaG1 updated.deltaG1 last.deltaG2 updated.deltaG2 then
    return false
  if !(← S.sameRatioVectors rL updated.LG1 last.LG1 last.deltaG2 updated.deltaG2) then
    return false
  if !(← S.sameRatioVectors rH updated.HG1 last.HG1 last.deltaG2 updated.deltaG2) then
    return false
  return true

variable [DecidableEq G₁]

/-- `srs_mpc_phase2_verify_update`. -/
def verifyUpdate (rL rH : ℕ → F) (last updated : Accumulator G₁ G₂)
    (publickey : PublicKey G₁ G₂) : Except String Bool :=
  if !S.verifyPublickey last.deltaG1 publickey then return false
  else if publickey.newDeltaG1 ≠ updated.deltaG1 then return false
  else S.updateIsConsistent rL rH last updated

/-- `srs_mpc_phase2_verify_response`. -/
def verifyResponse (rL rH : ℕ → F) (challenge : Challenge G₁ G₂) (response : Response G₁ G₂) :
    Except String Bool :=
  if challenge.transcriptDigest ≠ response.publickey.transcriptDigest then return false
  else S.verifyUpdate rL rH challenge.accumulator response.newAccumulator response.publickey

/-- The loop of `srs_mpc_phase2_verify_transcript`: the final `delta`, the final digest and whether
the contribution was found; nothing where the source returns `false`. -/
def verifyTranscriptFrom (enableContributionCheck : Bool) (checkForContribution : Digest)
    (digest : Digest) (delta : G₁) (contributionFound : Bool) (transcriptStream : Bytes) :
    Except String (Option (G₁ × Digest × Bool)) :=
  if transcriptStream = [] then .ok (some (delta, digest, contributionFound))
  else
    match _h : S.publickeyCodec.read transcriptStream with
    | none => .error "srs_mpc_phase2_publickey::read"
    | some (publickey, rest) =>
      if digest ≠ publickey.transcriptDigest then .ok none
      else
        let digest := S.computeDigest publickey
        let contributionFound := contributionFound ||
          (enableContributionCheck && digest == checkForContribution)
        if !S.verifyPublickey delta publickey then .ok none
        else verifyTranscriptFrom enableContributionCheck checkForContribution digest
          publickey.newDeltaG1 contributionFound rest
termination_by transcriptStream.length
decreasing_by exact StreamCodec.length_read_lt ‹_›

/-- `srs_mpc_phase2_verify_transcript` with the check for a contribution. -/
def verifyTranscript (initialTranscriptDigest : Digest) (initialDelta : G₁)
    (checkForContribution : Digest) (transcriptStream : Bytes) :
    Except String (Option (G₁ × Digest × Bool)) :=
  S.verifyTranscriptFrom true checkForContribution initialTranscriptDigest initialDelta false
    transcriptStream

/-- `srs_mpc_phase2_verify_transcript` without it. -/
def verifyTranscriptPlain (initialTranscriptDigest : Digest) (initialDelta : G₁)
    (transcriptStream : Bytes) : Except String (Option (G₁ × Digest)) := do
  let result ← S.verifyTranscriptFrom false ⟨List.replicate 64 0, length_replicate⟩
    initialTranscriptDigest initialDelta false transcriptStream
  return result.map fun r => (r.1, r.2.1)

/-- The subcommand `verify-transcript`, on the contents of its files: its exit code. -/
def verifyTranscriptCommand (rL rH : ℕ → F) (challenge0 finalChallenge : Challenge G₁ G₂)
    (transcript : Bytes) (digest : Option Digest) : Except String ℕ := do
  if S.computeHash challenge0.accumulator.csHash ≠ challenge0.transcriptDigest then
    throw "transcript digest does not match starting challenge"
  let result ←
    if let some checkContributionDigest := digest then
      S.verifyTranscript challenge0.transcriptDigest challenge0.accumulator.deltaG1
        checkContributionDigest transcript
    else do
      let result ← S.verifyTranscriptPlain challenge0.transcriptDigest
        challenge0.accumulator.deltaG1 transcript
      pure (result.map fun r => (r.1, r.2, true))
  match result with
  | none => return 1
  | some (finalDelta, finalTranscriptDigest, contributionFound) =>
    if !contributionFound then return 1
    if finalChallenge.transcriptDigest ≠ finalTranscriptDigest then
      throw "invalid transcript digest in final accumulator"
    if finalChallenge.accumulator.deltaG1 ≠ finalDelta then
      throw "invalid delta_g1 in final accumulator"
    if !(← S.updateIsConsistent rL rH challenge0.accumulator finalChallenge.accumulator) then
      throw "accumlators are inconsistent"
    return 0

end Verification

/-! ### Chains of contributions -/

/-- The responses of a chain of contributions, each a secret scalar with a random element, together
with the challenges they answer. -/
def responses (challenge : Challenge G₁ G₂) :
    List (F × G₁) → List (Challenge G₁ G₂ × Response G₁ G₂)
  | [] => []
  | (deltaJ, s) :: contributions =>
    let response := S.computeResponse challenge deltaJ s
    (challenge, response) :: responses (S.computeChallenge response) contributions

/-- The challenge at the end of a chain. -/
def lastChallenge (challenge : Challenge G₁ G₂) : List (F × G₁) → Challenge G₁ G₂
  | [] => challenge
  | (deltaJ, s) :: contributions =>
    lastChallenge (S.computeChallenge (S.computeResponse challenge deltaJ s)) contributions

/-- The public keys of a chain. -/
def publickeys (challenge : Challenge G₁ G₂) (contributions : List (F × G₁)) :
    List (PublicKey G₁ G₂) :=
  (S.responses challenge contributions).map fun p => p.2.publickey

/-- The transcript of a chain. -/
def transcript (challenge : Challenge G₁ G₂) (contributions : List (F × G₁)) : Bytes :=
  (S.publickeys challenge contributions).flatMap S.publickeyCodec.write

@[simp] theorem updateAccumulator_one (accumulator : Accumulator G₁ G₂) :
    updateAccumulator accumulator (1 : F) = accumulator := by
  simp [updateAccumulator]

/-- Two updates are one by the product. -/
theorem updateAccumulator_updateAccumulator (accumulator : Accumulator G₁ G₂) (k l : F) :
    updateAccumulator (updateAccumulator accumulator k) l =
      updateAccumulator accumulator (k * l) := by
  simp [updateAccumulator, smul_smul, mul_comm]

/-- The accumulator at the end of a chain has been updated by the product of the scalars. -/
theorem lastChallenge_accumulator (challenge : Challenge G₁ G₂) (contributions : List (F × G₁)) :
    (S.lastChallenge challenge contributions).accumulator =
      updateAccumulator challenge.accumulator (contributions.map Prod.fst).prod := by
  induction contributions generalizing challenge with
  | nil => exact (updateAccumulator_one _).symm
  | cons contribution contributions ih =>
    obtain ⟨deltaJ, s⟩ := contribution
    rw [lastChallenge, ih, map_cons, prod_cons, ← updateAccumulator_updateAccumulator]
    rfl

/-! ### Consistent updates -/

section Consistency

variable {S} [DecidableEq GT]

theorem sameRatio_eq_true {a₁ b₁ : G₁} {a₂ b₂ : G₂} :
    S.sameRatio a₁ b₁ a₂ b₂ = true ↔ S.pairing a₁ b₂ = S.pairing b₁ a₂ :=
  decide_eq_true_iff

theorem verifyPublickey_eq_true {lastDeltaG1 : G₁} {publickey : PublicKey G₁ G₂} :
    S.verifyPublickey lastDeltaG1 publickey = true ↔
      S.pairing publickey.sG1 publickey.rDeltaJG2 =
          S.pairing publickey.sDeltaJG1 (S.digestToG2 publickey.transcriptDigest) ∧
        S.pairing lastDeltaG1 publickey.rDeltaJG2 =
          S.pairing publickey.newDeltaG1 (S.digestToG2 publickey.transcriptDigest) := by
  rw [verifyPublickey, Bool.and_eq_true, sameRatio_eq_true, sameRatio_eq_true]

theorem verifyPublickey_computePublicKey (digest : Digest) (lastDelta : G₁) (deltaJ : F) (s : G₁) :
    S.verifyPublickey lastDelta (S.computePublicKey digest lastDelta deltaJ s) = true :=
  verifyPublickey_eq_true.mpr ⟨SameRatio.eq_of_smul _ _ _, SameRatio.eq_of_smul _ _ _⟩

theorem sameRatioVectors_of_length_eq {r : ℕ → F} {a₁s b₁s : List G₁} (a₂ b₂ : G₂)
    (hlen : a₁s.length = b₁s.length) :
    S.sameRatioVectors r a₁s b₁s a₂ b₂ =
      .ok (S.sameRatio (SameRatio.combination r a₁s) (SameRatio.combination r b₁s) a₂ b₂) := by
  rw [sameRatioVectors, randomLinearCombination, if_neg (not_not.mpr hlen),
    if_neg (not_not.mpr hlen)]
  rfl

/-- What `update_is_consistent` checks. -/
theorem updateIsConsistent_eq_ok_true {rL rH : ℕ → F} {last updated : Accumulator G₁ G₂} :
    S.updateIsConsistent rL rH last updated = .ok true ↔
      (last.csHash = updated.csHash ∧ last.HG1.length = updated.HG1.length ∧
        last.LG1.length = updated.LG1.length) ∧
      S.pairing last.deltaG1 updated.deltaG2 = S.pairing updated.deltaG1 last.deltaG2 ∧
      S.pairing (SameRatio.combination rL updated.LG1) updated.deltaG2 =
        S.pairing (SameRatio.combination rL last.LG1) last.deltaG2 ∧
      S.pairing (SameRatio.combination rH updated.HG1) updated.deltaG2 =
        S.pairing (SameRatio.combination rH last.HG1) last.deltaG2 := by
  by_cases hbasic : last.csHash = updated.csHash ∧ last.HG1.length = updated.HG1.length ∧
      last.LG1.length = updated.LG1.length
  · rw [updateIsConsistent, if_neg (by tauto),
      sameRatioVectors_of_length_eq _ _ hbasic.2.2.symm,
      sameRatioVectors_of_length_eq _ _ hbasic.2.1.symm, ← sameRatio_eq_true, ← sameRatio_eq_true,
      ← sameRatio_eq_true]
    cases S.sameRatio last.deltaG1 updated.deltaG1 last.deltaG2 updated.deltaG2 <;>
      cases S.sameRatio (SameRatio.combination rL updated.LG1)
        (SameRatio.combination rL last.LG1) last.deltaG2 updated.deltaG2 <;>
      cases S.sameRatio (SameRatio.combination rH updated.HG1)
        (SameRatio.combination rH last.HG1) last.deltaG2 updated.deltaG2 <;>
      simp [hbasic, pure, Except.pure]
  · rw [updateIsConsistent, if_pos (by tauto)]
    simp [hbasic, pure, Except.pure]

/-- An update by a scalar that is not zero is consistent. -/
theorem updateIsConsistent_updateAccumulator (rL rH : ℕ → F) (accumulator : Accumulator G₁ G₂)
    {k : F} (hk : k ≠ 0) :
    S.updateIsConsistent rL rH accumulator (updateAccumulator accumulator k) = .ok true := by
  have hdivided (r : ℕ → F) (as : List G₁) :
      S.pairing (SameRatio.combination r (as.map (k⁻¹ • ·))) (k • accumulator.deltaG2) =
        S.pairing (SameRatio.combination r as) accumulator.deltaG2 := by
    rw [SameRatio.combination_map_smul, SameRatio.eq_of_smul, smul_inv_smul₀ hk]
  refine updateIsConsistent_eq_ok_true.mpr ⟨⟨rfl, ?_, ?_⟩, ?_, ?_, ?_⟩
  · exact (length_map _).symm
  · exact (length_map _).symm
  · exact SameRatio.eq_of_smul k _ _
  · exact hdivided rL accumulator.LG1
  · exact hdivided rH accumulator.HG1

end Consistency

/-! ### Chains are accepted -/

section Responses

variable {S} [DecidableEq G₁] [DecidableEq GT]

/-- What `verify_response` checks. -/
theorem verifyResponse_eq_ok_true {rL rH : ℕ → F} {challenge : Challenge G₁ G₂}
    {response : Response G₁ G₂} :
    S.verifyResponse rL rH challenge response = .ok true ↔
      challenge.transcriptDigest = response.publickey.transcriptDigest ∧
      S.verifyPublickey challenge.accumulator.deltaG1 response.publickey = true ∧
      response.publickey.newDeltaG1 = response.newAccumulator.deltaG1 ∧
      S.updateIsConsistent rL rH challenge.accumulator response.newAccumulator = .ok true := by
  rw [verifyResponse, verifyUpdate]
  split_ifs with hdigest hkey hdelta
  · simp [hdigest, pure, Except.pure]
  · simp_all [pure, Except.pure]
  · simp [hdelta, pure, Except.pure]
  · simp_all

/-- The response that a contributor computes is accepted. -/
theorem verifyResponse_computeResponse (rL rH : ℕ → F) (challenge : Challenge G₁ G₂) {deltaJ : F}
    (hdeltaJ : deltaJ ≠ 0) (s : G₁) :
    S.verifyResponse rL rH challenge (S.computeResponse challenge deltaJ s) = .ok true :=
  verifyResponse_eq_ok_true.mpr ⟨rfl, verifyPublickey_computePublicKey _ _ _ _, rfl,
    updateIsConsistent_updateAccumulator rL rH challenge.accumulator hdeltaJ⟩

theorem verifyResponse_of_mem_responses (rL rH : ℕ → F) {challenge : Challenge G₁ G₂}
    {contributions : List (F × G₁)} (hcontributions : ∀ c ∈ contributions, c.1 ≠ 0) :
    ∀ p ∈ S.responses challenge contributions, S.verifyResponse rL rH p.1 p.2 = .ok true := by
  induction contributions generalizing challenge with
  | nil => exact fun p hp => absurd hp not_mem_nil
  | cons contribution contributions ih =>
    obtain ⟨hhead, htail⟩ := forall_mem_cons.mp hcontributions
    refine forall_mem_cons.mpr ⟨?_, ih htail⟩
    exact verifyResponse_computeResponse rL rH challenge hhead contribution.2

end Responses

section Transcripts

variable {S} [DecidableEq GT] {enable found : Bool} {check digest : Digest} {delta : G₁}

theorem verifyTranscriptFrom_nil :
    S.verifyTranscriptFrom enable check digest delta found [] =
      .ok (some (delta, digest, found)) := by
  rw [verifyTranscriptFrom, if_pos rfl]

/-- One round of the loop. -/
theorem verifyTranscriptFrom_of_read {stream rest : Bytes} {publickey : PublicKey G₁ G₂}
    (hread : S.publickeyCodec.read stream = some (publickey, rest)) :
    S.verifyTranscriptFrom enable check digest delta found stream =
      if digest = publickey.transcriptDigest ∧ S.verifyPublickey delta publickey = true then
        S.verifyTranscriptFrom enable check (S.computeDigest publickey) publickey.newDeltaG1
          (found || (enable && S.computeDigest publickey == check)) rest
      else .ok none := by
  have hne : stream ≠ [] := by
    rintro rfl
    exact Nat.not_lt_zero _ (StreamCodec.length_read_lt hread)
  rw [verifyTranscriptFrom, if_neg hne]
  split
  · next h => rw [hread] at h; cases h
  · next h =>
    rw [hread] at h
    cases h
    by_cases hdigest : digest = publickey.transcriptDigest
    · cases hkey : S.verifyPublickey delta publickey <;> simp [hdigest]
    · rw [if_pos hdigest, if_neg fun h => hdigest h.1]

/-- The transcript of a chain is accepted; it ends with the last challenge, and exactly the digests of
its keys are found. -/
theorem verifyTranscriptFrom_transcript (challenge : Challenge G₁ G₂)
    (contributions : List (F × G₁)) :
    S.verifyTranscriptFrom enable check challenge.transcriptDigest challenge.accumulator.deltaG1
        found (S.transcript challenge contributions) =
      .ok (some ((S.lastChallenge challenge contributions).accumulator.deltaG1,
        (S.lastChallenge challenge contributions).transcriptDigest,
        found || (enable &&
          decide (check ∈ (S.publickeys challenge contributions).map S.computeDigest)))) := by
  induction contributions generalizing challenge found with
  | nil =>
    refine verifyTranscriptFrom_nil.trans ?_
    simp [lastChallenge, publickeys, responses]
  | cons contribution contributions ih =>
    obtain ⟨deltaJ, s⟩ := contribution
    have hkey := verifyPublickey_computePublicKey (S := S) challenge.transcriptDigest
      challenge.accumulator.deltaG1 deltaJ s
    have hround : S.verifyTranscriptFrom enable check challenge.transcriptDigest
        challenge.accumulator.deltaG1 found (S.transcript challenge ((deltaJ, s) :: contributions)) =
        _ :=
      (verifyTranscriptFrom_of_read (S.publickeyCodec.read_write _ _)).trans
        (if_pos ⟨rfl, hkey⟩)
    refine hround.trans ((ih (S.computeChallenge (S.computeResponse challenge deltaJ s))).trans ?_)
    have hfound : decide (check ∈ (S.publickeys challenge ((deltaJ, s) :: contributions)).map
        S.computeDigest) = (S.computeDigest (S.computeResponse challenge deltaJ s).publickey == check ||
          decide (check ∈ (S.publickeys (S.computeChallenge
            (S.computeResponse challenge deltaJ s)) contributions).map S.computeDigest)) := by
      rw [publickeys, responses, map_cons, map_cons, Bool.eq_iff_iff]
      simp only [mem_cons, decide_eq_true_eq, Bool.or_eq_true, beq_iff_eq]
      rw [eq_comm (a := check)]
      rfl
    rw [hfound, lastChallenge, Bool.and_or_distrib_left, Bool.or_assoc]

end Transcripts

theorem updateIsConsistent_lastChallenge {S : Setting F G₁ G₂ GT} [DecidableEq GT] (rL rH : ℕ → F)
    (challenge : Challenge G₁ G₂) {contributions : List (F × G₁)}
    (hcontributions : ∀ c ∈ contributions, c.1 ≠ 0) :
    S.updateIsConsistent rL rH challenge.accumulator
      (S.lastChallenge challenge contributions).accumulator = .ok true := by
  rw [lastChallenge_accumulator]
  refine updateIsConsistent_updateAccumulator rL rH _ (prod_ne_zero fun hzero => ?_)
  obtain ⟨c, hc, hc0⟩ := mem_map.mp hzero
  exact hcontributions c hc hc0

/-- The subcommand `verify-transcript` ends well on the files of a chain from an initial challenge,
with no digest or with the digest of a contribution. -/
theorem verifyTranscriptCommand_transcript [DecidableEq G₁] [DecidableEq GT] (rL rH : ℕ → F)
    (accumulator : Accumulator G₁ G₂) {contributions : List (F × G₁)}
    (hcontributions : ∀ c ∈ contributions, c.1 ≠ 0) {digest : Option Digest}
    (hdigest : ∀ d ∈ digest,
      d ∈ (S.publickeys (S.initialChallenge accumulator) contributions).map S.computeDigest) :
    S.verifyTranscriptCommand rL rH (S.initialChallenge accumulator)
      (S.lastChallenge (S.initialChallenge accumulator) contributions)
      (S.transcript (S.initialChallenge accumulator) contributions) digest = .ok 0 := by
  have hconsistent := updateIsConsistent_lastChallenge (S := S) rL rH
    (S.initialChallenge accumulator) hcontributions
  have hinitial : S.computeHash (S.initialChallenge accumulator).accumulator.csHash =
      (S.initialChallenge accumulator).transcriptDigest := rfl
  rw [verifyTranscriptCommand, if_neg (not_not.mpr hinitial)]
  cases digest with
  | none =>
    simp [verifyTranscriptPlain, verifyTranscriptFrom_transcript, hconsistent, pure, Except.pure]
  | some d =>
    have hd := hdigest d rfl
    simp [verifyTranscript, verifyTranscriptFrom_transcript, hd, hconsistent, pure, Except.pure]

/-- **Completeness of the second phase.** For every initial challenge and every list of contributions
with scalars that are not zero: every response is accepted, whatever the random scalars; the
transcript is accepted, with the `delta` and the digest of the last challenge, and finds exactly the
digests of the contributions; the last accumulator is the initial one with `delta` multiplied and
the other entries divided by the product of the scalars; and it is consistent with the initial one. -/
theorem phase2_complete [DecidableEq G₁] [DecidableEq GT] (challenge : Challenge G₁ G₂)
    (contributions : List (F × G₁)) (hcontributions : ∀ c ∈ contributions, c.1 ≠ 0) :
    (∀ p ∈ S.responses challenge contributions, ∀ rL rH,
      S.verifyResponse rL rH p.1 p.2 = .ok true) ∧
    (∀ check, S.verifyTranscript challenge.transcriptDigest challenge.accumulator.deltaG1 check
        (S.transcript challenge contributions) =
      .ok (some ((S.lastChallenge challenge contributions).accumulator.deltaG1,
        (S.lastChallenge challenge contributions).transcriptDigest,
        decide (check ∈ (S.publickeys challenge contributions).map S.computeDigest)))) ∧
    (let product := (contributions.map Prod.fst).prod;
      (S.lastChallenge challenge contributions).accumulator =
        ⟨challenge.accumulator.csHash, product • challenge.accumulator.deltaG1,
          product • challenge.accumulator.deltaG2,
          challenge.accumulator.HG1.map (product⁻¹ • ·),
          challenge.accumulator.LG1.map (product⁻¹ • ·)⟩) ∧
    ∀ rL rH, S.updateIsConsistent rL rH challenge.accumulator
      (S.lastChallenge challenge contributions).accumulator = .ok true := by
  have hlast := S.lastChallenge_accumulator challenge contributions
  refine ⟨fun p hp rL rH => ?_, fun check => ?_, hlast, fun rL rH => ?_⟩
  · exact verifyResponse_of_mem_responses rL rH hcontributions p hp
  · exact verifyTranscriptFrom_transcript challenge contributions
  · exact updateIsConsistent_lastChallenge rL rH challenge hcontributions

/-- The elements of the field with three elements, one byte each. -/
def residueCodec : StreamCodec (ZMod 3) where
  write a := [BitVec.ofNat 8 a.val]
  read
    | [] => none
    | b :: rest => some (b.toNat, rest)
  read_write := by
    intro a rest
    have hlt : a.val < 2 ^ 8 := (ZMod.val_lt a).trans (by decide)
    have hval : (BitVec.ofNat 8 a.val).toNat = a.val := Nat.mod_eq_of_lt hlt
    exact congrArg (fun v => some (v, rest)) ((congrArg Nat.cast hval).trans (ZMod.natCast_zmod_val a))
  length_read_le := by
    rintro (_ | ⟨b, bs⟩) a rest h
    · cases h
    · cases h
      exact Nat.le_succ _

/-- The curve of which all groups are the field with three elements. -/
def lineSetting : Setting (ZMod 3) (ZMod 3) (ZMod 3) (ZMod 3) where
  pairing := LinearMap.mul (ZMod 3) (ZMod 3)
  oneG1 := 1
  oneG2 := 1
  codecG1 := residueCodec
  codecG2 := residueCodec
  digestToFp _ := 1
  computeHash _ := ⟨List.replicate 64 0, length_replicate⟩

/-- The accumulator with one entry in either vector. -/
def lineAccumulator : Accumulator (ZMod 3) (ZMod 3) where
  csHash := ⟨List.replicate 64 0, length_replicate⟩
  deltaG1 := 1
  deltaG2 := 1
  HG1 := [1]
  LG1 := [2]

theorem phase2_complete_two_contributions :
    (lineSetting.lastChallenge (lineSetting.initialChallenge lineAccumulator)
      [(2, 1), (2, 0)]).accumulator = lineAccumulator := by
  have hlast := (phase2_complete lineSetting (lineSetting.initialChallenge lineAccumulator)
    [(2, 1), (2, 0)] (by decide)).2.2.1
  have hproduct : (([(2, 1), (2, 0)] : List (ZMod 3 × ZMod 3)).map Prod.fst).prod = 1 := by decide
  exact hlast.trans (by rw [hproduct]; exact updateAccumulator_one lineAccumulator)

theorem verifyTranscriptCommand_one_contribution :
    let challenge0 := lineSetting.initialChallenge lineAccumulator
    lineSetting.verifyTranscriptCommand (fun _ => 1) (fun _ => 2) challenge0
      (lineSetting.lastChallenge challenge0 [(2, 1)]) (lineSetting.transcript challenge0 [(2, 1)])
      (some ⟨List.replicate 64 0, length_replicate⟩) = .ok 0 :=
  verifyTranscriptCommand_transcript lineSetting _ _ lineAccumulator (by decide) fun d hd => by
    obtain rfl := Option.some.inj hd
    exact mem_cons_self

end Setting

end Zeth.Mpc
