import Zeth.Mpc.Phase2

/-!
# What the second phase of the MPC accepts

The checks of the second phase are solved for the scalar of a contribution, for groups that are
lines over the scalar field and a pairing that is not degenerate. A response that is accepted
whatever the random scalars is the update of the accumulator by one scalar. The keys of an accepted
transcript each have one scalar, but it may be zero, and the point that proves that it is known may
be zero as well: `verify_publickey` compares ratios and does not exclude the identity.

## Main definitions

* `Mpc.Setting.Nondegenerate`.
* `Mpc.Setting.Contributions`: the keys of a chain with the given scalars.
* `Mpc.Setting.Genuine`: a transcript of contributions by scalars that are known and not zero.

## Main results

* `Mpc.Setting.existsUnique_update`: accepted responses are updates.
* `Mpc.Setting.genuine_iff`: which accepted transcripts are genuine.
-/

namespace Zeth.Mpc

open ByteString SameRatio List

namespace Setting

variable {F G₁ G₂ GT : Type} [Field F] [AddCommGroup G₁] [Module F G₁] [AddCommGroup G₂]
  [Module F G₂] [AddCommGroup GT] [Module F GT]

/-- The groups are lines over the scalar field, and the pairing separates the elements of the
first. -/
structure Nondegenerate (S : Setting F G₁ G₂ GT) : Prop where
  finrank_G1 : Module.finrank F G₁ = 1
  finrank_G2 : Module.finrank F G₂ = 1
  separatingLeft : S.pairing.SeparatingLeft

variable {S : Setting F G₁ G₂ GT}

/-! ### Accepted responses -/

section Updates

variable [DecidableEq GT]

/-- A consistent update multiplies both `delta`s by one scalar and divides the other entries. -/
theorem exists_smul_of_updateIsConsistent (hS : S.Nondegenerate) {last updated : Accumulator G₁ G₂}
    (hdelta : last.deltaG2 ≠ 0)
    (h : ∀ rL rH, S.updateIsConsistent rL rH last updated = .ok true) :
    ∃ k : F, updated.deltaG1 = k • last.deltaG1 ∧ updated.deltaG2 = k • last.deltaG2 ∧
      last.HG1 = updated.HG1.map (k • ·) ∧ last.LG1 = updated.LG1.map (k • ·) ∧
      last.csHash = updated.csHash := by
  have hchecks rL rH := updateIsConsistent_eq_ok_true.mp (h rL rH)
  obtain ⟨⟨hcs, hH, hL⟩, hdeltas, -⟩ := hchecks 0 0
  obtain ⟨k, hk₁, hk₂⟩ :=
    (eq_iff_exists_smul hS.finrank_G2 hS.separatingLeft hdelta).mp hdeltas
  -- each of the two checks of vectors holds for all combinations of the entries
  have hsolve {r : ℕ → F} {as bs : List G₁}
      (hpair : S.pairing (SameRatio.combination r as) updated.deltaG2 =
        S.pairing (SameRatio.combination r bs) last.deltaG2) :
      SameRatio.combination r bs = k • SameRatio.combination r as := by
    rw [hk₂] at hpair
    exact (eq_smul_iff hS.finrank_G2 hS.separatingLeft hdelta).mp hpair
  refine ⟨k, hk₁, hk₂, ?_, ?_, hcs⟩
  · exact (eq_map_smul_iff hH.symm).mp fun r => hsolve (hchecks 0 r).2.2.2
  · exact (eq_map_smul_iff hL.symm).mp fun r => hsolve (hchecks r 0).2.2.1

/-- **Soundness of updates.** A response that is accepted for all random scalars has the accumulator
of the challenge updated by a scalar, which is unique and not zero. -/
theorem existsUnique_update [DecidableEq G₁] (hS : S.Nondegenerate) (challenge : Challenge G₁ G₂)
    (response : Response G₁ G₂) (hdelta₁ : challenge.accumulator.deltaG1 ≠ 0)
    (hdelta₂ : challenge.accumulator.deltaG2 ≠ 0)
    (hentry : (∃ a ∈ challenge.accumulator.HG1, a ≠ 0) ∨
      ∃ a ∈ challenge.accumulator.LG1, a ≠ 0)
    (haccepted : ∀ rL rH, S.verifyResponse rL rH challenge response = .ok true) :
    ∃! k : F, k ≠ 0 ∧
      response.newAccumulator.deltaG1 = k • challenge.accumulator.deltaG1 ∧
      response.newAccumulator.deltaG2 = k • challenge.accumulator.deltaG2 ∧
      response.newAccumulator.LG1.map (k • ·) = challenge.accumulator.LG1 ∧
      response.newAccumulator.HG1.map (k • ·) = challenge.accumulator.HG1 ∧
      response.newAccumulator.csHash = challenge.accumulator.csHash ∧
      response.newAccumulator = updateAccumulator challenge.accumulator k := by
  obtain ⟨k, hk₁, hk₂, hH, hL, hcs⟩ := exists_smul_of_updateIsConsistent hS hdelta₂
    fun rL rH => (verifyResponse_eq_ok_true.mp (haccepted rL rH)).2.2.2
  have hk : k ≠ 0 := by
    rcases hentry with hentry | hentry
    · exact ne_zero_of_eq_map_smul hH hentry
    · exact ne_zero_of_eq_map_smul hL hentry
  refine ⟨k, ⟨hk, hk₁, hk₂, hL.symm, hH.symm, hcs.symm, ?_⟩, ?_⟩
  · ext1
    · exact hcs.symm
    · exact hk₁
    · exact hk₂
    · exact eq_map_inv_smul hk hH
    · exact eq_map_inv_smul hk hL
  · rintro k' ⟨-, hk', -⟩
    exact smul_left_injective F hdelta₁ (hk'.symm.trans hk₁)

end Updates

/-- The pairing of the curve of lines is the product of the field. -/
theorem nondegenerate_lineSetting : lineSetting.Nondegenerate where
  finrank_G1 := Module.finrank_self _
  finrank_G2 := Module.finrank_self _
  separatingLeft := by
    intro a ha
    exact (mul_one a).symm.trans (ha 1)

theorem existsUnique_update_two :
    ∃ k : ZMod 3, k ≠ 0 ∧
      (lineSetting.computeResponse (lineSetting.initialChallenge lineAccumulator) 2 1).newAccumulator =
        updateAccumulator lineAccumulator k := by
  obtain ⟨k, ⟨hk, -, -, -, -, -, hupdate⟩, -⟩ := existsUnique_update nondegenerate_lineSetting
    (lineSetting.initialChallenge lineAccumulator)
    (lineSetting.computeResponse (lineSetting.initialChallenge lineAccumulator) 2 1)
    (by decide) (by decide) (.inl ⟨1, mem_singleton.mpr rfl, by decide⟩)
    fun rL rH => verifyResponse_computeResponse rL rH _ (by decide) 1
  exact ⟨k, hk, hupdate⟩

/-! ### Accepted transcripts -/

/-- The keys are those of contributions by the given scalars, one after the other, to `delta`. -/
def Contributions (S : Setting F G₁ G₂ GT) : G₁ → List (PublicKey G₁ G₂) → List F → Prop
  | _, [], [] => True
  | delta, publickey :: publickeys, k :: ks =>
    publickey.sDeltaJG1 = k • publickey.sG1 ∧
      publickey.rDeltaJG2 = k • S.digestToG2 publickey.transcriptDigest ∧
      publickey.newDeltaG1 = k • delta ∧
      S.Contributions publickey.newDeltaG1 publickeys ks
  | _, _, _ => False

/-- The transcript holds keys with points that are not zero, of contributions by scalars that are not
zero, which take `delta` to `finalDelta`. -/
def Genuine (S : Setting F G₁ G₂ GT) (delta : G₁) (transcript : Bytes) (finalDelta : G₁) : Prop :=
  ∃ publickeys ks, S.publickeyCodec.readAll transcript = some publickeys ∧
    S.Contributions delta publickeys ks ∧
    (∀ publickey ∈ publickeys, publickey.sG1 ≠ 0) ∧ (∀ k ∈ ks, k ≠ 0) ∧
    finalDelta = ks.prod • delta ∧ finalDelta ≠ 0

/-- The `delta` after the given keys. -/
def finalDelta (delta : G₁) (publickeys : List (PublicKey G₁ G₂)) : G₁ :=
  publickeys.foldl (fun _ publickey => publickey.newDeltaG1) delta

theorem Contributions.finalDelta_eq {delta : G₁} {publickeys : List (PublicKey G₁ G₂)} {ks : List F}
    (h : S.Contributions delta publickeys ks) : finalDelta delta publickeys = ks.prod • delta := by
  induction publickeys generalizing delta ks with
  | nil =>
    cases ks with
    | nil => rw [prod_nil, one_smul]; rfl
    | cons => exact h.elim
  | cons publickey publickeys ih =>
    cases ks with
    | nil => exact h.elim
    | cons k ks =>
      obtain ⟨-, -, hdelta, hrest⟩ := h
      refine (ih hrest).trans ?_
      rw [hdelta, smul_smul, prod_cons, mul_comm]

/-- From a `delta` that is not zero, the scalars are not zero exactly when no `delta` becomes zero. -/
theorem Contributions.forall_ne_zero_iff {delta : G₁} {publickeys : List (PublicKey G₁ G₂)}
    {ks : List F} (h : S.Contributions delta publickeys ks) (hdelta : delta ≠ 0) :
    (∀ k ∈ ks, k ≠ 0) ↔ ∀ publickey ∈ publickeys, publickey.newDeltaG1 ≠ 0 := by
  induction publickeys generalizing delta ks with
  | nil =>
    cases ks with
    | nil => exact iff_of_true (forall_mem_nil _) (forall_mem_nil _)
    | cons => exact h.elim
  | cons publickey publickeys ih =>
    cases ks with
    | nil => exact h.elim
    | cons k ks =>
      obtain ⟨-, -, hnew, hrest⟩ := h
      rw [forall_mem_cons, forall_mem_cons]
      have hhead : k ≠ 0 ↔ publickey.newDeltaG1 ≠ 0 := by
        rw [hnew, smul_ne_zero_iff]
        exact (and_iff_left hdelta).symm
      rw [hhead]
      exact and_congr_right fun hne => ih hrest hne

variable [DecidableEq GT]

/-- What `verify_publickey` accepts. -/
theorem verifyPublickey_iff (hS : S.Nondegenerate) {lastDelta : G₁} {publickey : PublicKey G₁ G₂}
    (hr : S.digestToG2 publickey.transcriptDigest ≠ 0) :
    S.verifyPublickey lastDelta publickey = true ↔
      ∃ k : F, publickey.sDeltaJG1 = k • publickey.sG1 ∧
        publickey.rDeltaJG2 = k • S.digestToG2 publickey.transcriptDigest ∧
        publickey.newDeltaG1 = k • lastDelta := by
  have hratio {a b : G₁} : S.pairing a publickey.rDeltaJG2 =
      S.pairing b (S.digestToG2 publickey.transcriptDigest) ↔ _ :=
    eq_iff_exists_smul hS.finrank_G2 hS.separatingLeft hr
  rw [verifyPublickey_eq_true, hratio, hratio]
  constructor
  · rintro ⟨⟨k, hs, hk⟩, k', hnew, hk'⟩
    -- both checks are made against the same point of the second group
    obtain rfl : k = k' := smul_left_injective F hr (hk.symm.trans hk')
    exact ⟨k, hs, hk, hnew⟩
  · rintro ⟨k, hs, hk, hnew⟩
    exact ⟨⟨k, hs, hk⟩, k, hnew, hk⟩

variable {enable found : Bool} {check digest digest' : Digest} {delta delta' : G₁}

/-- One round of the loop on a transcript that is accepted. -/
theorem verifyTranscriptFrom_eq_ok_some {stream : Bytes} {found' : Bool} (hne : stream ≠ [])
    (h : S.verifyTranscriptFrom enable check digest delta found stream =
      .ok (some (delta', digest', found'))) :
    ∃ publickey rest, S.publickeyCodec.read stream = some (publickey, rest) ∧
      digest = publickey.transcriptDigest ∧ S.verifyPublickey delta publickey = true ∧
      ∃ found, S.verifyTranscriptFrom enable check (S.computeDigest publickey) publickey.newDeltaG1
        found rest = .ok (some (delta', digest', found')) := by
  cases hread : S.publickeyCodec.read stream with
  | none =>
    rw [verifyTranscriptFrom, if_neg hne] at h
    split at h
    · cases h
    · next h' => rw [hread] at h'; cases h'
  | some p =>
    obtain ⟨publickey, rest⟩ := p
    rw [verifyTranscriptFrom_of_read hread] at h
    split_ifs at h with hchecks
    · exact ⟨publickey, rest, rfl, hchecks.1, hchecks.2, _, h⟩
    · cases h

/-- An accepted transcript holds the keys of contributions by some scalars. -/
theorem exists_contributions (hS : S.Nondegenerate) {stream : Bytes} {found' : Bool}
    (h : S.verifyTranscriptFrom enable check digest delta found stream =
      .ok (some (delta', digest', found')))
    (hr : ∀ publickeys, S.publickeyCodec.readAll stream = some publickeys →
      ∀ publickey ∈ publickeys, S.digestToG2 publickey.transcriptDigest ≠ 0) :
    ∃ publickeys ks, S.publickeyCodec.readAll stream = some publickeys ∧
      S.Contributions delta publickeys ks ∧ delta' = finalDelta delta publickeys := by
  induction hlen : stream.length using Nat.strong_induction_on
    generalizing stream digest delta found with
  | _ n ih =>
    by_cases hne : stream = []
    · subst hne
      rw [verifyTranscriptFrom_nil] at h
      cases h
      exact ⟨[], [], StreamCodec.readAll_nil _, trivial, rfl⟩
    obtain ⟨publickey, rest, hread, -, hkey, found, hrest⟩ := verifyTranscriptFrom_eq_ok_some hne h
    have hall {publickeys} (hpublickeys : S.publickeyCodec.readAll rest = some publickeys) :
        S.publickeyCodec.readAll stream = some (publickey :: publickeys) := by
      rw [StreamCodec.readAll_of_read hread, hpublickeys, Option.map_some]
    obtain ⟨publickeys, ks, hpublickeys, hks, hdelta'⟩ :=
      ih rest.length (hlen ▸ StreamCodec.length_read_lt hread) hrest
        (fun publickeys hpublickeys => (forall_mem_cons.mp (hr _ (hall hpublickeys))).2) rfl
    have hr₀ := (forall_mem_cons.mp (hr _ (hall hpublickeys))).1
    obtain ⟨k, hs, hk, hnew⟩ := (verifyPublickey_iff hS hr₀).mp hkey
    exact ⟨publickey :: publickeys, k :: ks, hall hpublickeys, ⟨hs, hk, hnew, hks⟩, hdelta'⟩

/-- **Genuine transcripts.** An accepted transcript of which no digest gives the zero point is genuine
exactly when no key has zero as its point `s` or as its new `delta`. -/
theorem genuine_iff (hS : S.Nondegenerate) {initialDigest : Digest} {initialDelta : G₁}
    (hinitial : initialDelta ≠ 0) {transcript : Bytes} {outFinalDelta : G₁} {outDigest : Digest}
    {outFound : Bool}
    (haccepted : S.verifyTranscriptFrom enable check initialDigest initialDelta false transcript =
      .ok (some (outFinalDelta, outDigest, outFound)))
    (hr : ∀ publickeys, S.publickeyCodec.readAll transcript = some publickeys →
      ∀ publickey ∈ publickeys, S.digestToG2 publickey.transcriptDigest ≠ 0) :
    S.Genuine initialDelta transcript outFinalDelta ↔
      ∀ publickeys, S.publickeyCodec.readAll transcript = some publickeys →
        ∀ publickey ∈ publickeys, publickey.sG1 ≠ 0 ∧ publickey.newDeltaG1 ≠ 0 := by
  constructor
  · rintro ⟨publickeys, ks, hread, hks, hs, hne, -⟩ publickeys' hread' publickey hmem
    obtain rfl : publickeys = publickeys' := Option.some.inj (hread.symm.trans hread')
    exact ⟨hs publickey hmem, (hks.forall_ne_zero_iff hinitial).mp hne publickey hmem⟩
  · intro h
    obtain ⟨publickeys, ks, hread, hks, rfl⟩ := exists_contributions hS haccepted hr
    have hne : ∀ k ∈ ks, k ≠ 0 :=
      (hks.forall_ne_zero_iff hinitial).mpr fun publickey hmem => (h _ hread publickey hmem).2
    have hprod : ks.prod ≠ 0 := prod_ne_zero fun hzero => hne 0 hzero rfl
    refine ⟨publickeys, ks, hread, hks, fun publickey hmem => (h _ hread publickey hmem).1, hne,
      hks.finalDelta_eq, ?_⟩
    rw [hks.finalDelta_eq]
    exact smul_ne_zero hprod hinitial

/-! ### Transcripts of one key -/

theorem verifyTranscriptFrom_write {publickey : PublicKey G₁ G₂}
    (hkey : S.verifyPublickey delta publickey = true) :
    S.verifyTranscriptFrom enable check publickey.transcriptDigest delta found
        (S.publickeyCodec.write publickey) =
      .ok (some (publickey.newDeltaG1, S.computeDigest publickey,
        found || (enable && S.computeDigest publickey == check))) := by
  have hread := S.publickeyCodec.read_write publickey []
  rw [append_nil] at hread
  rw [verifyTranscriptFrom_of_read hread, if_pos ⟨rfl, hkey⟩, verifyTranscriptFrom_nil]

theorem genuine_iff_one_contribution :
    lineSetting.Genuine 1 (lineSetting.publickeyCodec.write
      (lineSetting.computePublicKey lineAccumulator.csHash 1 2 1)) 2 := by
  have haccepted : lineSetting.verifyTranscriptFrom true lineAccumulator.csHash
      lineAccumulator.csHash 1 false (lineSetting.publickeyCodec.write
        (lineSetting.computePublicKey lineAccumulator.csHash 1 2 1)) = _ :=
    verifyTranscriptFrom_write (verifyPublickey_computePublicKey _ _ _ _)
  refine (genuine_iff nondegenerate_lineSetting (by decide) haccepted
    fun _ _ _ _ => one_ne_zero).mpr fun publickeys hread publickey hmem => ?_
  obtain rfl := Option.some.inj ((StreamCodec.readAll_write _ _).symm.trans hread)
  obtain rfl := mem_singleton.mp hmem
  decide

/-- A key of a scalar that needs not be known, with the identity as its point. -/
def identityKey : PublicKey (ZMod 3) (ZMod 3) where
  transcriptDigest := lineAccumulator.csHash
  newDeltaG1 := 2
  sG1 := 0
  sDeltaJG1 := 0
  rDeltaJG2 := 2

/-- A key of the scalar zero. -/
def zeroKey : PublicKey (ZMod 3) (ZMod 3) where
  transcriptDigest := lineAccumulator.csHash
  newDeltaG1 := 0
  sG1 := 1
  sDeltaJG1 := 0
  rDeltaJG2 := 0

/-- Both keys are accepted, and neither transcript is genuine. -/
theorem accepted_and_not_genuine :
    lineSetting.Nondegenerate ∧ (∀ digest, lineSetting.digestToG2 digest ≠ 0) ∧
    (lineSetting.verifyTranscript lineAccumulator.csHash 1 lineAccumulator.csHash
        (lineSetting.publickeyCodec.write identityKey) =
      .ok (some (2, lineSetting.computeDigest identityKey, true)) ∧
      ¬ lineSetting.Genuine 1 (lineSetting.publickeyCodec.write identityKey) 2) ∧
    (lineSetting.verifyTranscript lineAccumulator.csHash 1 lineAccumulator.csHash
        (lineSetting.publickeyCodec.write zeroKey) =
      .ok (some (0, lineSetting.computeDigest zeroKey, true)) ∧
      ¬ lineSetting.Genuine 1 (lineSetting.publickeyCodec.write zeroKey) 0) := by
  have hidentity : lineSetting.verifyPublickey 1 identityKey = true :=
    verifyPublickey_eq_true.mpr ⟨by decide, by decide⟩
  have hzero : lineSetting.verifyPublickey 1 zeroKey = true :=
    verifyPublickey_eq_true.mpr ⟨by decide, by decide⟩
  refine ⟨nondegenerate_lineSetting, fun _ => one_ne_zero, ⟨?_, ?_⟩, ?_, ?_⟩
  · exact verifyTranscriptFrom_write hidentity
  · rintro ⟨publickeys, ks, hread, -, hs, -⟩
    obtain rfl := Option.some.inj ((StreamCodec.readAll_write _ _).symm.trans hread)
    exact hs identityKey (mem_singleton.mpr rfl) rfl
  · exact verifyTranscriptFrom_write hzero
  · rintro ⟨publickeys, ks, -, -, -, -, -, hfinal⟩
    exact hfinal rfl

end Setting

end Zeth.Mpc
