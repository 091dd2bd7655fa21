import Zeth.Mpc.Phase2Soundness
import Zeth.Mpc.PowersOfTau

/-!
# The check of the output of the first phase

`powersoftau_is_well_formed` (`libzeth/mpc/groth16/powersoftau_utils.tcc`) compares the sizes of the
vectors of the first phase, then the ratios of their consecutive entries by random combinations.
For groups that are lines and a pairing that is not degenerate, the vectors that pass whatever the
random scalars are vectors of powers of one `tau`. The first vector may have one power more than the
`2n - 1` that are expected, since its size is halved with rounding; and for `n = 1` the check reads
the second entry of a vector of one.

A read past the end of a vector has no defined outcome and is `none` here.

## Main definitions

* `Mpc.Setting.powersoftauIsWellFormed`.
* `Mpc.Setting.powersFromSecrets`: the vectors of powers of the given sizes.
* `Mpc.Setting.ExactOn`: the check reads existing entries and accepts exactly the outputs of the
  first phase.

## Main results

* `Mpc.Setting.forall_isWellFormed_iff`: what is accepted.
* `Mpc.Setting.exactOn_iff`: where the check is exact.
-/

namespace Zeth.Mpc

open List SameRatio

/-- The sizes that the check asks for. -/
def PowersOfTau.Sized {G₁ G₂ : Type} (pot : PowersOfTau G₁ G₂) (n : ℕ) : Prop :=
  n = 2 ^ Nat.clog 2 n ∧ n = pot.tauPowersG2.length ∧ n = pot.alphaTauPowersG1.length ∧
    n = pot.betaTauPowersG1.length

theorem PowersOfTau.Sized.not_or {G₁ G₂ : Type} {pot : PowersOfTau G₁ G₂} {n : ℕ}
    (h : pot.Sized n) : ¬ (n ≠ 2 ^ Nat.clog 2 n ∨ n ≠ pot.tauPowersG2.length ∨
      n ≠ pot.alphaTauPowersG1.length ∨ n ≠ pot.betaTauPowersG1.length) := by
  push Not
  exact h

namespace Setting

variable {F G₁ G₂ GT : Type} [Field F] [AddCommGroup G₁] [Module F G₁] [AddCommGroup G₂]
  [Module F G₂] [AddCommGroup GT] [Module F GT]

/-- `random_linear_combination_consecutive`, with the random scalars. -/
def randomLinearCombinationConsecutive {G : Type} [AddCommGroup G] [Module F G] (r : ℕ → F) :
    List G → Option (G × G)
  -- the number of pairs, `as.size() - 1`, wraps
  | [] => none
  | a :: as => some (SameRatio.combination r (a :: as).dropLast, SameRatio.combination r as)

variable (S : Setting F G₁ G₂ GT)

/-- Vectors of powers as those of `dummy_powersoftau_from_secrets`, with `m` powers of `tau` in the
first group. -/
def powersFromSecrets (tau alpha beta : F) (m n : ℕ) : PowersOfTau G₁ G₂ :=
  { S.dummyPowersoftauFromSecrets tau alpha beta n with
    tauPowersG1 := (List.range m).map fun i => tau ^ i • S.oneG1 }

variable {S} in
theorem eq_powersFromSecrets_iff {pot : PowersOfTau G₁ G₂} {tau alpha beta : F} {m n : ℕ} :
    pot = S.powersFromSecrets tau alpha beta m n ↔
      pot.tauPowersG1 = (List.range m).map (fun i => tau ^ i • S.oneG1) ∧
      pot.tauPowersG2 = (List.range n).map (fun i => tau ^ i • S.oneG2) ∧
      pot.alphaTauPowersG1 = (List.range n).map (fun i => tau ^ i • alpha • S.oneG1) ∧
      pot.betaTauPowersG1 = (List.range n).map (fun i => tau ^ i • beta • S.oneG1) ∧
      pot.betaG2 = beta • S.oneG2 := by
  cases pot
  exact PowersOfTau.mk.injEq _ _ _ _ _ _ _ _ _ _ ▸ Iff.rfl

variable [DecidableEq GT]

/-- `same_ratio_consecutive` on a vector of the first group. -/
def sameRatioConsecutiveG1 (r : ℕ → F) (a₁s : List G₁) (a₂ b₂ : G₂) : Option Bool := do
  let (a₁Accum, b₁Accum) ← randomLinearCombinationConsecutive r a₁s
  return S.sameRatio a₁Accum b₁Accum a₂ b₂

/-- `same_ratio_consecutive` on a vector of the second group. -/
def sameRatioConsecutiveG2 (r : ℕ → F) (a₁ b₁ : G₁) (a₂s : List G₂) : Option Bool := do
  let (a₂Accum, b₂Accum) ← randomLinearCombinationConsecutive r a₂s
  return S.sameRatio a₁ b₁ a₂Accum b₂Accum

variable [DecidableEq G₁] [DecidableEq G₂]

/-- `powersoftau_is_well_formed`, with the random scalars for the four vectors. -/
def powersoftauIsWellFormed (rTauG1 rTauG2 rAlpha rBeta : ℕ → F) (pot : PowersOfTau G₁ G₂) :
    Option Bool := do
  let n := (pot.tauPowersG1.length + 1) / 2
  if n ≠ 2 ^ Nat.clog 2 n ∨ n ≠ pot.tauPowersG2.length ∨ n ≠ pot.alphaTauPowersG1.length ∨
      n ≠ pot.betaTauPowersG1.length then
    return false
  if (← pot.tauPowersG1[0]?) ≠ S.oneG1 then return false
  if (← pot.tauPowersG2[0]?) ≠ S.oneG2 then return false
  let tauG1 ← pot.tauPowersG1[1]?
  let tauG2 ← pot.tauPowersG2[1]?
  if !S.sameRatio S.oneG1 tauG1 S.oneG2 tauG2 then return false
  if !(← S.sameRatioConsecutiveG1 rTauG1 pot.tauPowersG1 S.oneG2 tauG2) then return false
  if !(← S.sameRatioConsecutiveG2 rTauG2 S.oneG1 tauG1 pot.tauPowersG2) then return false
  if !(← S.sameRatioConsecutiveG1 rAlpha pot.alphaTauPowersG1 S.oneG2 tauG2) then return false
  if !(← S.sameRatioConsecutiveG1 rBeta pot.betaTauPowersG1 S.oneG2 tauG2) then return false
  if !S.sameRatio S.oneG1 (← pot.betaTauPowersG1[0]?) S.oneG2 pot.betaG2 then return false
  return true

/-! ### Outcomes -/

/-- Vectors of the sizes for `n = 1`, with the first entries as expected: the check goes on to read
the second entries. -/
structure ReadsPastEnd (pot : PowersOfTau G₁ G₂) : Prop where
  length_tauPowersG1 : pot.tauPowersG1.length ≤ 2
  head_tauPowersG1 : pot.tauPowersG1[0]? = some S.oneG1
  tauPowersG2_eq : pot.tauPowersG2 = [S.oneG2]
  length_alphaTauPowersG1 : pot.alphaTauPowersG1.length = 1
  length_betaTauPowersG1 : pot.betaTauPowersG1.length = 1

variable {S} {pot : PowersOfTau G₁ G₂} {rTauG1 rTauG2 rAlpha rBeta : ℕ → F}

theorem isWellFormed_of_not_sized (h : ¬ pot.Sized ((pot.tauPowersG1.length + 1) / 2)) :
    S.powersoftauIsWellFormed rTauG1 rTauG2 rAlpha rBeta pot = some false := by
  rw [powersoftauIsWellFormed, if_pos]
  · rfl
  · by_contra hno
    push Not at hno
    exact h hno

/-- The outcome for `n = 1`. -/
theorem isWellFormed_of_readsPastEnd (h : S.ReadsPastEnd pot) :
    S.powersoftauIsWellFormed rTauG1 rTauG2 rAlpha rBeta pot = none := by
  have hpos : 0 < pot.tauPowersG1.length := by
    obtain ⟨hlt, -⟩ := List.getElem?_eq_some_iff.mp h.head_tauPowersG1
    exact hlt
  have hn : (pot.tauPowersG1.length + 1) / 2 = 1 := by
    have := h.length_tauPowersG1
    omega
  have hsized : pot.Sized 1 :=
    ⟨by decide, by rw [h.tauPowersG2_eq, length_singleton], h.length_alphaTauPowersG1.symm,
      h.length_betaTauPowersG1.symm⟩
  rw [powersoftauIsWellFormed, hn, if_neg hsized.not_or, h.head_tauPowersG1, h.tauPowersG2_eq]
  cases pot.tauPowersG1[1]? <;> simp

/-- The outcome is fixed, or the vectors of powers have at least two entries. -/
theorem isWellFormed_cases (S : Setting F G₁ G₂ GT) (pot : PowersOfTau G₁ G₂) :
    (∀ rTauG1 rTauG2 rAlpha rBeta,
      S.powersoftauIsWellFormed rTauG1 rTauG2 rAlpha rBeta pot = some false) ∨
    S.ReadsPastEnd pot ∨
    pot.Sized ((pot.tauPowersG1.length + 1) / 2) ∧ ∃ t₁ ts₁ t₂ ts₂ a as b bs,
      pot.tauPowersG1 = S.oneG1 :: t₁ :: ts₁ ∧ pot.tauPowersG2 = S.oneG2 :: t₂ :: ts₂ ∧
      pot.alphaTauPowersG1 = a :: as ∧ pot.betaTauPowersG1 = b :: bs := by
  by_cases hsized : pot.Sized ((pot.tauPowersG1.length + 1) / 2)
  swap
  · exact .inl fun _ _ _ _ => isWellFormed_of_not_sized hsized
  obtain ⟨hpow, htau₂, halpha, hbeta⟩ := id hsized
  have hpos : 0 < (pot.tauPowersG1.length + 1) / 2 := by
    rw [hpow]
    exact Nat.two_pow_pos _
  obtain ⟨a₁, as₁, h₁⟩ := exists_cons_of_length_pos (l := pot.tauPowersG1) (by omega)
  obtain ⟨a₂, as₂, h₂⟩ := exists_cons_of_length_pos (htau₂ ▸ hpos)
  obtain ⟨a, as, hα⟩ := exists_cons_of_length_pos (halpha ▸ hpos)
  obtain ⟨b, bs, hβ⟩ := exists_cons_of_length_pos (hbeta ▸ hpos)
  by_cases hone₁ : a₁ = S.oneG1
  swap
  · refine .inl fun _ _ _ _ => ?_
    rw [powersoftauIsWellFormed, if_neg hsized.not_or, h₁]
    simp [hone₁]
  by_cases hone₂ : a₂ = S.oneG2
  swap
  · refine .inl fun _ _ _ _ => ?_
    rw [powersoftauIsWellFormed, if_neg hsized.not_or, h₁, h₂]
    simp [hone₁, hone₂]
  subst hone₁ hone₂
  rw [h₁, length_cons] at htau₂ halpha hbeta
  rw [h₂, length_cons] at htau₂
  obtain _ | ⟨t₂, ts₂⟩ := as₂
  · rw [length_nil] at htau₂
    refine .inr (.inl ⟨?_, ?_, h₂, by omega, by omega⟩)
    · rw [h₁, length_cons]
      omega
    · rw [h₁, List.getElem?_cons_zero]
  · rw [length_cons] at htau₂
    obtain ⟨t₁, ts₁, rfl⟩ := exists_cons_of_length_pos (l := as₁) (by omega)
    exact .inr (.inr ⟨hsized, t₁, ts₁, t₂, ts₂, a, as, b, bs, h₁, h₂, hα, hβ⟩)

theorem ite_not_eq_and (c d : Bool) :
    (if (!c) = true then some false else some d) = some (c && d) := by
  cases c <;> rfl

section AtLeastTwo

variable {t₁ a b : G₁} {t₂ : G₂} {ts₁ as bs : List G₁} {ts₂ : List G₂}
    (hsized : pot.Sized ((pot.tauPowersG1.length + 1) / 2))
    (htau₁ : pot.tauPowersG1 = S.oneG1 :: t₁ :: ts₁)
    (htau₂ : pot.tauPowersG2 = S.oneG2 :: t₂ :: ts₂) (halpha : pot.alphaTauPowersG1 = a :: as)
    (hbeta : pot.betaTauPowersG1 = b :: bs)

include hsized htau₁ htau₂ halpha hbeta

/-- The outcome when the vectors of powers have at least two entries. -/
theorem isWellFormed_of_cons :
    S.powersoftauIsWellFormed rTauG1 rTauG2 rAlpha rBeta pot = some (decide (
      S.pairing S.oneG1 t₂ = S.pairing t₁ S.oneG2 ∧
      S.pairing (SameRatio.combination rTauG1 (S.oneG1 :: t₁ :: ts₁).dropLast) t₂ =
        S.pairing (SameRatio.combination rTauG1 (t₁ :: ts₁)) S.oneG2 ∧
      S.pairing S.oneG1 (SameRatio.combination rTauG2 (t₂ :: ts₂)) =
        S.pairing t₁ (SameRatio.combination rTauG2 (S.oneG2 :: t₂ :: ts₂).dropLast) ∧
      S.pairing (SameRatio.combination rAlpha (a :: as).dropLast) t₂ =
        S.pairing (SameRatio.combination rAlpha as) S.oneG2 ∧
      S.pairing (SameRatio.combination rBeta (b :: bs).dropLast) t₂ =
        S.pairing (SameRatio.combination rBeta bs) S.oneG2 ∧
      S.pairing S.oneG1 pot.betaG2 = S.pairing b S.oneG2)) := by
  rw [powersoftauIsWellFormed, if_neg hsized.not_or, htau₁, htau₂, halpha, hbeta]
  simp only [List.getElem?_cons_zero, List.getElem?_cons_succ, Option.bind_eq_bind,
    Option.bind_some, ne_eq, not_true_eq_false, if_false, sameRatioConsecutiveG1,
    sameRatioConsecutiveG2, randomLinearCombinationConsecutive, Option.pure_def, ite_not_eq_and]
  simp only [sameRatio, Bool.decide_and, Bool.and_true]

/-! ### What is accepted -/

/-- The checks of the ratios are passed for all random scalars exactly by powers of one `tau`. -/
theorem forall_checks_iff (hS : S.Nondegenerate) (hone₁ : S.oneG1 ≠ 0) (hone₂ : S.oneG2 ≠ 0) :
    (∀ rTauG1 rTauG2 rAlpha rBeta,
      S.powersoftauIsWellFormed rTauG1 rTauG2 rAlpha rBeta pot = some true) ↔
    ∃ tau alpha beta, pot = S.powersFromSecrets tau alpha beta pot.tauPowersG1.length
      pot.tauPowersG2.length := by
  have hflip : S.pairing.flip.SeparatingLeft :=
    separatingLeft_flip hS.finrank_G2 hS.separatingLeft hone₁
  -- the three vectors of the first group, and that of the second
  have hpowers {a : G₁} {as : List G₁} (tau : F) :
      (∀ r : ℕ → F, S.pairing (SameRatio.combination r (a :: as).dropLast) (tau • S.oneG2) =
        S.pairing (SameRatio.combination r as) S.oneG2) ↔
      a :: as = (List.range (as.length + 1)).map fun i => tau ^ i • a :=
    forall_consecutive_iff hS.finrank_G2 hS.separatingLeft hone₂
  have hpowers₂ {as : List G₂} (tau : F) :
      (∀ r : ℕ → F, S.pairing S.oneG1 (SameRatio.combination r as) =
        S.pairing (tau • S.oneG1) (SameRatio.combination r (S.oneG2 :: as).dropLast)) ↔
      S.oneG2 :: as = (List.range (as.length + 1)).map fun i => tau ^ i • S.oneG2 :=
    (forall_congr' fun r => eq_comm).trans
      (forall_consecutive_iff hS.finrank_G1 hflip hone₁)
  obtain ⟨-, hlen₂, hlenAlpha, hlenBeta⟩ := id hsized
  rw [hlen₂, htau₂, halpha, length_cons, length_cons] at hlenAlpha
  rw [hlen₂, htau₂, hbeta, length_cons, length_cons] at hlenBeta
  simp only [isWellFormed_of_cons hsized htau₁ htau₂ halpha hbeta, Option.some.injEq,
    decide_eq_true_eq, eq_powersFromSecrets_iff, htau₁, htau₂, halpha, hbeta, length_cons]
  constructor
  · intro h
    obtain ⟨hratio, -, -, -, -, hratioBeta⟩ := h 0 0 0 0
    obtain ⟨tau, rfl, rfl⟩ :=
      (eq_iff_exists_smul hS.finrank_G2 hS.separatingLeft hone₂).mp hratio
    obtain ⟨beta, rfl, hbetaG2⟩ :=
      (eq_iff_exists_smul hS.finrank_G2 hS.separatingLeft hone₂).mp hratioBeta
    obtain ⟨alpha, rfl⟩ := exists_eq_smul hS.finrank_G1 hone₁ a
    refine ⟨tau, alpha, beta, ?_, ?_, ?_, ?_, hbetaG2⟩
    · exact (hpowers tau).mp fun r => (h r 0 0 0).2.1
    · exact (hpowers₂ tau).mp fun r => (h 0 r 0 0).2.2.1
    · rw [hlenAlpha]
      exact (hpowers tau).mp fun r => (h 0 0 r 0).2.2.2.1
    · rw [hlenBeta]
      exact (hpowers tau).mp fun r => (h 0 0 0 r).2.2.2.2.1
  · rintro ⟨tau, alpha, beta, h₁, h₂, hα, hβ, hbetaG2⟩ rTauG1 rTauG2 rAlpha rBeta
    have ht₁ : t₁ = tau • S.oneG1 := by
      rw [powers_succ, powers_succ] at h₁
      exact (cons_eq_cons.mp (cons_eq_cons.mp h₁).2).1
    have ht₂ : t₂ = tau • S.oneG2 := by
      rw [powers_succ, powers_succ] at h₂
      exact (cons_eq_cons.mp (cons_eq_cons.mp h₂).2).1
    have ha : a = alpha • S.oneG1 := by
      rw [powers_succ] at hα
      exact (cons_eq_cons.mp hα).1
    have hb : b = beta • S.oneG1 := by
      rw [powers_succ] at hβ
      exact (cons_eq_cons.mp hβ).1
    subst ht₁ ht₂ ha hb
    rw [hlenAlpha] at hα
    rw [hlenBeta] at hβ
    refine ⟨eq_of_smul tau _ _, (hpowers tau).mpr h₁ rTauG1, (hpowers₂ tau).mpr h₂ rTauG2,
      (hpowers tau).mpr hα rAlpha, (hpowers tau).mpr hβ rBeta, ?_⟩
    rw [hbetaG2]
    exact eq_of_smul beta _ _

end AtLeastTwo

variable (pot) in
/-- The check accepts vectors of powers of one `tau`, for `n ≥ 2`, and does not see whether there is
one power more in the first vector. -/
theorem forall_isWellFormed_iff (hS : S.Nondegenerate) (hone₁ : S.oneG1 ≠ 0) (hone₂ : S.oneG2 ≠ 0) :
    (∀ rTauG1 rTauG2 rAlpha rBeta,
      S.powersoftauIsWellFormed rTauG1 rTauG2 rAlpha rBeta pot = some true) ↔
    ∃ k m tau alpha beta, (m = 2 * 2 ^ (k + 1) - 1 ∨ m = 2 * 2 ^ (k + 1)) ∧
      pot = S.powersFromSecrets tau alpha beta m (2 ^ (k + 1)) := by
  constructor
  · intro h
    rcases isWellFormed_cases S pot with hfalse | hpast |
      ⟨hsized, t₁, ts₁, t₂, ts₂, a, as, b, bs, htau₁, htau₂, halpha, hbeta⟩
    · cases (hfalse 0 0 0 0).symm.trans (h 0 0 0 0)
    · cases (isWellFormed_of_readsPastEnd hpast).symm.trans (h 0 0 0 0)
    obtain ⟨tau, alpha, beta, hpot⟩ :=
      (forall_checks_iff hsized htau₁ htau₂ halpha hbeta hS hone₁ hone₂).mp h
    obtain ⟨hpow, hlen₂, -⟩ := id hsized
    have hlen : 2 ≤ pot.tauPowersG2.length := by
      rw [htau₂, length_cons, length_cons]
      omega
    obtain ⟨k, hk⟩ : ∃ k, pot.tauPowersG2.length = 2 ^ (k + 1) := by
      rw [hlen₂] at hpow
      have hne : Nat.clog 2 pot.tauPowersG2.length ≠ 0 := by
        intro hzero
        rw [hzero] at hpow
        omega
      obtain ⟨k, hk⟩ := Nat.exists_eq_succ_of_ne_zero hne
      exact ⟨k, hpow.trans (congrArg (2 ^ ·) hk)⟩
    refine ⟨k, pot.tauPowersG1.length, tau, alpha, beta, ?_, hk ▸ hpot⟩
    omega
  · rintro ⟨k, m, tau, alpha, beta, hm, rfl⟩
    have hpos : 0 < 2 ^ k := Nat.two_pow_pos k
    obtain ⟨n, hn⟩ : ∃ n, 2 ^ (k + 1) = n + 2 := ⟨2 ^ (k + 1) - 2, by omega⟩
    obtain ⟨m, rfl⟩ : ∃ m', m = m' + 2 := ⟨m - 2, by omega⟩
    have hsized : (S.powersFromSecrets tau alpha beta (m + 2) (2 ^ (k + 1))).Sized
        (((S.powersFromSecrets tau alpha beta (m + 2) (2 ^ (k + 1))).tauPowersG1.length + 1) / 2) := by
      have hhalf : (m + 2 + 1) / 2 = 2 ^ (k + 1) := by omega
      simp [PowersOfTau.Sized, powersFromSecrets, dummyPowersoftauFromSecrets, hhalf,
        Nat.clog_pow]
    have hcons : ∀ {G : Type} [AddCommGroup G] [Module F G] (g : G),
        ((List.range (2 ^ (k + 1))).map fun i => tau ^ i • g) =
          g :: tau • g :: (List.range n).map fun i => tau ^ i • tau • tau • g := by
      intro G _ _ g
      rw [hn, powers_succ, powers_succ]
    have hcons₁ := (powers_succ tau S.oneG1 (m + 1)).trans
      (congrArg _ (powers_succ tau (tau • S.oneG1) m))
    refine (forall_checks_iff hsized hcons₁ (hcons _) (hcons _) (hcons _) hS hone₁ hone₂).mpr
      ⟨tau, alpha, beta, ?_⟩
    simp [powersFromSecrets, dummyPowersoftauFromSecrets]

/-! ### Exactness -/

variable (S) in
/-- The check reads only existing entries, whatever the random scalars, and accepts for all random
scalars exactly what `dummy_powersoftau_from_secrets` gives for a power of two and some secrets. -/
def ExactOn (pot : PowersOfTau G₁ G₂) : Prop :=
  (∀ rTauG1 rTauG2 rAlpha rBeta,
    S.powersoftauIsWellFormed rTauG1 rTauG2 rAlpha rBeta pot ≠ none) ∧
  ((∀ rTauG1 rTauG2 rAlpha rBeta,
      S.powersoftauIsWellFormed rTauG1 rTauG2 rAlpha rBeta pot = some true) ↔
    ∃ k tau alpha beta, pot = S.dummyPowersoftauFromSecrets tau alpha beta (2 ^ k))

/-- **Where the check is exact.** -/
theorem exactOn_iff (hS : S.Nondegenerate) (hone₁ : S.oneG1 ≠ 0) (hone₂ : S.oneG2 ≠ 0)
    (pot : PowersOfTau G₁ G₂) :
    S.ExactOn pot ↔ ¬ S.ReadsPastEnd pot ∧ ¬ ∃ k tau alpha beta,
      pot = S.powersFromSecrets tau alpha beta (2 * 2 ^ (k + 1)) (2 ^ (k + 1)) := by
  have haccepts := forall_isWellFormed_iff pot hS hone₁ hone₂
  constructor
  · rintro ⟨hreads, hexact⟩
    refine ⟨fun hpast => hreads 0 0 0 0 (isWellFormed_of_readsPastEnd hpast), ?_⟩
    rintro ⟨k, tau, alpha, beta, hpot⟩
    obtain ⟨k', tau', alpha', beta', hpot'⟩ :=
      hexact.mp (haccepts.mpr ⟨k, _, tau, alpha, beta, .inr rfl, hpot⟩)
    -- one number of powers is even, the other odd
    have hlen := congrArg (fun pot => pot.tauPowersG1.length) (hpot.symm.trans hpot')
    simp only [powersFromSecrets, dummyPowersoftauFromSecrets, length_map,
      length_range] at hlen
    have hpos : 0 < 2 ^ k' := Nat.two_pow_pos k'
    omega
  · rintro ⟨hpast, hmore⟩
    refine ⟨fun rTauG1 rTauG2 rAlpha rBeta hnone => ?_, fun h => ?_, ?_⟩
    · rcases isWellFormed_cases S pot with hfalse | hpast' |
        ⟨hsized, t₁, ts₁, t₂, ts₂, a, as, b, bs, htau₁, htau₂, halpha, hbeta⟩
      · cases (hfalse rTauG1 rTauG2 rAlpha rBeta).symm.trans hnone
      · exact hpast hpast'
      · cases (isWellFormed_of_cons hsized htau₁ htau₂ halpha hbeta).symm.trans hnone
    · obtain ⟨k, m, tau, alpha, beta, rfl | rfl, hpot⟩ := haccepts.mp h
      · exact ⟨k + 1, tau, alpha, beta, hpot⟩
      · exact (hmore ⟨k, tau, alpha, beta, hpot⟩).elim
    · rintro ⟨_ | k, tau, alpha, beta, hpot⟩
      · refine (hpast ?_).elim
        rw [hpot]
        constructor <;> simp [dummyPowersoftauFromSecrets]
      · exact haccepts.mpr ⟨k, _, tau, alpha, beta, .inl rfl, hpot⟩

theorem exactOn_lineSetting : lineSetting.ExactOn (lineSetting.dummyPowersoftauFromSecrets 2 1 2 2) := by
  refine (exactOn_iff nondegenerate_lineSetting (by decide) (by decide) _).mpr ⟨fun h => ?_, ?_⟩
  · exact absurd h.length_tauPowersG1 (by decide)
  · rintro ⟨k, tau, alpha, beta, h⟩
    have hlen := congrArg (fun pot => pot.tauPowersG1.length) h
    simp only [powersFromSecrets, dummyPowersoftauFromSecrets, length_map,
      length_range] at hlen
    omega

/-- Four powers of `tau` are accepted for `n = 2`, and for `n = 1` the check reads past the end. -/
theorem not_exactOn_lineSetting :
    (∀ rTauG1 rTauG2 rAlpha rBeta, lineSetting.powersoftauIsWellFormed rTauG1 rTauG2 rAlpha rBeta
      ⟨[1, 2, 1, 2], [1, 2], [1, 2], [2, 1], 2⟩ = some true) ∧
    ¬ lineSetting.ExactOn ⟨[1, 2, 1, 2], [1, 2], [1, 2], [2, 1], 2⟩ ∧
    (∀ rTauG1 rTauG2 rAlpha rBeta, lineSetting.powersoftauIsWellFormed rTauG1 rTauG2 rAlpha rBeta
      (lineSetting.dummyPowersoftauFromSecrets 2 1 2 1) = none) ∧
    ¬ lineSetting.ExactOn (lineSetting.dummyPowersoftauFromSecrets 2 1 2 1) := by
  have hfour : (⟨[1, 2, 1, 2], [1, 2], [1, 2], [2, 1], 2⟩ : PowersOfTau (ZMod 3) (ZMod 3)) =
      lineSetting.powersFromSecrets 2 1 2 (2 * 2 ^ (0 + 1)) (2 ^ (0 + 1)) := by decide
  have hpast : lineSetting.ReadsPastEnd (lineSetting.dummyPowersoftauFromSecrets 2 1 2 1) := by
    constructor <;> decide
  have haccepted := (forall_isWellFormed_iff _ nondegenerate_lineSetting (by decide) (by decide)).mpr
    ⟨0, _, 2, 1, 2, .inr rfl, hfour⟩
  refine ⟨haccepted, ?_, fun _ _ _ _ => isWellFormed_of_readsPastEnd hpast, ?_⟩
  · rintro ⟨-, hexact⟩
    obtain ⟨k, tau, alpha, beta, h⟩ := hexact.mp haccepted
    have hlen := congrArg (fun pot => pot.tauPowersG1.length) h
    simp only [dummyPowersoftauFromSecrets, length_cons, length_nil, length_map,
      length_range] at hlen
    omega
  · exact fun h => h.1 0 0 0 0 (isWellFormed_of_readsPastEnd hpast)

end Setting

end Zeth.Mpc
