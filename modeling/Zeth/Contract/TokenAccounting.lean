import Mathlib
import Zeth.Contract.EtherConservation

/-!
# The books of a mixer with a token

A mixer with a token takes `vpub_in` by `transferFrom` and pays `vpub_out` by `transfer`. Both return
whether the amount has moved, and `_processPublicValues` reads neither result: a token that refuses by
returning `false` leaves the call accepted, with its commitments in the tree. When `vpub_in` is
positive the mixer also keeps the ether attached to the call, which it returns otherwise.

So the token balance changes by the public values, and the attached ether is returned, exactly when
both results are `true` where an amount is to be moved, and no ether is attached to a call that takes
`vpub_in` (`Mixer.tokenAccounted_iff`). In a run all of whose calls meet this, the books are right
after every call, nested ones included (`Mixer.inBooks_runCalls`).

## Main definitions

* `Mixer.TokenReply`: how a call of the token ends.
* `Mixer.InBooks`, `Mixer.TokenAccounted`.
-/

namespace Zeth.Mixer

open List

variable {m : Mixer}

/-! ### Calls of the token -/

/-- How a call of `transferFrom` or `transfer` ends: the token reverts, or returns `true` after the
amount has moved and `false` if nothing has. -/
inductive TokenReply where
  | reverted
  | returned (success : Bool)
  deriving DecidableEq, Repr

namespace TokenReply

/-- What the mixer sees of a call for an amount. -/
def outcome (amount : ℕ) : TokenReply → Outcome
  | .reverted => .failed
  | .returned success => .returned (if success then amount else 0)

/-- The amount has moved, if there was one. -/
def Moves (amount : ℕ) (reply : TokenReply) : Prop := 0 < amount → reply = .returned true

end TokenReply

/-- Between two states calls with certain public inputs have been accepted, the token balance has
changed by their public values, and the mixer has kept no ether. -/
def InBooks (st st' : State) : Prop :=
  ∃ accepted, st'.acceptedInputs = st.acceptedInputs ++ accepted ∧
    st'.tokenBalance = st.tokenBalance + (accepted.map netValue).sum ∧ st'.balance = st.balance

/-- The part that takes `vpub_in`, for a token that is called by code which keeps the books. -/
theorem processVpubIn_token (htoken : m.token ≠ 0) {msg : Msg} {vpubIn taken : ℕ}
    {run : State → State} {reply : TokenReply} {st st' : State}
    (hrun : ∀ s, InBooks s (run s))
    (h : m.processVpubIn msg vpubIn (react run (reply.outcome vpubIn)) st = .ok (st', taken)) :
    (∃ nested, st'.acceptedInputs = st.acceptedInputs ++ nested ∧
      st'.tokenBalance = st.tokenBalance + (nested.map netValue).sum + taken) ∧
      st'.balance + (if vpubIn = 0 then msg.value else 0) = st.balance ∧
      (reply.Moves vpubIn → taken = vpubIn) := by
  rw [processVpubIn] at h
  split_ifs at h with hin hvalue
  · -- `transferFrom`
    have hne : vpubIn ≠ 0 := Nat.pos_iff_ne_zero.mp hin
    obtain ⟨nested, haccepted, htokens, hbalance⟩ := hrun st
    cases reply with
    | reverted => cases h
    | returned success =>
      cases h
      refine ⟨⟨nested, haccepted, congrArg (· + _) htokens⟩, ?_, fun hmoves => ?_⟩
      · rw [if_neg hne, add_zero]
        exact hbalance
      · cases hmoves hin
        rfl
  · -- the attached ether is returned
    have hzero : vpubIn = 0 := Nat.eq_zero_of_not_pos hin
    obtain ⟨st₁, hsend, hret⟩ := Except.bind_eq_ok.mp h
    cases hret
    rcases sendEther_pays hvalue hsend with ⟨hno, -⟩ | ⟨-, hle, moved, hreact⟩
    · omega
    · obtain ⟨nested, haccepted, htokens, hbalance⟩ :=
        hrun { st with balance := st.balance - msg.value }
      cases reply with
      | reverted => cases hreact
      | returned success =>
        cases hreact
        refine ⟨⟨nested, haccepted, ?_⟩, ?_, fun _ => hzero.symm⟩
        · rw [htokens, Nat.cast_zero, add_zero]
        · rw [if_pos hzero, hbalance]
          exact Nat.sub_add_cancel hle
  · cases h
    have hzero : vpubIn = 0 := Nat.eq_zero_of_not_pos hin
    refine ⟨⟨[], (append_nil _).symm, by simp⟩, ?_, fun _ => hzero.symm⟩
    rw [if_pos hzero]
    omega

/-- The part that pays `vpub_out`. -/
theorem processVpubOut_token (htoken : m.token ≠ 0) {vpubOut paid : ℕ} {run : State → State}
    {reply : TokenReply} {st st' : State} (hrun : ∀ s, InBooks s (run s))
    (h : m.processVpubOut vpubOut (react run (reply.outcome vpubOut)) st = .ok (st', paid)) :
    (∃ nested, st'.acceptedInputs = st.acceptedInputs ++ nested ∧
      st'.tokenBalance = st.tokenBalance + (nested.map netValue).sum - paid) ∧
      st'.balance = st.balance ∧ (reply.Moves vpubOut → paid = vpubOut) := by
  rw [processVpubOut] at h
  split_ifs at h with hout
  · obtain ⟨nested, haccepted, htokens, hbalance⟩ := hrun st
    cases reply with
    | reverted => cases h
    | returned success =>
      cases h
      refine ⟨⟨nested, haccepted, congrArg (· - _) htokens⟩, hbalance, fun hmoves => ?_⟩
      cases hmoves hout
      rfl
  · cases h
    exact ⟨⟨[], (append_nil _).symm, by simp⟩, rfl,
      fun _ => (Nat.eq_zero_of_not_pos hout).symm⟩

/-! ### Single calls -/

/-- What an accepted call should do: the token balance changes by its public values, and by those of
the calls nested in it, the attached ether is returned, and the token has moved the amounts it was
asked to. -/
structure TokenAccounted (inputs : Inputs) (reply₁ reply₂ : TokenReply) (st st' : State) :
    Prop where
  books : ∃ nested, st'.acceptedInputs = st.acceptedInputs ++ inputs :: nested ∧
    st'.tokenBalance = st.tokenBalance + netValue inputs + (nested.map netValue).sum
  ether : st'.balance = st.balance
  moved_in : reply₁.Moves (assemblePublicValues (inputs 8)).1
  moved_out : reply₂.Moves (assemblePublicValues (inputs 8)).2

section Commits

variable {m : Mixer} (htoken : m.token ≠ 0) {msg : Msg} {inputs : Inputs}
  {reply₁ reply₂ : TokenReply} {run₁ run₂ : State → State} {st st' : State} {mv : Movement}
  (hrun₁ : ∀ s, InBooks s (run₁ s)) (hrun₂ : ∀ s, InBooks s (run₂ s))
  (h : m.Commits msg inputs
    (react run₁ (reply₁.outcome (assemblePublicValues (inputs 8)).1))
    (react run₂ (reply₂.outcome (assemblePublicValues (inputs 8)).2)) st st' mv)

include htoken hrun₁ hrun₂ h

/-- What an accepted call does to the books: the amounts that the token has moved, the public values of
the nested calls, and the attached ether, which is returned when `vpub_in` is zero. -/
theorem Commits.token_books :
    ∃ (nested : List Inputs) (taken paid : ℕ),
      st'.acceptedInputs = st.acceptedInputs ++ inputs :: nested ∧
      st'.tokenBalance = st.tokenBalance + (taken - paid) + (nested.map netValue).sum ∧
      st'.balance + (if (assemblePublicValues (inputs 8)).1 = 0 then msg.value else 0) =
        st.balance + msg.value ∧
      (reply₁.Moves (assemblePublicValues (inputs 8)).1 →
        taken = (assemblePublicValues (inputs 8)).1) ∧
      (reply₂.Moves (assemblePublicValues (inputs 8)).2 →
        paid = (assemblePublicValues (inputs 8)).2) := by
  obtain ⟨st₁, hacc, hmove⟩ := h.cases
  obtain ⟨st₂, hin, hout⟩ := processPublicValues_cases hmove
  obtain ⟨⟨nested₁, haccepted₁, htokens₁⟩, hbalance₁, htaken⟩ :=
    processVpubIn_token htoken hrun₁ hin
  obtain ⟨⟨nested₂, haccepted₂, htokens₂⟩, hbalance₂, hpaid⟩ :=
    processVpubOut_token htoken hrun₂ hout
  obtain ⟨hbalance, htokens⟩ := hacc.balances
  refine ⟨nested₁ ++ nested₂, _, _, ?_, ?_, ?_, htaken, hpaid⟩
  · rw [haccepted₂, haccepted₁, hacc.acceptedInputs]
    simp [State.acceptedInputs]
  · rw [htokens₂, htokens₁, htokens, map_append, sum_append]
    ring
  · rw [hbalance₂, hbalance₁, hbalance]

/-- A call is accounted for when the token moves what it was asked to and the mixer keeps no ether. -/
theorem Commits.tokenAccounted (hmoved₁ : reply₁.Moves (assemblePublicValues (inputs 8)).1)
    (hmoved₂ : reply₂.Moves (assemblePublicValues (inputs 8)).2)
    (hvalue : 0 < (assemblePublicValues (inputs 8)).1 → msg.value = 0) :
    TokenAccounted inputs reply₁ reply₂ st st' := by
  obtain ⟨nested, taken, paid, haccepted, htokens, hbalance, htaken, hpaid⟩ :=
    h.token_books htoken hrun₁ hrun₂
  refine ⟨⟨nested, haccepted, ?_⟩, ?_, hmoved₁, hmoved₂⟩
  · rw [htokens, htaken hmoved₁, hpaid hmoved₂, netValue]
  · split_ifs at hbalance with hzero
    · omega
    · have := hvalue (Nat.pos_of_ne_zero hzero)
      omega

end Commits

/-- **Books of an accepted call.** In a mixer with a token, an accepted call of `mix` or `dispatch` is
accounted for if and only if the token returns `true` for every positive amount and no ether is
attached when `vpub_in` is positive. The code called may call the mixer again, as long as it leaves
the books of its own calls right. -/
theorem tokenAccounted_iff (m : Mixer) (htoken : m.token ≠ 0) {msg : Msg} {inputs : Inputs}
    {reply₁ reply₂ : TokenReply} {run₁ run₂ : State → State} {st st' : State} {mv : Movement}
    (hrun₁ : ∀ s, InBooks s (run₁ s)) (hrun₂ : ∀ s, InBooks s (run₂ s))
    (h : m.Commits msg inputs
      (react run₁ (reply₁.outcome (assemblePublicValues (inputs 8)).1))
      (react run₂ (reply₂.outcome (assemblePublicValues (inputs 8)).2)) st st' mv) :
    TokenAccounted inputs reply₁ reply₂ st st' ↔
      reply₁.Moves (assemblePublicValues (inputs 8)).1 ∧
        reply₂.Moves (assemblePublicValues (inputs 8)).2 ∧
        (0 < (assemblePublicValues (inputs 8)).1 → msg.value = 0) := by
  constructor
  · rintro ⟨-, hether, hmoved₁, hmoved₂⟩
    refine ⟨hmoved₁, hmoved₂, fun hpos => ?_⟩
    obtain ⟨-, -, -, -, -, hbalance, -, -⟩ := h.token_books htoken hrun₁ hrun₂
    rw [if_neg (Nat.pos_iff_ne_zero.mp hpos)] at hbalance
    omega
  · rintro ⟨hmoved₁, hmoved₂, hvalue⟩
    exact h.tokenAccounted htoken hrun₁ hrun₂ hmoved₁ hmoved₂ hvalue

/-- A mixer with a token whose verifiers accept everything. -/
def tokenMixer : Mixer := { valueMixer 0 with token := 1 }

/-- The public inputs of a call with `vpub_in` of five units. -/
def tokenInputs : Inputs := valueInputs 0 (5 * 2 ^ 64)

theorem tokenInputs_values : assemblePublicValues (tokenInputs 8) = (5 * 10 ^ 12, 0) := by
  decide +kernel

theorem inBooks_refl (st : State) : InBooks st st :=
  ⟨[], (append_nil _).symm, by simp, rfl⟩

/-- A new mixer accepts the call whatever the token returns and however much ether is attached. -/
theorem tokenMixer_commits (success : Bool) (value : ℕ) :
    ∃ st', tokenMixer.Commits ⟨0, value⟩ tokenInputs
        (react id ((TokenReply.returned success).outcome (assemblePublicValues (tokenInputs 8)).1))
        (react id ((TokenReply.returned true).outcome (assemblePublicValues (tokenInputs 8)).2))
        tokenMixer.deploy st' ⟨if success then 5 * 10 ^ 12 else 0, 0⟩ ∧
      st'.acceptedInputs = [tokenInputs] ∧ st'.balance = value ∧
      st'.tokenBalance = if success then 5 * 10 ^ 12 else 0 := by
  set first : External := react id ((TokenReply.returned success).outcome
    (assemblePublicValues (tokenInputs 8)).1) with hfirst
  set second : External := react id ((TokenReply.returned true).outcome
    (assemblePublicValues (tokenInputs 8)).2)
  obtain ⟨st₁, hacc, hmix⟩ := @mix_of_checks tokenMixer ⟨0, value⟩ (plainArgs tokenInputs) first
    second tokenMixer.deploy deploy_roots (by decide +kernel) (fun _ _ => rfl) (by decide +kernel)
    rfl rfl (show 0 + 2 ≤ 2 ^ 32 by decide)
  obtain ⟨hbalance, htokens⟩ := hacc.balances
  have haccepted := hacc.acceptedInputs
  have hmove : tokenMixer.processPublicValues ⟨0, value⟩ tokenInputs first second st₁ =
      .ok ({ st₁ with tokenBalance := st₁.tokenBalance + (if success then 5 * 10 ^ 12 else 0 : ℕ) },
        ⟨if success then 5 * 10 ^ 12 else 0, 0⟩) := by
    rw [processPublicValues, tokenInputs_values, hfirst, tokenInputs_values]
    rfl
  refine ⟨_, .mix (plainArgs tokenInputs) (hmix.trans hmove) rfl, haccepted, ?_, ?_⟩
  · exact hbalance.trans (Nat.zero_add value)
  · rw [htokens]
    cases success <;> rfl

/-- A deposit for which the token returns `true`. -/
theorem tokenAccounted_deposit : ∃ st',
    TokenAccounted tokenInputs (.returned true) (.returned true) tokenMixer.deploy st' := by
  obtain ⟨st', hcommits, -⟩ := tokenMixer_commits true 0
  exact ⟨st', (tokenAccounted_iff tokenMixer (by decide) inBooks_refl inBooks_refl hcommits).mpr
    ⟨fun _ => rfl, fun _ => rfl, fun _ => rfl⟩⟩

/-- A deposit is accepted although `transferFrom` returns `false` and no unit has moved. A deposit to
which one wei is attached is accepted too, and the wei stays with the mixer. -/
theorem token_not_accounted :
    (∃ st' mv, tokenMixer.Commits ⟨0, 0⟩ tokenInputs (react id (.returned 0))
        (react id (.returned 0)) tokenMixer.deploy st' mv ∧ st'.acceptedInputs = [tokenInputs] ∧
      netValue tokenInputs = 5 * 10 ^ 12 ∧ st'.tokenBalance = 0 ∧
      ¬ TokenAccounted tokenInputs (.returned false) (.returned true) tokenMixer.deploy st') ∧
    ∃ st' mv, tokenMixer.Commits ⟨0, 1⟩ tokenInputs (react id (.returned (5 * 10 ^ 12)))
        (react id (.returned 0)) tokenMixer.deploy st' mv ∧ tokenMixer.deploy.balance = 0 ∧
      st'.balance = 1 ∧
      ¬ TokenAccounted tokenInputs (.returned true) (.returned true) tokenMixer.deploy st' := by
  constructor
  · obtain ⟨st', hcommits, haccepted, -, htokens⟩ := tokenMixer_commits false 0
    rw [tokenInputs_values] at hcommits
    refine ⟨st', _, hcommits, haccepted, by decide +kernel, htokens, fun h => ?_⟩
    have hmoved := h.moved_in
    rw [tokenInputs_values] at hmoved
    cases hmoved (by norm_num)
  · obtain ⟨st', hcommits, -, hbalance, -⟩ := tokenMixer_commits true 1
    rw [tokenInputs_values] at hcommits
    refine ⟨st', _, hcommits, rfl, hbalance, fun h => ?_⟩
    have hether := h.ether
    rw [hbalance] at hether
    cases hether

/-! ### Whole runs -/

/-- The condition of `tokenAccounted_iff` on a call of a tree. -/
def MovesTokens (msg : Msg) (inputs : Inputs) (outcome₁ outcome₂ : Outcome) : Prop :=
  ∃ reply₁ reply₂ : TokenReply,
    outcome₁ = reply₁.outcome (assemblePublicValues (inputs 8)).1 ∧
    outcome₂ = reply₂.outcome (assemblePublicValues (inputs 8)).2 ∧
    reply₁.Moves (assemblePublicValues (inputs 8)).1 ∧
    reply₂.Moves (assemblePublicValues (inputs 8)).2 ∧
    (0 < (assemblePublicValues (inputs 8)).1 → msg.value = 0)

theorem InBooks.trans {st st' st'' : State} (h : InBooks st st') (h' : InBooks st' st'') :
    InBooks st st'' := by
  obtain ⟨accepted, haccepted, htokens, hbalance⟩ := h
  obtain ⟨accepted', haccepted', htokens', hbalance'⟩ := h'
  refine ⟨accepted ++ accepted', ?_, ?_, hbalance'.trans hbalance⟩
  · rw [haccepted', haccepted, append_assoc]
  · rw [htokens', htokens, map_append, sum_append, add_assoc]

theorem callRelation_inBooks (htoken : m.token ≠ 0) : m.CallRelation MovesTokens InBooks where
  refl := inBooks_refl
  trans := fun _ _ _ h h' => h.trans h'
  call := by
    rintro msg inputs run₁ run₂ _ _ st st' mv ⟨reply₁, reply₂, rfl, rfl, hcond⟩ hrun₁ hrun₂ hcall
    obtain ⟨hmoved₁, hmoved₂, hvalue⟩ := hcond
    obtain ⟨⟨nested, haccepted, htokens⟩, hether, -, -⟩ :=
      hcall.tokenAccounted htoken hrun₁ hrun₂ hmoved₁ hmoved₂ hvalue
    refine ⟨inputs :: nested, haccepted, ?_, hether⟩
    rw [htokens, map_cons, sum_cons, add_assoc]
  insert := by
    intro commitment st st' hins
    obtain ⟨hinputs, -, hbalance, htokens⟩ := insert_frame hins
    exact ⟨[], by rw [hinputs, append_nil], by simp [htokens], hbalance⟩

/-- In a run all of whose calls meet the condition, the token balance changes by the public values of
the accepted calls and the mixer keeps no ether. -/
theorem inBooks_runCalls (htoken : m.token ≠ 0) (calls : List Call)
    (hcalls : m.CallsMeet MovesTokens calls) (st : State) :
    InBooks st (runCalls m calls st) :=
  (callRelation_inBooks htoken).runCalls calls hcalls st

/-- A deposit with other nullifiers is accepted while the token is called for a first one. -/
theorem inBooks_runCalls_nested :
    let nestedInputs : Inputs := Function.update (Function.update tokenInputs 3 5) 4 6
    let deposit (inputs : Inputs) (nested : List Call) : Call :=
      .mix ⟨0, 0⟩ (plainArgs inputs) nested (.returned (5 * 10 ^ 12)) [] (.returned 0)
    let final := runCalls tokenMixer [deposit tokenInputs [deposit nestedInputs []], .insert 7]
      tokenMixer.deploy
    final.acceptedInputs.length = 2 ∧ InBooks tokenMixer.deploy final := by
  intro nestedInputs deposit final
  have hmoves (inputs : Inputs) (hvalues : assemblePublicValues (inputs 8) = (5 * 10 ^ 12, 0)) :
      MovesTokens ⟨0, 0⟩ inputs (.returned (5 * 10 ^ 12)) (.returned 0) := by
    refine ⟨.returned true, .returned true, ?_, ?_, fun _ => rfl, fun _ => rfl, fun _ => rfl⟩
    · rw [hvalues]
      rfl
    · rw [hvalues]
      rfl
  refine ⟨by decide +kernel, inBooks_runCalls (by decide) _ ?_ _⟩
  simp only [deposit, CallsMeet, CallMeets, and_true]
  exact ⟨hmoves tokenInputs tokenInputs_values, hmoves nestedInputs tokenInputs_values⟩

end Zeth.Mixer
