import Mathlib
import Zeth.Contract.DoubleSpend
import Zeth.Contract.PublicValues

/-!
# A mixer without a token conserves ether

A mixer whose token is the zero address holds ether. Code of the sender runs at most twice in a call:
when attached ether is returned and when `vpub_out` is paid. Each time the ether has left the balance
and all other effects of the call have taken place, so further calls made by that code start from a
state in which only `vpub_out` may be missing from the books. What holds of each call, if it holds of the code it calls,
holds of every run (`Mixer.CallRelation`).

The books compare the balance with the public values of the accepted calls, nested ones included:
calls that revert leave neither.

## Main definitions

* `Mixer.netValue`, `Mixer.State.etherLedger`.
* `Mixer.External.Pays`: ether leaves the mixer with a call of other code.

## Main results

* `Mixer.Commits.ether`: what a committed call does with the ether attached to it.
* `Mixer.ether_conserved`: whole runs.
-/

namespace Zeth.Mixer

variable {m : Mixer}

/-! ### Books -/

/-- What a call with the given public inputs adds to the balance, in wei or units of the token. -/
def netValue (inputs : Inputs) : ℤ :=
  (assemblePublicValues (inputs 8)).1 - (assemblePublicValues (inputs 8)).2

/-- The ether held beyond the public values of the accepted calls. -/
def State.etherLedger (st : State) : ℤ :=
  st.balance - (st.acceptedInputs.map netValue).sum

/-- The first amount of an accepted call is off the books: it has entered the log and the balance
does not show it yet. -/
theorem Accepts.etherLedger {inputs : Inputs} {st st' : State} (h : m.Accepts inputs st st') :
    st'.etherLedger = st.etherLedger - netValue inputs := by
  rw [State.etherLedger, State.etherLedger, h.acceptedInputs, h.balances.1, List.map_append,
    List.sum_append, List.map_singleton, List.sum_singleton]
  ring

/-! ### Payments -/

/-- `value` wei leave the mixer with a call of other code, which ends in the state `st'`. No code is
called when `value` is zero. -/
def External.Pays (external : External) (value : ℕ) (st st' : State) : Prop :=
  (value = 0 ∧ st' = st) ∨
    (0 < value ∧ value ≤ st.balance ∧
      ∃ moved, external { st with balance := st.balance - value } = some (st', moved))

theorem sendEther_pays {external : External} {value : ℕ} {message : String} {st st' : State}
    (hvalue : 0 < value) (h : sendEther value external message st = .ok st') :
    external.Pays value st st' := by
  rw [sendEther] at h
  split_ifs at h with hlow
  cases hrun : external { st with balance := st.balance - value } with
  | none => simp [hrun] at h
  | some result =>
    obtain ⟨st₁, moved⟩ := result
    simp only [hrun, Except.ok.injEq] at h
    subst h
    exact .inr ⟨hvalue, not_lt.mp hlow, moved, hrun⟩

/-- Without a token, the part that takes `vpub_in` returns what is attached beyond it. -/
theorem processVpubIn_pays (htoken : m.token = 0) {msg : Msg} {vpubIn taken : ℕ}
    {external : External} {st st' : State}
    (h : m.processVpubIn msg vpubIn external st = .ok (st', taken)) :
    ∃ returned, msg.value = vpubIn + returned ∧ external.Pays returned st st' := by
  rw [processVpubIn] at h
  split_ifs at h with hin htok hvalue
  · exact absurd htoken htok
  · obtain ⟨_, hreq, hret⟩ := Except.bind_eq_ok.mp h
    cases hret
    exact ⟨0, by simpa using hreq, .inl ⟨rfl, rfl⟩⟩
  · obtain ⟨st₁, hsend, hret⟩ := Except.bind_eq_ok.mp h
    cases hret
    exact ⟨msg.value, by omega, sendEther_pays hvalue hsend⟩
  · cases h
    exact ⟨0, by omega, .inl ⟨rfl, rfl⟩⟩

theorem processVpubOut_pays (htoken : m.token = 0) {vpubOut paid : ℕ} {external : External}
    {st st' : State} (h : m.processVpubOut vpubOut external st = .ok (st', paid)) :
    external.Pays vpubOut st st' := by
  rw [processVpubOut] at h
  split_ifs at h with hout htok
  · exact absurd htoken htok
  · obtain ⟨st₁, hsend, hret⟩ := Except.bind_eq_ok.mp h
    cases hret
    exact sendEther_pays hout hsend
  · cases h
    exact .inl ⟨by omega, rfl⟩

/-- A committed call of a mixer without a token: the attached ether is `vpub_in` and an amount that
is returned, and then `vpub_out` is paid. -/
theorem Commits.ether (htoken : m.token = 0) {msg : Msg} {inputs : Inputs}
    {first second : External} {st st' : State} {mv : Movement}
    (h : m.Commits msg inputs first second st st' mv) :
    ∃ st₁ st₂ returned,
      m.Accepts inputs { st with balance := st.balance + msg.value } st₁ ∧
      msg.value = (assemblePublicValues (inputs 8)).1 + returned ∧
      first.Pays returned st₁ st₂ ∧
      second.Pays (assemblePublicValues (inputs 8)).2 st₂ st' := by
  obtain ⟨st₁, hacc, hmove⟩ := h.cases
  obtain ⟨st₂, hin, hout⟩ := processPublicValues_cases hmove
  obtain ⟨returned, hvalue, hpays⟩ := processVpubIn_pays htoken hin
  exact ⟨st₁, st₂, returned, hacc, hvalue, hpays, processVpubOut_pays htoken hout⟩

/-- A payment to code that keeps the books changes them by the amount paid. -/
theorem External.Pays.etherLedger {run : State → State} {outcome : Outcome} {value : ℕ}
    {st st' : State} (h : External.Pays (react run outcome) value st st')
    (hrun : ∀ s, (run s).etherLedger = s.etherLedger) :
    st'.etherLedger = st.etherLedger - value := by
  rcases h with ⟨rfl, rfl⟩ | ⟨-, hle, moved, hreact⟩
  · simp
  · cases outcome with
    | failed => cases hreact
    | returned n =>
      simp only [react, Option.some.injEq, Prod.mk.injEq] at hreact
      rw [← hreact.1, hrun]
      simp only [State.etherLedger, State.acceptedInputs, Nat.cast_sub hle]
      ring

/-! ### Whole runs -/

/-- Committed calls keep the books, if the code they call does. -/
theorem Commits.etherLedger (htoken : m.token = 0) {msg : Msg} {inputs : Inputs}
    {run₁ run₂ : State → State} {outcome₁ outcome₂ : Outcome} {st st' : State} {mv : Movement}
    (h : m.Commits msg inputs (react run₁ outcome₁) (react run₂ outcome₂) st st' mv)
    (hrun₁ : ∀ s, (run₁ s).etherLedger = s.etherLedger)
    (hrun₂ : ∀ s, (run₂ s).etherLedger = s.etherLedger) :
    st'.etherLedger = st.etherLedger := by
  obtain ⟨st₁, st₂, returned, hacc, hvalue, hfirst, hsecond⟩ := h.ether htoken
  have hattached : State.etherLedger { st with balance := st.balance + msg.value } =
      st.etherLedger + msg.value := by
    simp only [State.etherLedger, State.acceptedInputs, Nat.cast_add]
    ring
  rw [hsecond.etherLedger hrun₂, hfirst.etherLedger hrun₁, hacc.etherLedger, hattached, hvalue,
    netValue]
  push_cast
  ring

/-- The books are the same before and after every call. -/
theorem callRelation_etherLedger (htoken : m.token = 0) :
    m.CallRelation (fun _ _ _ _ => True) fun st st' => st'.etherLedger = st.etherLedger where
  refl := fun _ => rfl
  trans := fun _ _ _ h h' => h'.trans h
  call := fun _ _ _ _ _ _ _ _ _ _ hrun₁ hrun₂ hcall => hcall.etherLedger htoken hrun₁ hrun₂
  insert := by
    intro commitment st st' hins
    obtain ⟨hinputs, -, hbalance, -⟩ := insert_frame hins
    rw [State.etherLedger, State.etherLedger, hinputs, hbalance]

/-- **Ether is conserved.** In every run of a mixer without a token, from any state and with calls
nested in any way: the balance has changed by the public values of the calls committed in the run,
nested ones included, and their nullifiers are pairwise distinct words. Every committed call, at any
depth, returns the attached ether but for its `vpub_in` and pays its `vpub_out`. -/
theorem ether_conserved (m : Mixer) (htoken : m.token = 0) (st : State) (calls : List Call) :
    (∃ committed : List Inputs,
      (runCalls m calls st).acceptedInputs = st.acceptedInputs ++ committed ∧
      ((runCalls m calls st).balance : ℤ) = st.balance + (committed.map netValue).sum ∧
      (committed.flatMap m.assembleNullifiers).Nodup) ∧
    ∀ msg inputs first second s s' mv, m.Commits msg inputs first second s s' mv →
      ∃ s₁ s₂ returned,
        m.Accepts inputs { s with balance := s.balance + msg.value } s₁ ∧
        msg.value = (assemblePublicValues (inputs 8)).1 + returned ∧
        first.Pays returned s₁ s₂ ∧
        second.Pays (assemblePublicValues (inputs 8)).2 s₂ s' := by
  refine ⟨?_, fun msg inputs first second s s' mv h => h.ether htoken⟩
  obtain ⟨committed, haccepted, hnodup, -⟩ :=
    (stepInvariant_nullifiersMarkedSince (m := m) st.acceptedInputs).runCalls calls st
      (nullifiersMarkedSince_self st)
  have hbooks := (callRelation_etherLedger htoken).runCalls calls
    (callsMeet_of_forall (fun _ _ _ _ => trivial) calls) st
  refine ⟨committed, haccepted, ?_, hnodup⟩
  rw [State.etherLedger, State.etherLedger, haccepted, List.map_append, List.sum_append] at hbooks
  linarith

/-- A call of `mix` that attaches five units and has them as its `vpub_in`. -/
def depositCall : Call :=
  .mix ⟨0, 5 * 10 ^ 12⟩ (plainArgs (valueInputs 0 (5 * 2 ^ 64))) [] .failed [] .failed

/-- A new mixer commits the deposit and then holds five units. -/
theorem ether_conserved_deposit :
    (runCalls (valueMixer 0) [depositCall] (valueMixer 0).deploy).acceptedInputs =
        [valueInputs 0 (5 * 2 ^ 64)] ∧
      (runCalls (valueMixer 0) [depositCall] (valueMixer 0).deploy).balance = 5 * 10 ^ 12 := by
  obtain ⟨st₁, hacc, hmix⟩ := @mix_of_checks (valueMixer 0) ⟨0, 5 * 10 ^ 12⟩
    (plainArgs (valueInputs 0 (5 * 2 ^ 64)))
    (react (fun st => runCalls (valueMixer 0) [] st) .failed)
    (react (fun st => runCalls (valueMixer 0) [] st) .failed) (valueMixer 0).deploy deploy_roots
    (by decide +kernel) (fun _ _ => rfl) (by decide +kernel) rfl rfl
    (show 0 + 2 ≤ 2 ^ 32 by decide)
  have hmove : (valueMixer 0).processPublicValues ⟨0, 5 * 10 ^ 12⟩ (valueInputs 0 (5 * 2 ^ 64))
      (react (fun st => runCalls (valueMixer 0) [] st) .failed)
      (react (fun st => runCalls (valueMixer 0) [] st) .failed) st₁ =
        .ok (st₁, ⟨5 * 10 ^ 12, 0⟩) := by
    have hvalues : assemblePublicValues (valueInputs 0 (5 * 2 ^ 64) 8) = (5 * 10 ^ 12, 0) := by
      decide +kernel
    rw [processPublicValues, hvalues]
    rfl
  have hrun : runCalls (valueMixer 0) [depositCall] (valueMixer 0).deploy = st₁ := by
    rw [runCalls, runCalls, depositCall, exec, hmix, plainArgs, hmove]
    rfl
  obtain ⟨⟨committed, haccepted, hbalance, -⟩, -⟩ :=
    ether_conserved (valueMixer 0) rfl (valueMixer 0).deploy [depositCall]
  have hone : (runCalls (valueMixer 0) [depositCall] (valueMixer 0).deploy).acceptedInputs =
      [valueInputs 0 (5 * 2 ^ 64)] := by
    rw [hrun, hacc.acceptedInputs]
    rfl
  obtain rfl : committed = [valueInputs 0 (5 * 2 ^ 64)] := by
    rw [hone] at haccepted
    exact haccepted.symm
  have hnet : ([valueInputs 0 (5 * 2 ^ 64)].map netValue).sum = 5 * 10 ^ 12 := by decide +kernel
  have hzero : (valueMixer 0).deploy.balance = 0 := rfl
  rw [hnet, hzero] at hbalance
  exact ⟨hone, by exact_mod_cast hbalance⟩

end Zeth.Mixer
