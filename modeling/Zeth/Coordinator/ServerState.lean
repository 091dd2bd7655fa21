import Zeth.Foundation.Python

/-!
# Slots of the contributors

The coordinator of the ceremony gives each contributor a slot. Its state is the index of the current
slot, the number of slots and a deadline (`mpc/coordinator/server_state.py`). A slot ends when the
state is updated after the deadline, or with a contribution; the next one lasts for an interval from
then. When all slots are used the deadline is zero, which stands for none.

Times are the numbers of the language. Nothing is assumed of their sums but that they are positive
when they should be, so a full interval after `began` means the sum that is computed from the two.

## Main definitions

* `Floats`: what is assumed of numbers.
* `ServerState`, `ServerState.update`, `ServerState.receivedContribution`, `ServerState.toJson`,
  `ServerState.fromJson`, `initialServerState`.
* `Course`: a state with the time at which its slot began, and `Course.run`.

## Main results

* `Course.isFair_run`: the invariant of all runs.
* `Course.slots_fair`.
-/

namespace Zeth.Coordinator

open Python

variable {T : Type} [LinearOrder T] [Zero T] [Add T]

variable (T) in
/-- Numbers of type `float`, without those that are not numbers: their form as text reads back, and
the sum of two numbers that are not negative is positive when the second is. -/
structure Floats where
  str : T → String
  float : String → Except Exc T
  float_str : ∀ x, float (str x) = .ok x
  add_pos : ∀ {x y : T}, 0 ≤ x → 0 < y → 0 < x + y

variable (T) in
/-- `ServerState`. The constructor asserts that there are contributors. -/
structure ServerState where
  nextContributorIndex : ℕ
  numContributors : ℕ
  nextContributorDeadline : T
  numContributors_ne_zero : numContributors ≠ 0

/-- The dictionary that a state is saved as. -/
structure ServerStateJson where
  nextContributorIndex : ℕ
  numContributors : ℕ
  nextContributorDeadline : String

namespace ServerState

/-- `have_all_contributions`. -/
def haveAllContributions (s : ServerState T) : Bool := s.numContributors ≤ s.nextContributorIndex

/-- `_next_contributor`. -/
def nextContributor (s : ServerState T) (nextDeadline : T) : ServerState T :=
  { s with
    nextContributorIndex := s.nextContributorIndex + 1
    nextContributorDeadline :=
      if s.numContributors ≤ s.nextContributorIndex + 1 then 0 else nextDeadline }

/-- `received_contribution`. -/
def receivedContribution (s : ServerState T) (nextDeadline : T) : Except Exc (ServerState T) := do
  assert (!s.haveAllContributions) ""
  return s.nextContributor nextDeadline

/-- `update`: whether the deadline has passed, and the state after the call. -/
def update (s : ServerState T) (now interval : T) : Bool × ServerState T :=
  if s.nextContributorDeadline ≤ 0 ∨ now < s.nextContributorDeadline then (false, s)
  else (true, s.nextContributor (now + interval))

variable (F : Floats T)

/-- `_to_json_dict`. -/
def toJson (s : ServerState T) : ServerStateJson :=
  ⟨s.nextContributorIndex, s.numContributors, F.str s.nextContributorDeadline⟩

/-- `_from_json_dict`. -/
def fromJson (json : ServerStateJson) : Except Exc (ServerState T) := do
  let nextContributorDeadline ← F.float json.nextContributorDeadline
  if h : json.numContributors ≠ 0 then
    return ⟨json.nextContributorIndex, json.numContributors, nextContributorDeadline, h⟩
  else throw (.assertionError "")

/-- A saved state reads back. -/
theorem fromJson_toJson (s : ServerState T) : fromJson F (toJson F s) = .ok s := by
  rw [fromJson, toJson, F.float_str, Except.ok_bind]
  exact dif_pos s.numContributors_ne_zero

end ServerState

/-- `initial_server_state`, of the parts of the configuration and of the contributors that it
reads. -/
def initialServerState (startTimeUtc contributionInterval : T) (numContributors : ℕ) :
    Except Exc (ServerState T) := do
  assert (startTimeUtc ≠ 0) ""
  assert (contributionInterval ≠ 0) ""
  if h : numContributors ≠ 0 then
    return ⟨0, numContributors, startTimeUtc + contributionInterval, h⟩
  else throw (.assertionError "")

theorem initialServerState_eq_ok {startTimeUtc contributionInterval : T} {numContributors : ℕ}
    {state : ServerState T}
    (h : initialServerState startTimeUtc contributionInterval numContributors = .ok state) :
    ∃ hnum, state = ⟨0, numContributors, startTimeUtc + contributionInterval, hnum⟩ := by
  obtain ⟨-, -, h⟩ := Except.bind_eq_ok.mp h
  obtain ⟨-, -, h⟩ := Except.bind_eq_ok.mp h
  split_ifs at h with hnum
  exact ⟨hnum, (Except.ok.inj h).symm⟩

/-! ### Calls one after the other -/

variable (T) in
/-- The calls on a state. -/
inductive Call where
  /-- `update(now, interval)` -/
  | update (now : T)
  /-- `received_contribution(now + interval)`, as `Server._on_contribution` calls it. -/
  | receivedContribution (now : T)
  /-- `from_json` on what `to_json` has written. -/
  | reload

namespace Call

/-- The time of a call. -/
def time : Call T → Option T
  | update now => some now
  | receivedContribution now => some now
  | reload => none

/-- Times are not negative. -/
def Nonneg (call : Call T) : Prop := ∀ now, call.time = some now → 0 ≤ now

/-- The state after a call. -/
def apply (F : Floats T) (interval : T) (s : ServerState T) : Call T → Except Exc (ServerState T)
  | update now => .ok (s.update now interval).2
  | receivedContribution now => s.receivedContribution (now + interval)
  | reload => ServerState.fromJson F (s.toJson F)

end Call

variable (T) in
/-- A state, and the time of the call with which its slot has begun. The first slot has none. -/
structure Course where
  state : ServerState T
  began : Option T

namespace Course

variable (F : Floats T) (interval : T)

/-- One more call. A call that raises leaves the state. -/
def step (c : Course T) (call : Call T) : Course T :=
  match call.apply F interval c.state with
  | .ok state =>
    ⟨state, if state.nextContributorIndex = c.state.nextContributorIndex then c.began else call.time⟩
  | .error _ => c

/-- Calls one after the other. -/
def run (c : Course T) (calls : List (Call T)) : Course T := calls.foldl (step F interval) c

/-- The first slot. -/
def start (num : ℕ) (hnum : num ≠ 0) (firstDeadline : T) : Course T :=
  ⟨⟨0, num, firstDeadline, hnum⟩, none⟩

/-- The next slot, from the given time on. -/
def next (c : Course T) (now : T) : Course T :=
  ⟨c.state.nextContributor (now + interval), some now⟩

/-- What holds along a run. -/
structure IsFair (num : ℕ) (firstDeadline : T) (c : Course T) : Prop where
  numContributors_eq : c.state.numContributors = num
  index_le : c.state.nextContributorIndex ≤ num
  deadline_of_complete : num ≤ c.state.nextContributorIndex → c.state.nextContributorDeadline = 0
  deadline_pos : c.state.nextContributorIndex < num → 0 < c.state.nextContributorDeadline
  deadline_first : c.state.nextContributorIndex = 0 → c.state.nextContributorDeadline = firstDeadline
  deadline_eq : 0 < c.state.nextContributorIndex → c.state.nextContributorIndex < num →
    ∃ began, c.began = some began ∧ c.state.nextContributorDeadline = began + interval

variable {F interval} {num : ℕ} {firstDeadline : T} {c : Course T}

/-- What an update can do. -/
theorem step_update_cases (hc : IsFair interval num firstDeadline c) (now : T) :
    (c.state.update now interval).1 = false ∧ step F interval c (.update now) = c ∨
      (c.state.update now interval).1 = true ∧ c.state.nextContributorIndex < num ∧
        c.state.nextContributorDeadline ≤ now ∧
          step F interval c (.update now) = next interval c now := by
  by_cases h : c.state.nextContributorDeadline ≤ 0 ∨ now < c.state.nextContributorDeadline
  · left
    simp only [step, Call.apply, ServerState.update, if_pos h, if_true, and_self]
  · right
    simp only [step, Call.apply, ServerState.update, if_neg h, true_and]
    rw [not_or, not_le, not_lt] at h
    refine ⟨lt_of_not_ge fun hle => ?_, h.2, ?_⟩
    · exact h.1.ne' (hc.deadline_of_complete hle)
    · exact congrArg _ (if_neg (Nat.succ_ne_self _))

/-- What a call can do: leave the slot, or begin the next one while there is one. -/
theorem step_cases (hc : IsFair interval num firstDeadline c) (call : Call T) :
    step F interval c call = c ∨ c.state.nextContributorIndex < num ∧
      ∃ now, call.time = some now ∧ step F interval c call = next interval c now := by
  cases call with
  | update now =>
    rcases step_update_cases (F := F) hc now with ⟨-, h⟩ | ⟨-, hlt, -, h⟩
    · exact .inl h
    · exact .inr ⟨hlt, now, rfl, h⟩
  | receivedContribution now =>
    by_cases hall : num ≤ c.state.nextContributorIndex
    · left
      have hassert : c.state.haveAllContributions = true :=
        decide_eq_true (hc.numContributors_eq.trans_le hall)
      simp only [step, Call.apply, ServerState.receivedContribution, hassert, Bool.not_true,
        assert_false, Except.error_bind]
    · right
      have hassert : c.state.haveAllContributions = false :=
        decide_eq_false fun h => hall (hc.numContributors_eq.symm.trans_le h)
      refine ⟨not_le.mp hall, now, rfl, ?_⟩
      simp only [step, Call.apply, ServerState.receivedContribution, hassert, Bool.not_false,
        assert_true, Except.ok_bind]
      exact congrArg _ (if_neg (Nat.succ_ne_self _))
  | reload =>
    left
    simp only [step, Call.apply, ServerState.fromJson_toJson, if_true]

variable (interval) in
theorem isFair_start (hnum : num ≠ 0) (hfirst : 0 < firstDeadline) :
    IsFair interval num firstDeadline (start num hnum firstDeadline) where
  numContributors_eq := rfl
  index_le := Nat.zero_le num
  deadline_of_complete h := absurd (Nat.le_zero.mp h) hnum
  deadline_pos _ := hfirst
  deadline_first _ := rfl
  deadline_eq h := absurd h (lt_irrefl 0)

include F in
/-- The next slot begins with a deadline, or without one if it is past the last. -/
theorem IsFair.next (hinterval : 0 < interval) (hc : IsFair interval num firstDeadline c)
    (hlt : c.state.nextContributorIndex < num) {now : T} (hnow : 0 ≤ now) :
    IsFair interval num firstDeadline (next interval c now) := by
  have hdeadline : (Course.next interval c now).state.nextContributorDeadline =
      if num ≤ c.state.nextContributorIndex + 1 then 0 else now + interval :=
    congrArg (fun n => if n ≤ _ then (0 : T) else now + interval) hc.numContributors_eq
  constructor
  · exact hc.numContributors_eq
  · exact hlt
  · intro hle
    exact hdeadline.trans (if_pos hle)
  · intro hlt'
    exact (F.add_pos hnow hinterval).trans_eq (hdeadline.trans (if_neg (not_le.mpr hlt'))).symm
  · intro h
    exact absurd h (Nat.succ_ne_zero _)
  · intro _ hlt'
    exact ⟨now, rfl, hdeadline.trans (if_neg (not_le.mpr hlt'))⟩

theorem isFair_step (hinterval : 0 < interval) (hc : IsFair interval num firstDeadline c)
    {call : Call T} (hcall : call.Nonneg) :
    IsFair interval num firstDeadline (step F interval c call) := by
  rcases step_cases (F := F) hc call with h | ⟨hlt, now, hnow, h⟩
  · rwa [h]
  · rw [h]
    exact hc.next (F := F) hinterval hlt (hcall now hnow)

/-- The invariant holds along every run. -/
theorem isFair_run (hinterval : 0 < interval) (hc : IsFair interval num firstDeadline c)
    {calls : List (Call T)} (hcalls : ∀ call ∈ calls, call.Nonneg) :
    IsFair interval num firstDeadline (run F interval c calls) := by
  induction calls generalizing c with
  | nil => exact hc
  | cons call calls ih =>
    obtain ⟨hcall, hcalls⟩ := List.forall_mem_cons.mp hcalls
    exact ih (isFair_step hinterval hc hcall) hcalls

/-- **Slots are fair.** After any calls, the index is at most the number of slots, and the deadline is
zero exactly when all slots are used. One more call moves the index by at most one. When an update
ends a slot there was one left, and it had been current for a full interval, the first one until the
first deadline. -/
theorem slots_fair (F : Floats T) (hnum : num ≠ 0) (hinterval : 0 < interval)
    (hfirst : 0 < firstDeadline) (calls : List (Call T)) (hcalls : ∀ call ∈ calls, call.Nonneg) :
    let c := run F interval (start num hnum firstDeadline) calls
    c.state.nextContributorIndex ≤ num ∧
    (c.state.nextContributorDeadline = 0 ↔ c.state.haveAllContributions = true) ∧
    ∀ call : Call T,
      c.state.nextContributorIndex ≤ (step F interval c call).state.nextContributorIndex ∧
      (step F interval c call).state.nextContributorIndex ≤ c.state.nextContributorIndex + 1 ∧
      ∀ now, call = .update now → (c.state.update now interval).1 = true →
        c.state.haveAllContributions = false ∧
        (c.state.nextContributorIndex = 0 → firstDeadline ≤ now) ∧
        (0 < c.state.nextContributorIndex →
          ∃ began, c.began = some began ∧ began + interval ≤ now) := by
  intro c
  have hc : IsFair interval num firstDeadline c :=
    isFair_run hinterval (isFair_start interval hnum hfirst) hcalls
  have hall : c.state.haveAllContributions = true ↔ num ≤ c.state.nextContributorIndex := by
    rw [← hc.numContributors_eq]
    exact decide_eq_true_iff
  refine ⟨hc.index_le, ?_, fun call => ?_⟩
  · rw [hall]
    refine ⟨fun h => ?_, hc.deadline_of_complete⟩
    by_contra hlt
    exact (hc.deadline_pos (not_le.mp hlt)).ne' h
  · have hindex : c.state.nextContributorIndex ≤
          (step F interval c call).state.nextContributorIndex ∧
        (step F interval c call).state.nextContributorIndex ≤ c.state.nextContributorIndex + 1 := by
      rcases step_cases (F := F) hc call with h | ⟨-, now, -, h⟩
      · rw [h]
        exact ⟨le_rfl, Nat.le_succ _⟩
      · rw [h]
        exact ⟨Nat.le_succ _, le_rfl⟩
    refine ⟨hindex.1, hindex.2, ?_⟩
    rintro now rfl hended
    rcases step_update_cases (F := F) hc now with ⟨h, -⟩ | ⟨-, hlt, hdeadline, -⟩
    · rw [h] at hended
      cases hended
    · refine ⟨Bool.eq_false_iff.mpr fun h => hlt.not_ge (hall.mp h), fun hzero => ?_, fun hpos => ?_⟩
      · exact (hc.deadline_first hzero).symm.trans_le hdeadline
      · obtain ⟨began, hbegan, hsum⟩ := hc.deadline_eq hpos hlt
        exact ⟨began, hbegan, hsum ▸ hdeadline⟩

/-- Natural numbers in decimal. -/
def natFloats : Floats ℕ where
  str := toString
  float s := .ok (Nat.ofDigitChars 10 s.toList 0)
  float_str n := by
    rw [Nat.toString_eq_ofList_toDigits, String.toList_ofList, Nat.ofDigitChars_ten_toDigits]
  add_pos _ hy := Nat.add_pos_right _ hy

/-- Two slots with the interval `10`: the second begins with an update at time `25`, and an update at
time `35` ends it. -/
theorem slots_fair_two :
    let c := run natFloats 10 (start 2 two_ne_zero 20) [.update 25, .reload]
    (c.state.update 35 10).1 = true ∧ ∃ began, c.began = some began ∧ began + 10 ≤ 35 := by
  intro c
  have hreload : c = next 10 (start 2 two_ne_zero 20) 25 := by
    simp only [c, run, List.foldl_cons, List.foldl_nil, step, Call.apply,
      ServerState.fromJson_toJson]
    rfl
  have hended : (c.state.update 35 10).1 = true := by
    rw [hreload]
    rfl
  have hpos : 0 < c.state.nextContributorIndex := by
    rw [hreload]
    exact Nat.one_pos
  have hnonneg (call : Call ℕ) : call.Nonneg := fun now _ => Nat.zero_le now
  obtain ⟨-, -, hstep⟩ := slots_fair natFloats two_ne_zero (by norm_num : 0 < 10)
    (by norm_num : 0 < 20) [.update 25, .reload] fun call _ => hnonneg call
  exact ⟨hended, ((hstep (.update 35)).2.2 35 rfl hended).2.2 hpos⟩

end Course

end Zeth.Coordinator
