import Mathlib.Logic.Relation
import Zeth.Coordinator.Window

/-!
# The threads of the coordinator

Requests are served one at a time under a lock, and are refused while a contribution is processed.
A timer ends slots under the same lock, but whether or not a contribution is processed. The thread
that processes a contribution takes no lock: it reads the index when it calls the handler, and moves
it on when the handler has found the contribution valid.

Here a request is one step, since it holds the lock and no contribution is processed. The timer and
the thread take several, but a tick compares the time with the deadline in one, although the two are
read one after the other. A tick that ends the slot of a contribution which is being processed makes
the thread end the next slot as well, so that its contributor has none. Without such a tick slots are
used one at a time.

## Main definitions

* `Thread`, `Tick`, `Machine`, `Action`, `Machine.step`.
* `Machine.IsQuiet`: no slot is ended while the contribution in it is processed.
* `Machine.IsOrderly`: the invariant.

## Main results

* `Machine.isOrderly_step`, `Machine.isOrderly_of_reaches`.
* `Machine.slots_one_at_a_time`.
-/

namespace Zeth.Coordinator

open Python

variable {T : Type} [LinearOrder T] [Zero T] [Add T] {K : Keys}

/-! ### Steps -/

variable (T) in
/-- Where `_process_contribution` is. -/
inductive Thread where
  | idle
  /-- An upload has been accepted, and the thread is started. -/
  | launched
  /-- `handler.process_contribution` has been called with an index. -/
  | handling (given : ℕ)
  /-- The handler has found the contribution valid, and the clock is read. -/
  | reported (now : T)
  /-- `received_contribution` has moved the index and not yet the deadline. -/
  | incremented (now : T)
  /-- `_on_next_contributor` is to be called. -/
  | received
  /-- The `finally` block is left. -/
  | finishing

namespace Thread

/-- A contribution has been accepted and its slot has not been ended. -/
def IsAwaiting : Thread T → Prop
  | launched => True
  | handling _ => True
  | reported _ => True
  | _ => False

/-- A contribution has been accepted, and the next slot has no deadline yet. -/
def IsPending : Thread T → Prop
  | incremented _ => True
  | thread => thread.IsAwaiting

variable {thread : Thread T}

omit [LinearOrder T] [Zero T] [Add T]

theorem isAwaiting_of_isPending (h : thread.IsPending) (hne : ∀ now, thread ≠ .incremented now) :
    thread.IsAwaiting := by
  cases thread with
  | incremented now => exact absurd rfl (hne now)
  | _ => exact h

theorem isPending_of_isAwaiting (h : thread.IsAwaiting) : thread.IsPending := by
  cases thread with
  | incremented now => trivial
  | _ => exact h

theorem ne_idle_of_isAwaiting (h : thread.IsAwaiting) : thread ≠ .idle := by
  rintro rfl
  exact h

end Thread

variable (T) in
/-- Where `_tick` is: it holds the lock unless it is idle. -/
inductive Tick where
  | idle
  /-- The deadline has passed at the time that was read. -/
  | ending (now : T)
  /-- `_on_next_contributor` is to be called. -/
  | ended

variable (T) in
/-- The server with its threads, the time at which the slot has begun and the index for which the
last upload has been accepted. -/
structure Machine where
  server : Server T
  thread : Thread T
  tick : Tick T
  began : Option T
  acceptedIdx : ℕ

variable (T) in
/-- What the threads do, with the times at which they read the clock. -/
inductive Action where
  | challenge (now : T)
  | contribute (now : T) (req : Request)
  | tick (now : T)
  | tickAdvance
  | tickFinish
  | start
  | handlerReturns (valid : Bool) (now : T)
  | handlerRaises
  | increment
  | setDeadline
  | onNextContributor
  | finish

namespace Machine

/-- The index of the slot. -/
def index (m : Machine T) : ℕ := m.server.state.nextContributorIndex

/-- The slot. -/
def course (m : Machine T) : Course T := ⟨m.server.state, m.began⟩

/-- The machine after a change of the server. -/
def moved (m : Machine T) (now : T) (srv : Server T) : Machine T :=
  { m with
    server := srv
    began := if srv.state.nextContributorIndex = m.index then m.began else some now }

variable (E : Environment T K)

/-- One step, if it can be taken. -/
def step (m : Machine T) : Action T → Option (Machine T)
  | .challenge now =>
    match m.tick with
    | .idle => some (m.moved now (m.server.withStateLock (Server.challenge E now)).1)
    | _ => none
  | .contribute now req =>
    match m.tick with
    | .idle =>
      let result := m.server.withStateLock (Server.contribute E now req)
      let m := m.moved now result.1
      some <|
        if result.2 = accepted then { m with thread := .launched, acceptedIdx := m.index } else m
    | _ => none
  | .tick now =>
    match m.tick with
    | .idle =>
      if m.server.state.nextContributorDeadline ≤ 0 ∨ now < m.server.state.nextContributorDeadline
      then some m
      else some { m with tick := .ending now }
    | _ => none
  | .tickAdvance =>
    match m.tick with
    | .ending now =>
      let state := m.server.state.nextContributor (now + E.contributionInterval)
      some { m.moved now { m.server with state := state } with tick := .ended }
    | _ => none
  | .tickFinish =>
    match m.tick with
    | .ended => some { m with server := (m.server.onNextContributor E).1, tick := .idle }
    | _ => none
  | .start =>
    match m.thread with
    | .launched => some { m with thread := .handling m.index }
    | _ => none
  | .handlerReturns valid now =>
    match m.thread with
    | .handling _ => some { m with thread := if valid then .reported now else .finishing }
    | _ => none
  | .handlerRaises =>
    match m.thread with
    | .handling _ => some { m with thread := .finishing }
    | _ => none
  | .increment =>
    match m.thread with
    | .reported now =>
      -- the assertion of `received_contribution` ends the thread
      if m.server.state.haveAllContributions then some { m with thread := .finishing }
      else
        let state := { m.server.state with nextContributorIndex := m.index + 1 }
        some { m.moved now { m.server with state := state } with thread := .incremented now }
    | _ => none
  | .setDeadline =>
    match m.thread with
    | .incremented now =>
      let deadline :=
        if m.server.state.haveAllContributions then 0 else now + E.contributionInterval
      let state := { m.server.state with nextContributorDeadline := deadline }
      some { m with server := { m.server with state := state }, thread := .received }
    | _ => none
  | .onNextContributor =>
    match m.thread with
    | .received => some { m with server := (m.server.onNextContributor E).1, thread := .finishing }
    | _ => none
  | .finish =>
    match m.thread with
    | .finishing => some { m with server := { m.server with processing := false }, thread := .idle }
    | _ => none

/-- The machine with a server that has been started. -/
def start (srv : Server T) : Machine T := ⟨srv, .idle, .idle, none, 0⟩

/-- Steps one after the other. -/
def run (m : Machine T) : List (Action T) → Option (Machine T)
  | [] => some m
  | a :: actions => (m.step E a).bind fun m => m.run actions

/-- A tick does not find that the deadline has passed while a contribution is pending. -/
def IsQuiet (m : Machine T) (a : Action T) : Prop :=
  ∀ now, a = .tick now → m.thread.IsPending →
    (m.server.state.update now E.contributionInterval).1 = false

/-- What quiet steps lead to. -/
def Reaches (m m' : Machine T) : Prop :=
  Relation.ReflTransGen (fun m m' => ∃ a, IsQuiet E m a ∧ m.step E a = some m') m m'

/-! ### The invariant -/

/-- The deadline of a slot: none past the last slot, a given one for the first, and an interval
after the begin for the others. -/
structure HasDeadline (c : Course T) : Prop where
  of_complete : E.contributors.length ≤ c.state.nextContributorIndex →
    c.state.nextContributorDeadline = 0
  of_first : c.state.nextContributorIndex = 0 →
    c.state.nextContributorDeadline = E.startTimeUtc + E.contributionInterval
  of_next : 0 < c.state.nextContributorIndex →
    c.state.nextContributorIndex < E.contributors.length →
      ∃ began, c.began = some began ∧
        c.state.nextContributorDeadline = began + E.contributionInterval

/-- The slot has been current for a full interval, the first one until its deadline. -/
def HasElapsed (m : Machine T) (now : T) : Prop :=
  (m.index = 0 → E.startTimeUtc + E.contributionInterval ≤ now) ∧
    (0 < m.index → ∃ began, m.began = some began ∧ began + E.contributionInterval ≤ now)

/-- What holds along quiet steps. -/
structure IsOrderly (m : Machine T) : Prop where
  numContributors_eq : m.server.state.numContributors = E.contributors.length
  hasDeadline : (∀ now, m.thread ≠ .incremented now) → HasDeadline E m.course
  began_eq : ∀ now, m.thread = .incremented now → 0 < m.index ∧ m.began = some now
  index_eq : m.thread.IsAwaiting → m.index = m.acceptedIdx ∧ m.index < E.contributors.length
  given_eq : ∀ given, m.thread = .handling given → given = m.acceptedIdx
  processing : m.thread = .idle ∨ m.server.processing = true
  not_pending : m.tick = .idle ∨ ¬ m.thread.IsPending
  deadline_le : ∀ now, m.tick = .ending now →
    0 < m.server.state.nextContributorDeadline ∧ m.server.state.nextContributorDeadline ≤ now

variable {E} {m m' : Machine T} {now : T}

/-- A deadline that has passed is that of a slot, which has been current for an interval. -/
theorem HasDeadline.hasElapsed (h : HasDeadline E m.course)
    (hpos : 0 < m.server.state.nextContributorDeadline)
    (hle : m.server.state.nextContributorDeadline ≤ now) :
    m.index < E.contributors.length ∧ HasElapsed E m now := by
  have hlt : m.index < E.contributors.length :=
    lt_of_not_ge fun hge => hpos.ne' (h.of_complete hge)
  refine ⟨hlt, fun hzero => (h.of_first hzero).symm.trans_le hle, fun hindex => ?_⟩
  obtain ⟨began, hbegan, hsum⟩ := h.of_next hindex hlt
  exact ⟨began, hbegan, hsum ▸ hle⟩

omit [LinearOrder T] in
theorem hasDeadline_next {c : Course T}
    (hnum : c.state.numContributors = E.contributors.length) :
    HasDeadline E (c.next E.contributionInterval now) := by
  have hdeadline : (c.next E.contributionInterval now).state.nextContributorDeadline =
      if E.contributors.length ≤ c.state.nextContributorIndex + 1 then 0
      else now + E.contributionInterval := by
    rw [← hnum]
    rfl
  constructor
  · exact fun hle => hdeadline.trans (if_pos hle)
  · exact fun h => absurd h (Nat.succ_ne_zero _)
  · exact fun _ hlt => ⟨now, rfl, hdeadline.trans (if_neg (not_le.mpr hlt))⟩

/-- What an update can do to a slot. -/
theorem update_cases (m : Machine T) (now : T) :
    (m.server.state.update now E.contributionInterval).2 = m.server.state ∨
      0 < m.server.state.nextContributorDeadline ∧ m.server.state.nextContributorDeadline ≤ now ∧
        (m.server.state.update now E.contributionInterval).2 =
          m.server.state.nextContributor (now + E.contributionInterval) := by
  rw [ServerState.update]
  split_ifs with h
  · exact .inl rfl
  · rw [not_or, not_le, not_lt] at h
    exact .inr ⟨h.1, h.2, rfl⟩

omit [LinearOrder T] in
theorem course_moved_next (m : Machine T) (now : T) (srv : Server T)
    (h : srv.state = m.server.state.nextContributor (now + E.contributionInterval)) :
    (m.moved now srv).course = m.course.next E.contributionInterval now := by
  have hne : srv.state.nextContributorIndex ≠ m.index := by
    rw [h]
    exact Nat.succ_ne_self _
  rw [course, moved, Course.next, if_neg hne, h]
  rfl

/-- A request that does not start a thread. -/
theorem isOrderly_moved (hm : IsOrderly E m) (hidle : m.thread = .idle) (htick : m.tick = .idle)
    {srv : Server T} (h : srv.state = m.server.state ∨
      srv.state = (m.server.state.update now E.contributionInterval).2) :
    IsOrderly E (m.moved now srv) ∧ (srv.state.nextContributorIndex = m.index ∨
      srv.state.nextContributorIndex = m.index + 1 ∧ HasElapsed E m now) := by
  have hne (now : T) : m.thread ≠ .incremented now := by
    rw [hidle]
    exact nofun
  have hthread : (m.moved now srv).thread = .idle := hidle
  -- the slot is the same, or the next one after its interval
  have hslot : (m.moved now srv).course = m.course ∨
      (m.moved now srv).course = m.course.next E.contributionInterval now ∧
        HasElapsed E m now := by
    have hsame (h : srv.state = m.server.state) : (m.moved now srv).course = m.course := by
      have hindex : srv.state.nextContributorIndex = m.index :=
        congrArg ServerState.nextContributorIndex h
      rw [course, moved, if_pos hindex, h]
      rfl
    rcases h with h | h
    · exact .inl (hsame h)
    · rcases update_cases (E := E) m now with hup | ⟨hpos, hle, hup⟩
      · exact .inl (hsame (h.trans hup))
      · exact .inr ⟨m.course_moved_next now srv (h.trans hup),
          ((hm.hasDeadline hne).hasElapsed hpos hle).2⟩
  have hdeadline : srv.state.numContributors = E.contributors.length ∧
      HasDeadline E (m.moved now srv).course := by
    rcases hslot with hslot | ⟨hslot, -⟩
    · exact ⟨(congrArg (fun c => c.state.numContributors) hslot).trans hm.numContributors_eq,
        hslot ▸ hm.hasDeadline hne⟩
    · exact ⟨(congrArg (fun c => c.state.numContributors) hslot).trans hm.numContributors_eq,
        hslot ▸ hasDeadline_next hm.numContributors_eq⟩
  refine ⟨?_, ?_⟩
  · constructor
    · exact hdeadline.1
    · exact fun _ => hdeadline.2
    · exact fun now h => absurd (hthread.symm.trans h) nofun
    · exact fun h => absurd hthread (Thread.ne_idle_of_isAwaiting h)
    · exact fun given h => absurd (hthread.symm.trans h) nofun
    · exact .inl hthread
    · exact .inl htick
    · exact fun now h => absurd (htick.symm.trans h) nofun
  · rcases hslot with hslot | ⟨hslot, helapsed⟩
    · exact .inl (congrArg (fun c => c.state.nextContributorIndex) hslot)
    · exact .inr ⟨congrArg (fun c => c.state.nextContributorIndex) hslot, helapsed⟩

/-! ### One step -/

/-- The time that a step of the index is due to, if it is not due to a contribution. -/
def EndsAt (m : Machine T) (now : T) : Action T → Prop
  | .challenge time => time = now
  | .contribute time _ => time = now
  | .tickAdvance => m.tick = .ending now
  | _ => False

variable (E) in
/-- What a quiet step may do: it moves the index from that of the upload that was accepted to the
next, when the handler has found it valid, or by one after a full interval while no upload waits for
that. While one does, the handler is not told that all contributions are there. -/
structure IsFairStep (m : Machine T) (a : Action T) (m' : Machine T) : Prop where
  index_cases : m'.index = m.index ∨
    (a = .increment ∧ m.thread.IsAwaiting ∧ m'.index = m.acceptedIdx + 1) ∨
    (¬ m.thread.IsAwaiting ∧ m'.index = m.index + 1 ∧ ∃ now, EndsAt m now a ∧ HasElapsed E m now)
  increment : a = .increment → m.index = m.acceptedIdx ∧ m'.index = m.acceptedIdx + 1
  acceptedIdx_eq : m.thread.IsAwaiting → m'.acceptedIdx = m.acceptedIdx
  completions_eq : m.thread.IsAwaiting → m'.server.completions = m.server.completions

omit [Zero T] in
/-- A step that leaves the slot is fair. -/
theorem isFairStep_of_index_eq {a : Action T} (ha : a ≠ .increment) (hindex : m'.index = m.index)
    (haccepted : m'.acceptedIdx = m.acceptedIdx)
    (hcompletions : m.thread.IsAwaiting → m'.server.completions = m.server.completions) :
    IsFairStep E m a m' :=
  ⟨.inl hindex, fun h => absurd h ha, fun _ => haccepted, hcompletions⟩

/-- The thread goes on and leaves the slot. -/
theorem IsOrderly.setThread (hm : IsOrderly E m) (a : Action T) (thread : Thread T)
    (ha : a ≠ .increment) (hne : ∀ now, m.thread ≠ .incremented now) {srv : Server T}
    (hstate : srv.state = m.server.state)
    (hcompletions : m.thread.IsAwaiting → srv.completions = m.server.completions)
    (hne' : ∀ now, thread ≠ .incremented now)
    (hawaiting : thread.IsAwaiting → m.thread.IsAwaiting)
    (hgiven : ∀ given, thread = .handling given → given = m.acceptedIdx)
    (hprocessing : thread = .idle ∨ srv.processing = true) :
    IsOrderly E { m with server := srv, thread := thread } ∧
      IsFairStep E m a { m with server := srv, thread := thread } := by
  have hcourse : course { m with server := srv, thread := thread } = m.course :=
    congrArg (Course.mk · m.began) hstate
  have hindex : index { m with server := srv, thread := thread } = m.index :=
    congrArg ServerState.nextContributorIndex hstate
  refine ⟨?_, isFairStep_of_index_eq ha hindex rfl hcompletions⟩
  constructor
  · exact hstate ▸ hm.numContributors_eq
  · exact fun _ => hcourse ▸ hm.hasDeadline hne
  · exact fun now h => absurd h (hne' now)
  · exact fun h => hindex ▸ hm.index_eq (hawaiting h)
  · exact hgiven
  · exact hprocessing
  · exact hm.not_pending.imp_right fun hnot h =>
      hnot (Thread.isPending_of_isAwaiting (hawaiting (Thread.isAwaiting_of_isPending h hne')))
  · exact fun now h => hstate ▸ hm.deadline_le now h

/-- While a tick ends the slot, no contribution is pending. -/
theorem IsOrderly.of_tick (hm : IsOrderly E m) (htick : m.tick ≠ .idle) :
    ¬ m.thread.IsPending ∧ ¬ m.thread.IsAwaiting ∧ ∀ now, m.thread ≠ .incremented now := by
  have hpending := hm.not_pending.resolve_left htick
  refine ⟨hpending, fun h => hpending (Thread.isPending_of_isAwaiting h), fun now h => ?_⟩
  rw [h] at hpending
  exact hpending trivial

/-- A request is refused while the thread runs, and otherwise updates the slot. -/
theorem request_spec (hm : IsOrderly E m) (htick : m.tick = .idle)
    {callback : Server T → Server T × Except Exc Response}
    (hcallback : (callback m.server).1.state = m.server.state ∨
      (callback m.server).1.state = (m.server.state.update now E.contributionInterval).2)
    {a : Action T} (ha : EndsAt m now a) (hne : a ≠ .increment) :
    IsOrderly E (m.moved now (m.server.withStateLock callback).1) ∧
      IsFairStep E m a (m.moved now (m.server.withStateLock callback).1) := by
  rcases hm.processing with hidle | hprocessing
  · have hnot : ¬ m.thread.IsAwaiting := fun h => Thread.ne_idle_of_isAwaiting h hidle
    obtain ⟨horderly, hindex⟩ :=
      isOrderly_moved hm hidle htick (Server.state_withStateLock hcallback)
    refine ⟨horderly, ?_, fun h => absurd h hne, fun h => absurd h hnot, fun h => absurd h hnot⟩
    exact hindex.imp_right fun h => .inr ⟨hnot, h.1, now, ha, h.2⟩
  · have hlock : (m.server.withStateLock callback).1 = m.server := by
      rw [Server.withStateLock, if_pos hprocessing]
    have hmoved : m.moved now m.server = m := by
      rw [moved, if_pos (show m.server.state.nextContributorIndex = m.index from rfl)]
    rw [hlock, hmoved]
    exact ⟨hm, isFairStep_of_index_eq hne rfl rfl fun _ => rfl⟩

/-- A request to contribute. -/
theorem contribute_spec (hm : IsOrderly E m) {req : Request}
    (h : m.step E (.contribute now req) = some m') :
    IsOrderly E m' ∧ IsFairStep E m (.contribute now req) m' := by
  cases htick : m.tick with
  | idle =>
    simp only [step, htick, Option.some.injEq] at h
    have hspec := request_spec (a := .contribute now req) hm htick
      (Server.state_contribute m.server now req) rfl nofun
    by_cases haccepted : (m.server.withStateLock (Server.contribute E now req)).2 = accepted
    · -- the thread is launched for the slot after the update
      rw [if_pos haccepted] at h
      obtain rfl := h
      obtain ⟨hlock, hok, hprocessing⟩ := Server.withStateLock_eq_accepted haccepted
      obtain ⟨-, hrunning, hall, -⟩ := Server.contribute_eq_accepted hok
      obtain ⟨horderly, hfair⟩ := hspec
      have hidle : m.thread = .idle :=
        hm.processing.resolve_right (Bool.eq_false_iff.mp hprocessing)
      have hnot : ¬ m.thread.IsAwaiting := fun h => Thread.ne_idle_of_isAwaiting h hidle
      have hne (now' : T) : (m.moved now (m.server.withStateLock
          (Server.contribute E now req)).1).thread ≠ .incremented now' := by
        rw [moved, hidle]
        exact nofun
      refine ⟨?_, hfair.index_cases, hfair.increment, fun h => absurd h hnot,
        fun h => absurd h hnot⟩
      constructor
      · exact horderly.numContributors_eq
      · exact fun _ => horderly.hasDeadline hne
      · exact nofun
      · intro _
        refine ⟨rfl, ?_⟩
        rw [← horderly.numContributors_eq, index, moved]
        dsimp only
        rw [hlock]
        exact not_le.mp (of_decide_eq_false hall)
      · exact nofun
      · right
        rw [moved]
        dsimp only
        rw [hlock]
        exact hrunning
      · exact .inl htick
      · exact fun now' h => absurd (htick.symm.trans h) nofun
    · rw [if_neg haccepted] at h
      exact h ▸ hspec
  | _ => simp only [step, htick, reduceCtorEq] at h

/-- The steps of the timer. -/
theorem tick_spec (hm : IsOrderly E m) (hquiet : IsQuiet E m (.tick now))
    (h : m.step E (.tick now) = some m') : IsOrderly E m' ∧ IsFairStep E m (.tick now) m' := by
  obtain ⟨srv, thread, tick, began, acceptedIdx⟩ := m
  cases tick with
  | idle =>
    rw [step] at h
    split_ifs at h with hif
    · obtain rfl := Option.some.inj h
      exact ⟨hm, isFairStep_of_index_eq nofun rfl rfl fun _ => rfl⟩
    · obtain rfl := Option.some.inj h
      refine ⟨?_, isFairStep_of_index_eq nofun rfl rfl fun _ => rfl⟩
      have hended : (srv.state.update now E.contributionInterval).1 = true := by
        rw [ServerState.update, if_neg hif]
      rw [not_or, not_le, not_lt] at hif
      constructor
      · exact hm.numContributors_eq
      · exact hm.hasDeadline
      · exact hm.began_eq
      · exact hm.index_eq
      · exact hm.given_eq
      · exact hm.processing
      · exact .inr fun hpending =>
          Bool.false_ne_true ((hquiet now rfl hpending).symm.trans hended)
      · rintro _ ⟨⟩
        exact hif
  | _ => cases h

theorem tickAdvance_spec (hm : IsOrderly E m) (h : m.step E .tickAdvance = some m') :
    IsOrderly E m' ∧ IsFairStep E m .tickAdvance m' := by
  obtain ⟨srv, thread, tick, began, acceptedIdx⟩ := m
  cases tick with
  | ending now =>
    cases h
    obtain ⟨hpending, hnot, hne⟩ := hm.of_tick nofun
    obtain ⟨hpos, hle⟩ := hm.deadline_le now rfl
    have helapsed := ((hm.hasDeadline hne).hasElapsed hpos hle).2
    refine ⟨?_, .inr (.inr ⟨hnot, rfl, now, rfl, helapsed⟩), nofun, fun h => absurd h hnot,
      fun h => absurd h hnot⟩
    constructor
    · exact hm.numContributors_eq
    · intro _
      have hcourse := course_moved_next (E := E) ⟨srv, thread, .ending now, began, acceptedIdx⟩ now
        { srv with state := srv.state.nextContributor (now + E.contributionInterval) } rfl
      exact hcourse ▸ hasDeadline_next hm.numContributors_eq
    · exact fun time h => absurd h (hne time)
    · exact fun h => absurd h hnot
    · exact fun given h => hm.given_eq given h
    · exact hm.processing
    · exact .inr hpending
    · exact nofun
  | _ => cases h

theorem tickFinish_spec (hm : IsOrderly E m) (h : m.step E .tickFinish = some m') :
    IsOrderly E m' ∧ IsFairStep E m .tickFinish m' := by
  obtain ⟨srv, thread, tick, began, acceptedIdx⟩ := m
  cases tick with
  | ended =>
    cases h
    obtain ⟨-, hnot, hne⟩ := hm.of_tick nofun
    have hstate : (srv.onNextContributor E).1.state = srv.state := Server.state_onNextContributor srv
    refine ⟨?_, isFairStep_of_index_eq nofun (congrArg ServerState.nextContributorIndex hstate) rfl
      fun h => absurd h hnot⟩
    constructor
    · exact (congrArg ServerState.numContributors hstate).trans hm.numContributors_eq
    · intro _
      rw [course, hstate]
      exact hm.hasDeadline hne
    · exact fun time h => absurd h (hne time)
    · exact fun h => absurd h hnot
    · exact hm.given_eq
    · exact hm.processing.imp_right fun h => (Server.processing_onNextContributor srv).trans h
    · exact .inl rfl
    · exact nofun
  | _ => cases h

/-- The steps of the thread that leave the slot. -/
theorem thread_spec (hm : IsOrderly E m) {a : Action T}
    (ha : a = .start ∨ (∃ valid now, a = .handlerReturns valid now) ∨ a = .handlerRaises ∨
      a = .onNextContributor ∨ a = .finish) (h : m.step E a = some m') :
    IsOrderly E m' ∧ IsFairStep E m a m' := by
  obtain ⟨srv, thread, tick, began, acceptedIdx⟩ := m
  rcases ha with rfl | ⟨valid, now, rfl⟩ | rfl | rfl | rfl
  · cases thread with
    | launched =>
      cases h
      have hprocessing := hm.processing.resolve_left nofun
      refine hm.setThread .start (.handling _) nofun nofun rfl (fun _ => rfl) nofun
        (fun _ => trivial) ?_ (.inr hprocessing)
      rintro _ ⟨⟩
      exact (hm.index_eq trivial).1
    | _ => cases h
  · cases thread with
    | handling given =>
      cases h
      have hprocessing := hm.processing.resolve_left nofun
      cases valid with
      | true =>
        exact hm.setThread (.handlerReturns true now) (.reported now) nofun nofun rfl (fun _ => rfl)
          nofun (fun _ => trivial) nofun (.inr hprocessing)
      | false =>
        exact hm.setThread (.handlerReturns false now) .finishing nofun nofun rfl (fun _ => rfl)
          nofun (fun _ => trivial) nofun (.inr hprocessing)
    | _ => cases h
  · cases thread with
    | handling given =>
      cases h
      have hprocessing := hm.processing.resolve_left nofun
      exact hm.setThread .handlerRaises .finishing nofun nofun rfl (fun _ => rfl) nofun
        (fun _ => trivial) nofun (.inr hprocessing)
    | _ => cases h
  · cases thread with
    | received =>
      cases h
      have hprocessing := hm.processing.resolve_left nofun
      exact hm.setThread .onNextContributor .finishing nofun nofun
        (Server.state_onNextContributor srv) (fun h => h.elim) nofun (fun h => h.elim) nofun
        (.inr ((Server.processing_onNextContributor srv).trans hprocessing))
    | _ => cases h
  · cases thread with
    | finishing =>
      cases h
      have hstate : { srv with processing := false : Server T }.state = srv.state := rfl
      exact hm.setThread .finish .idle nofun nofun hstate (fun _ => rfl) nofun (fun h => h.elim) nofun
        (.inl rfl)
    | _ => cases h

/-- The index is moved on for the upload that was accepted. -/
theorem increment_spec (hm : IsOrderly E m) (h : m.step E .increment = some m') :
    IsOrderly E m' ∧ IsFairStep E m .increment m' := by
  obtain ⟨srv, thread, tick, began, acceptedIdx⟩ := m
  cases thread with
  | reported now =>
    obtain ⟨hindex, hlt⟩ := hm.index_eq trivial
    -- the slot is one of those there are, so the assertion holds
    have hall : srv.state.haveAllContributions = false :=
      decide_eq_false (not_le.mpr (hlt.trans_eq hm.numContributors_eq.symm))
    obtain rfl : tick = .idle := hm.not_pending.resolve_right fun hnot => hnot trivial
    simp only [step, hall, Bool.false_eq_true, if_false, Option.some.injEq] at h
    obtain rfl := h
    have hnext := congrArg (· + 1) hindex
    refine ⟨?_, .inr (.inl ⟨rfl, trivial, hnext⟩), fun _ => ⟨hindex, hnext⟩, fun _ => rfl,
      fun _ => rfl⟩
    constructor
    · exact hm.numContributors_eq
    · exact fun h => absurd rfl (h now)
    · rintro _ ⟨⟩
      exact ⟨Nat.succ_pos _, if_neg (Nat.succ_ne_self _)⟩
    · exact fun h => h.elim
    · rintro _ ⟨⟩
    · exact .inr (hm.processing.resolve_left (by rintro ⟨⟩))
    · exact .inl rfl
    · rintro _ ⟨⟩
  | _ => cases h

/-- The next slot gets its deadline. -/
theorem setDeadline_spec (hm : IsOrderly E m) (h : m.step E .setDeadline = some m') :
    IsOrderly E m' ∧ IsFairStep E m .setDeadline m' := by
  obtain ⟨srv, thread, tick, began, acceptedIdx⟩ := m
  cases thread with
  | incremented now =>
    obtain rfl : tick = .idle := hm.not_pending.resolve_right fun hnot => hnot trivial
    obtain ⟨hpos, hbegan⟩ := hm.began_eq now rfl
    cases h
    refine ⟨?_, isFairStep_of_index_eq nofun rfl rfl fun _ => rfl⟩
    have hall : srv.state.haveAllContributions = true ↔
        E.contributors.length ≤ srv.state.nextContributorIndex := by
      rw [← hm.numContributors_eq]
      exact decide_eq_true_iff
    constructor
    · exact hm.numContributors_eq
    · intro _
      constructor
      · exact fun hle => if_pos (hall.mpr hle)
      · exact fun hzero => absurd hzero hpos.ne'
      · exact fun _ hlt => ⟨now, hbegan, if_neg fun h => hlt.not_ge (hall.mp h)⟩
    · exact nofun
    · exact fun h => h.elim
    · exact nofun
    · exact .inr (hm.processing.resolve_left nofun)
    · exact .inl rfl
    · exact nofun
  | _ => cases h

/-- A request for the challenge. -/
theorem challenge_spec (hm : IsOrderly E m) (h : m.step E (.challenge now) = some m') :
    IsOrderly E m' ∧ IsFairStep E m (.challenge now) m' := by
  cases htick : m.tick with
  | idle =>
    simp only [step, htick, Option.some.injEq] at h
    exact h ▸ request_spec hm htick (.inr (Server.state_challenge m.server now)) rfl nofun
  | _ => simp only [step, htick, reduceCtorEq] at h

/-- **Quiet steps** keep the invariant and are fair. -/
theorem isOrderly_step (hm : IsOrderly E m) {a : Action T} (hquiet : IsQuiet E m a)
    (h : m.step E a = some m') : IsOrderly E m' ∧ IsFairStep E m a m' := by
  cases a with
  | challenge now => exact challenge_spec hm h
  | contribute now req => exact contribute_spec hm h
  | tick now => exact tick_spec hm hquiet h
  | tickAdvance => exact tickAdvance_spec hm h
  | tickFinish => exact tickFinish_spec hm h
  | start => exact thread_spec hm (.inl rfl) h
  | handlerReturns valid now => exact thread_spec hm (.inr (.inl ⟨valid, now, rfl⟩)) h
  | handlerRaises => exact thread_spec hm (.inr (.inr (.inl rfl))) h
  | increment => exact increment_spec hm h
  | setDeadline => exact setDeadline_spec hm h
  | onNextContributor => exact thread_spec hm (.inr (.inr (.inr (.inl rfl)))) h
  | finish => exact thread_spec hm (.inr (.inr (.inr (.inr rfl)))) h

/-! ### Runs -/

theorem isOrderly_start {srv : Server T} (hsrv : Server.init E = .ok srv) :
    IsOrderly E (start srv) := by
  obtain ⟨state, hstate, hsrv⟩ := Except.bind_eq_ok.mp hsrv
  obtain rfl := Except.ok.inj hsrv
  obtain ⟨hnum, rfl⟩ := initialServerState_eq_ok hstate
  constructor
  · rfl
  · refine fun _ => ⟨fun hle => absurd (Nat.le_zero.mp hle) hnum, fun _ => rfl, fun hpos => ?_⟩
    exact absurd hpos (lt_irrefl 0)
  · rintro _ ⟨⟩
  · exact fun h => h.elim
  · rintro _ ⟨⟩
  · exact .inl rfl
  · exact .inl rfl
  · rintro _ ⟨⟩

/-- The invariant holds along quiet steps. -/
theorem isOrderly_of_reaches (hm : IsOrderly E m) (h : Reaches E m m') : IsOrderly E m' := by
  induction h with
  | refl => exact hm
  | tail _ hstep ih =>
    obtain ⟨a, hquiet, hstep⟩ := hstep
    exact (isOrderly_step ih hquiet hstep).1

/-- **Slots are used one at a time.** Whatever requests, ticks and steps of the thread are
interleaved, as long as no tick finds that the deadline has passed while a contribution is pending:
from the acceptance of an upload until its slot is ended the index is the one it was accepted for,
and the handler is given this index. When the handler has found the contribution valid the index is
moved from it to the next. Otherwise the index is moved by one only after the slot has been current
for a full interval, and not while an upload waits for the end of its slot. While one does, the
handler is not told that all contributions are there. -/
theorem slots_one_at_a_time {srv : Server T} (hsrv : Server.init E = .ok srv)
    (hreaches : Reaches E (start srv) m) :
    (m.thread.IsAwaiting → m.index = m.acceptedIdx) ∧
    (∀ given, m.thread = .handling given → given = m.acceptedIdx) ∧
    ∀ a m', IsQuiet E m a → m.step E a = some m' → IsFairStep E m a m' := by
  have hm := isOrderly_of_reaches (isOrderly_start hsrv) hreaches
  refine ⟨fun h => (hm.index_eq h).1, hm.given_eq, fun a m' hquiet h => ?_⟩
  exact (isOrderly_step hm hquiet h).2

/-- Steps that are all quiet. -/
theorem reaches_of_run {actions : List (Action T)} (hrun : m.run E actions = some m')
    (hactions : ∀ a ∈ actions, ∀ now, a ≠ .tick now) : Reaches E m m' := by
  induction actions generalizing m with
  | nil =>
    obtain rfl := Option.some.inj hrun
    exact .refl
  | cons a actions ih =>
    obtain ⟨ha, hactions⟩ := List.forall_mem_cons.mp hactions
    obtain ⟨m₁, hstep, hrun⟩ := Option.bind_eq_some_iff.mp hrun
    exact .head ⟨a, fun now h => absurd h (ha now), hstep⟩ (ih hrun hactions)

/-- The machine after the first contributor's upload at time `105`. -/
def plainLaunched : Machine ℕ :=
  ⟨{ Session.plainServer with processing := true }, .launched, .idle, none, 0⟩

theorem step_contribute_plain :
    (start Session.plainServer).step Session.plainEnvironment
      (.contribute 105 (plainRequest [0])) = some plainLaunched := by
  have hlock := Server.withStateLock_of_ok rfl
    (Session.plainServer.contribute_of_judge (E := Session.plainEnvironment) 105
      (readHeaders_plainRequest rfl [0]) rfl rfl (judge_plainRequest rfl))
  simp only [step, start, hlock, if_true]
  rfl

/-- The first contributor's upload is found valid, and the index is moved to the second. -/
theorem slots_one_at_a_time_two :
    ∃ m m', Reaches Session.plainEnvironment (start Session.plainServer) m ∧
      m.step Session.plainEnvironment .increment = some m' ∧
      m.index = m.acceptedIdx ∧ m'.index = m.acceptedIdx + 1 := by
  have hrun : (start Session.plainServer).run Session.plainEnvironment
      [.contribute 105 (plainRequest [0]), .start, .handlerReturns true 107] =
        some { plainLaunched with thread := .reported 107 } := by
    simp only [run, step_contribute_plain]
    rfl
  have hreaches := reaches_of_run hrun (by simp)
  obtain ⟨-, -, hstep⟩ := slots_one_at_a_time Session.init_plainEnvironment hreaches
  have hfair := hstep .increment _ (fun now h => by cases h) rfl
  exact ⟨_, _, hreaches, rfl, (hfair.increment rfl).1, (hfair.increment rfl).2⟩

/-- The upload of the first contributor is accepted at time `105`. A tick at time `111` ends the
slot while it is processed. The handler finds the upload valid at time `112`, and this ends the slot
of the second contributor, one unit of time after it has begun. -/
theorem tick_consumes_next_slot :
    ∃ m m', (start Session.plainServer).run Session.plainEnvironment
        [.contribute 105 (plainRequest [0]), .start, .tick 111, .tickAdvance, .tickFinish,
          .handlerReturns true 112] = some m ∧
      m.step Session.plainEnvironment .increment = some m' ∧
      m.acceptedIdx = 0 ∧ m.index = 1 ∧ m.began = some 111 ∧ m'.index = 2 ∧
      m'.server.state.haveAllContributions = true ∧
      ¬ IsFairStep Session.plainEnvironment m .increment m' := by
  have hrun : (start Session.plainServer).run Session.plainEnvironment
      [.contribute 105 (plainRequest [0]), .start, .tick 111, .tickAdvance, .tickFinish,
        .handlerReturns true 112] =
      some ⟨⟨⟨1, 2, 121, two_ne_zero⟩, true, false, some ⟨1, 2, 121, two_ne_zero⟩, 0⟩,
        .reported 112, .idle, some 111, 0⟩ := by
    simp only [run, step_contribute_plain]
    rfl
  refine ⟨_, _, hrun, rfl, rfl, rfl, rfl, rfl, rfl, fun hfair => ?_⟩
  exact absurd (hfair.increment rfl).1 Nat.one_ne_zero

end Machine

end Zeth.Coordinator
