import Zeth.Coordinator.Server

/-!
# Windows of the contributors

The server is followed through requests and updates that do not overlap: the contribution of a
request that is accepted has been processed before the next request or update. The record of such a
session has the times at which the slots have begun, and what has been accepted.

Nothing compares the time of a request with the configured start, so the first contributor is served
before it. For the rest, a slot is entered at the time of the update or of the contribution that
ends the one before it, and left when the deadline has passed. Times are numbers in which the
interval is not lost when it is added.

## Main definitions

* `Acceptance`, `Acceptance.IsFromContributor`, `Acceptance.IsInWindow`.
* `Event`, `Event.IsOnTime`: the first contributor does not send a contribution before the start.
* `Session`, `Session.step`, `Session.run`.

## Main results

* `Session.isInWindow_run`: the invariant of all sessions.
* `Session.accepted_in_window_iff`.
-/

namespace Zeth.Coordinator

open Python List

variable {T : Type} [LinearOrder T] [Zero T] [Add T] {K : Keys}

/-! ### Sessions -/

variable (T) in
/-- An upload that has been accepted, with the slot at that time. -/
structure Acceptance where
  time : T
  req : Request
  contributorIdx : ℕ
  /-- The time at which the slot has begun, none for the first one. -/
  began : Option T
  deadline : T

namespace Acceptance

/-- The key is that of the contributor, and the signature on the digest verifies under it. -/
def IsFromContributor (E : Environment T K) (a : Acceptance T) : Prop :=
  ∃ upload vk, readHeaders E.int a.req = .ok upload ∧ E.contributors[a.contributorIdx]? = some vk ∧
    exportVerificationKey K vk = upload.pubKeyStr ∧ verify K upload.sig vk upload.digest = true

/-- The time is in the window of the contributor. -/
def IsInWindow (E : Environment T K) (a : Acceptance T) : Prop :=
  (a.contributorIdx = 0 → E.startTimeUtc ≤ a.time) ∧
    (0 < a.contributorIdx → ∃ began, a.began = some began ∧ began ≤ a.time) ∧ a.time < a.deadline

end Acceptance

variable (T) in
/-- What happens to the server, with the times at which it reads the clock. -/
inductive Event where
  | update (now : T)
  /-- A request to contribute, and when the handler finds the contribution valid, if it does. -/
  | contribute (now : T) (req : Request) (verdict : Option T)

/-- The times of an event. -/
def Event.times : Event T → List T
  | update now => [now]
  | contribute now _ verdict => now :: verdict.toList

/-- The event is not a contribution that is sent before the start and that the server accepts from the
first contributor. -/
def Event.IsOnTime (E : Environment T K) : Event T → Prop
  | update _ => True
  | contribute now req _ => ∀ upload, readHeaders E.int req = .ok upload →
    judge K E.contributors 0 upload req = .ok accepted → E.startTimeUtc ≤ now

omit [Zero T] [Add T] in
theorem Event.isOnTime_of_le {E : Environment T K} {event : Event T}
    (h : ∀ time ∈ event.times, E.startTimeUtc ≤ time) : event.IsOnTime E := by
  cases event with
  | update now => trivial
  | contribute now req verdict => exact fun _ _ _ => h now mem_cons_self

variable (T) in
/-- The server, the time at which the slot has begun, and what has been accepted. -/
structure Session where
  server : Server T
  began : Option T
  acceptances : List (Acceptance T)

namespace Session

/-- The slot of a session. -/
def course (s : Session T) : Course T := ⟨s.server.state, s.began⟩

/-- The session after a change of the server. -/
def moved (s : Session T) (now : T) (srv : Server T) : Session T :=
  { s with
    server := srv
    began :=
      if srv.state.nextContributorIndex = s.server.state.nextContributorIndex then s.began
      else some now }

/-- An upload is accepted. -/
def accept (s : Session T) (now : T) (req : Request) : Session T :=
  { s with
    acceptances :=
      ⟨now, req, s.server.state.nextContributorIndex, s.began,
        s.server.state.nextContributorDeadline⟩ :: s.acceptances }

variable (E : Environment T K)

/-- `_process_contribution`. -/
def processContribution (s : Session T) : Option T → Session T
  | some now => s.moved now { (s.server.onContribution E now).1 with processing := false }
  | none => { s with server := { s.server with processing := false } }

/-- One more event. -/
def step (s : Session T) : Event T → Session T
  | .update now => s.moved now (s.server.updateState E now).1
  | .contribute now req verdict =>
    let result := s.server.withStateLock (Server.contribute E now req)
    if result.2 = accepted then
      ((s.moved now result.1).accept now req).processContribution E verdict
    else s.moved now result.1

/-- Events one after the other. -/
def run (s : Session T) (events : List (Event T)) : Session T := events.foldl (step E) s

/-- A session that begins. -/
def start (srv : Server T) : Session T := ⟨srv, none, []⟩

/-! ### What holds along a session -/

/-- The slot of a session is fair. -/
def IsFair (s : Session T) : Prop :=
  Course.IsFair E.contributionInterval E.contributors.length
    (E.startTimeUtc + E.contributionInterval) s.course

/-- The slot has begun before a given time, unless it is the first. -/
structure IsBefore (c : Course T) (time : T) : Prop where
  nonneg : 0 < c.state.nextContributorIndex → 0 ≤ time
  began_le : ∀ began, c.began = some began → began ≤ time

variable {E} {F : Floats T} {s : Session T} {now : T}

omit [Add T] in
theorem IsBefore.mono {c : Course T} {time : T} (h : IsBefore c now) (hle : now ≤ time) :
    IsBefore c time :=
  ⟨fun hpos => (h.nonneg hpos).trans hle, fun began hbegan => (h.began_le began hbegan).trans hle⟩

theorem isBefore_next {interval time : T} (c : Course T) (hnow : 0 ≤ now) (hle : now ≤ time) :
    IsBefore (c.next interval now) time := by
  refine ⟨fun _ => hnow.trans hle, ?_⟩
  rintro began hbegan
  obtain rfl : now = began := Option.some.inj hbegan
  exact hle

theorem course_moved_update {srv : Server T}
    (h : srv.state = (s.server.state.update now E.contributionInterval).2) :
    (s.moved now srv).course = Course.step F E.contributionInterval s.course (.update now) := by
  simp only [course, moved, h]
  rfl

omit [LinearOrder T] [Zero T] [Add T] in
theorem course_moved_of_state_eq {srv : Server T} (h : srv.state = s.server.state) :
    (s.moved now srv).course = s.course := by
  simp only [course, moved, h, if_true]

/-- A contribution that has been processed is a call on the state. -/
theorem course_moved_onContribution (s : Session T) (now : T) :
    (s.moved now { (s.server.onContribution E now).1 with processing := false }).course =
      Course.step F E.contributionInterval s.course (.receivedContribution now) := by
  rw [Course.step, Call.apply, Server.onContribution]
  simp only [show s.course.state = s.server.state from rfl]
  cases s.server.state.receivedContribution (now + E.contributionInterval) with
  | error e => exact course_moved_of_state_eq rfl
  | ok state =>
    simp only [course, moved, Server.state_onNextContributor]
    rfl

variable (F)

include F in
/-- After an update the slot is fair, and is the same while its window is open or begins with the
update. -/
theorem isFair_moved_update (hinterval : 0 < E.contributionInterval) (hs : s.IsFair E)
    (hbefore : IsBefore s.course now) {srv : Server T}
    (h : srv.state = (s.server.state.update now E.contributionInterval).2) :
    (s.moved now srv).IsFair E ∧ IsBefore (s.moved now srv).course now ∧
      (srv.state.haveAllContributions = false →
        now < srv.state.nextContributorDeadline ∨
          0 < srv.state.nextContributorIndex ∧ (s.moved now srv).began = some now) := by
  have hcourse := course_moved_update (F := F) h
  have hall : srv.state.haveAllContributions = false →
      srv.state.nextContributorIndex < srv.state.numContributors := fun hall =>
    not_le.mp (of_decide_eq_false hall)
  rcases Course.step_update_cases (F := F) hs now with ⟨hno, hstep⟩ | ⟨-, hlt, hdeadline, hstep⟩
  · rw [hstep] at hcourse
    have hstate : srv.state = s.server.state := congrArg Course.state hcourse
    rw [IsFair, hcourse]
    refine ⟨hs, hbefore, fun hcomplete => .inl ?_⟩
    -- the deadline is positive, so that the update would have ended the slot after it
    have hindex := hall hcomplete
    rw [hstate] at hindex ⊢
    have hpos : 0 < s.server.state.nextContributorDeadline :=
      hs.deadline_pos (hindex.trans_eq hs.numContributors_eq)
    by_contra hge
    have hended : (s.server.state.update now E.contributionInterval).1 = true := by
      rw [ServerState.update, if_neg (not_or.mpr ⟨not_le.mpr hpos, hge⟩)]
    exact Bool.false_ne_true (hno.symm.trans hended)
  · rw [hstep] at hcourse
    have hnow : 0 ≤ now := (hs.deadline_pos hlt).le.trans hdeadline
    rw [IsFair, hcourse]
    refine ⟨hs.next (F := F) hinterval hlt hnow, isBefore_next _ hnow le_rfl, fun _ => .inr ?_⟩
    have hindex : srv.state.nextContributorIndex = s.server.state.nextContributorIndex + 1 :=
      congrArg (fun c => c.state.nextContributorIndex) hcourse
    exact ⟨hindex.symm ▸ Nat.succ_pos _, congrArg Course.began hcourse⟩

include F in
/-- A contribution ends the slot, or leaves it. -/
theorem isFair_moved_onContribution (hinterval : 0 < E.contributionInterval) (hs : s.IsFair E)
    (hbefore : IsBefore s.course now) (hnow : 0 ≤ now) :
    (s.processContribution E (some now)).IsFair E ∧
      IsBefore (s.processContribution E (some now)).course now := by
  have hcourse := course_moved_onContribution (E := E) (F := F) s now
  rw [IsFair, processContribution, hcourse]
  refine ⟨Course.isFair_step hinterval hs fun time htime => ?_, ?_⟩
  · obtain rfl : now = time := Option.some.inj htime
    exact hnow
  · rcases Course.step_cases (F := F) hs (.receivedContribution now) with h | ⟨-, time, htime, h⟩
    · rwa [h]
    · obtain rfl : now = time := Option.some.inj htime
      rw [h]
      exact isBefore_next _ hnow le_rfl

/-- An upload that is accepted is in the window. -/
theorem isInWindow_accept {req : Request} (hs : s.IsFair E) (hbefore : IsBefore s.course now)
    (hlt : s.server.state.nextContributorIndex < E.contributors.length)
    (hdeadline : now < s.server.state.nextContributorDeadline ∨
      0 < s.server.state.nextContributorIndex ∧ s.began = some now)
    (hsum : now < now + E.contributionInterval)
    {upload : Upload} (hupload : readHeaders E.int req = .ok upload)
    (hjudge : judge K E.contributors s.server.state.nextContributorIndex upload req =
      .ok accepted)
    (hontime : s.server.state.nextContributorIndex = 0 → E.startTimeUtc ≤ now) :
    let a : Acceptance T := ⟨now, req, s.server.state.nextContributorIndex, s.began,
      s.server.state.nextContributorDeadline⟩
    a.IsFromContributor E ∧ a.IsInWindow E := by
  intro a
  obtain ⟨vk, hvk, hkey, hsig, -⟩ := judge_eq_accepted_iff.mp hjudge
  refine ⟨⟨upload, vk, hupload, hvk, hkey, hsig⟩, hontime, fun hpos => ?_, ?_⟩
  · obtain ⟨began, hbegan, -⟩ := hs.deadline_eq hpos hlt
    exact ⟨began, hbegan, hbefore.began_le began hbegan⟩
  · rcases hdeadline with h | ⟨hpos, hopened⟩
    · exact h
    · -- the window is opened with the request
      obtain ⟨began, hbegan, hdeadline⟩ := hs.deadline_eq hpos hlt
      obtain rfl : now = began := Option.some.inj (hopened.symm.trans hbegan)
      exact hsum.trans_eq hdeadline.symm

omit [LinearOrder T] in
theorem acceptances_processContribution (s : Session T) (verdict : Option T) :
    (s.processContribution E verdict).acceptances = s.acceptances := by
  cases verdict with
  | none => rfl
  | some now => rfl

theorem acceptances_subset_step (s : Session T) (event : Event T) :
    s.acceptances ⊆ (s.step E event).acceptances := by
  cases event with
  | update now => exact List.Subset.refl _
  | contribute now req verdict =>
    rw [step]
    split_ifs
    · rw [acceptances_processContribution]
      exact subset_cons_self _ _
    · exact List.Subset.refl _

theorem acceptances_subset_run (s : Session T) (events : List (Event T)) :
    s.acceptances ⊆ (s.run E events).acceptances := by
  induction events generalizing s with
  | nil => exact List.Subset.refl _
  | cons event events ih => exact List.Subset.trans (acceptances_subset_step s event) (ih _)

include F in
/-- One event keeps the slot fair and adds only uploads in their windows, if it is on time. -/
theorem isInWindow_step (hstart : 0 < E.startTimeUtc) (hinterval : 0 < E.contributionInterval)
    (hs : s.IsFair E) (hwindow : ∀ a ∈ s.acceptances, a.IsFromContributor E ∧ a.IsInWindow E)
    {event : Event T} (hbefore : ∀ time ∈ event.times, IsBefore s.course time)
    (hsorted : event.times.Pairwise (· ≤ ·))
    (hsum : ∀ time ∈ event.times, time < time + E.contributionInterval)
    (hontime : event.IsOnTime E) :
    (s.step E event).IsFair E ∧
      (∀ a ∈ (s.step E event).acceptances, a.IsFromContributor E ∧ a.IsInWindow E) ∧
      ∀ time, (∀ t ∈ event.times, t ≤ time) → IsBefore (s.step E event).course time := by
  cases event with
  | update now =>
    obtain ⟨hfair, hnow, -⟩ := isFair_moved_update F hinterval hs (hbefore now mem_cons_self)
      (Server.state_updateState (E := E) s.server now)
    exact ⟨hfair, hwindow, fun time htime => hnow.mono (htime now mem_cons_self)⟩
  | contribute now req verdict =>
    have hnow := hbefore now mem_cons_self
    rw [step]
    by_cases haccepted :
        (s.server.withStateLock (Server.contribute E now req)).2 = accepted
    · -- the upload is accepted after an update, and processed
      rw [if_pos haccepted]
      obtain ⟨hlock, hok, -⟩ := Server.withStateLock_eq_accepted haccepted
      obtain ⟨hstate, -, hall, upload, hupload, hjudge⟩ := Server.contribute_eq_accepted hok
      rw [hlock]
      dsimp only
      obtain ⟨hfair, hmoved, hdeadline⟩ := isFair_moved_update F hinterval hs hnow hstate
      have hlt := (not_le.mp (of_decide_eq_false hall)).trans_eq hfair.numContributors_eq
      have hstart_le (hzero : (s.server.contribute E now req).1.state.nextContributorIndex = 0) :
          E.startTimeUtc ≤ now := hontime upload hupload (hzero ▸ hjudge)
      have hwindow' : ∀ a ∈ ((s.moved now (s.server.contribute E now req).1).accept now
          req).acceptances, a.IsFromContributor E ∧ a.IsInWindow E :=
        forall_mem_cons.mpr ⟨isInWindow_accept hfair hmoved hlt (hdeadline hall)
          (hsum now mem_cons_self) hupload hjudge hstart_le, hwindow⟩
      cases verdict with
      | none =>
        exact ⟨hfair, hwindow', fun time htime => hmoved.mono (htime now mem_cons_self)⟩
      | some later =>
        have hle : now ≤ later :=
          (pairwise_cons.mp hsorted).1 later (mem_singleton.mpr rfl)
        have hnonneg : 0 ≤ now := by
          rcases Nat.eq_zero_or_pos
            (s.server.contribute E now req).1.state.nextContributorIndex with hzero | hpos
          · exact hstart.le.trans (hstart_le hzero)
          · exact hmoved.nonneg hpos
        have hbefore' : IsBefore
            ((s.moved now (s.server.contribute E now req).1).accept now req).course later :=
          hmoved.mono hle
        obtain ⟨hfair', hlater⟩ :=
          isFair_moved_onContribution F hinterval hfair hbefore' (hnonneg.trans hle)
        exact ⟨hfair', hwindow', fun time htime =>
          hlater.mono (htime later (mem_cons_of_mem _ (mem_singleton.mpr rfl)))⟩
    · rw [if_neg haccepted]
      rcases Server.state_withStateLock (Server.state_contribute s.server now req) with
        hstate | hstate
      · have hcourse : (s.moved now _).course = s.course := course_moved_of_state_eq hstate
        rw [IsFair, hcourse]
        exact ⟨hs, hwindow, fun time htime => hnow.mono (htime now mem_cons_self)⟩
      · obtain ⟨hfair, hmoved, -⟩ := isFair_moved_update F hinterval hs hnow hstate
        exact ⟨hfair, hwindow, fun time htime => hmoved.mono (htime now mem_cons_self)⟩

include F in
/-- All that is accepted in a session is in its window, if the events are on time. -/
theorem isInWindow_run (hstart : 0 < E.startTimeUtc) (hinterval : 0 < E.contributionInterval)
    {events : List (Event T)} (hs : s.IsFair E)
    (hwindow : ∀ a ∈ s.acceptances, a.IsFromContributor E ∧ a.IsInWindow E)
    (hbefore : ∀ time ∈ events.flatMap Event.times, IsBefore s.course time)
    (hsorted : (events.flatMap Event.times).Pairwise (· ≤ ·))
    (hsum : ∀ time ∈ events.flatMap Event.times, time < time + E.contributionInterval)
    (hontime : ∀ event ∈ events, event.IsOnTime E) :
    ∀ a ∈ (s.run E events).acceptances, a.IsFromContributor E ∧ a.IsInWindow E := by
  induction events generalizing s with
  | nil => exact hwindow
  | cons event events ih =>
    rw [flatMap_cons, pairwise_append] at hsorted
    rw [flatMap_cons, forall_mem_append] at hbefore hsum
    obtain ⟨hfirst, hrest⟩ := forall_mem_cons.mp hontime
    obtain ⟨hfair, hwindow', hlater⟩ :=
      isInWindow_step F hstart hinterval hs hwindow hbefore.1 hsorted.1 hsum.1 hfirst
    exact ih hfair hwindow' (fun time htime => hlater time fun t ht => hsorted.2.2 t ht time htime)
      hsorted.2.1 hsum.2 hrest

variable {F}

/-- The server of a session that begins. -/
theorem init_eq {srv : Server T} (hsrv : Server.init E = .ok srv) :
    ∃ hnum, srv.state = ⟨0, E.contributors.length, E.startTimeUtc + E.contributionInterval, hnum⟩ ∧
      srv.processing = false := by
  obtain ⟨state, hstate, hsrv⟩ := Except.bind_eq_ok.mp hsrv
  obtain rfl := Except.ok.inj hsrv
  obtain ⟨hnum, hstate⟩ := initialServerState_eq_ok hstate
  exact ⟨hnum, hstate, rfl⟩

/-- A session begins with the first slot. -/
theorem isFair_start (F : Floats T) (hstart : 0 < E.startTimeUtc)
    (hinterval : 0 < E.contributionInterval) {srv : Server T} (hsrv : Server.init E = .ok srv) :
    (start srv).IsFair E ∧ ∀ time, IsBefore (start srv).course time := by
  obtain ⟨hnum, hstate, -⟩ := init_eq hsrv
  simp only [IsFair, course, start, hstate]
  refine ⟨Course.isFair_start _ hnum (F.add_pos hstart.le hinterval), fun time => ⟨?_, ?_⟩⟩
  · exact fun h => absurd h (lt_irrefl 0)
  · exact fun began h => by cases h

/-- A request that is accepted is processed. -/
theorem step_contribute_of_judge (s : Session T) (now : T) {req : Request} {srv' : Server T}
    {upload : Upload} (hprocessing : s.server.processing = false)
    (hupload : readHeaders E.int req = .ok upload)
    (hupdate : s.server.updateState E now = (srv', .ok ()))
    (hall : srv'.state.haveAllContributions = false)
    (hjudge : judge K E.contributors srv'.state.nextContributorIndex upload req = .ok accepted)
    (verdict : Option T) :
    s.step E (.contribute now req verdict) =
      ((s.moved now { srv' with processing := true }).accept now req).processContribution E
        verdict := by
  have hcontribute := s.server.contribute_of_judge now hupload hupdate hall hjudge
  rw [step, Server.withStateLock_of_ok hprocessing hcontribute]
  exact if_pos rfl

/-- Before the first deadline an update leaves a new server alone. -/
theorem updateState_init {srv : Server T} (hsrv : Server.init E = .ok srv)
    (hnow : now < E.startTimeUtc + E.contributionInterval) :
    srv.updateState E now = (srv, .ok ()) := by
  obtain ⟨hnum, hstate, -⟩ := init_eq hsrv
  have hopen : srv.state.nextContributorDeadline ≤ 0 ∨
      now < srv.state.nextContributorDeadline := .inr (by rwa [hstate])
  rw [Server.updateState, ServerState.update, if_pos hopen]
  rfl

/-- Before the first deadline a request leaves a new server alone, or is accepted from the first
contributor. -/
theorem step_start_contribute {srv : Server T} (hsrv : Server.init E = .ok srv)
    (hnow : now < E.startTimeUtc + E.contributionInterval) (req : Request) (verdict : Option T) :
    (start srv).step E (.contribute now req verdict) = start srv ∧
        (Event.contribute now req verdict).IsOnTime E ∨
      ∃ a ∈ ((start srv).step E (.contribute now req verdict)).acceptances,
        a.contributorIdx = 0 ∧ a.time = now := by
  obtain ⟨hnum, hstate, hprocessing⟩ := init_eq hsrv
  have hupdate := updateState_init hsrv hnow
  have hall : srv.state.haveAllContributions = false := by
    rw [hstate]
    exact decide_eq_false fun h => hnum (Nat.le_zero.mp h)
  have hindex : srv.state.nextContributorIndex = 0 := by rw [hstate]
  by_cases hok : (srv.contribute E now req).2 = .ok accepted
  · obtain ⟨hsame, -, -, upload, hupload, hjudge⟩ := Server.contribute_eq_accepted hok
    rw [hsame, ← Server.state_updateState, hupdate] at hjudge
    rw [step_contribute_of_judge (start srv) now hprocessing hupload hupdate hall hjudge,
      acceptances_processContribution]
    exact .inr ⟨_, mem_cons_self, hindex, rfl⟩
  · have hsame : (srv.contribute E now req).1 = srv := by
      have h := Server.contribute_of_ne_accepted hok
      rwa [hupdate, or_self] at h
    have hlock : (srv.withStateLock (Server.contribute E now req)).1 = srv := by
      have h := srv.withStateLock_fst (Server.contribute E now req)
      rwa [hsame, or_self] at h
    have hne : (srv.withStateLock (Server.contribute E now req)).2 ≠ accepted := fun h =>
      hok (Server.withStateLock_eq_accepted h).2.1
    refine .inl ⟨?_, fun upload hupload hjudge => ?_⟩
    · rw [step, show (start srv).server = srv from rfl, hlock, if_neg hne]
      simp only [moved, start, if_true]
    · rw [← hindex] at hjudge
      exact absurd (congrArg Prod.snd (srv.contribute_of_judge now hupload hupdate hall hjudge)) hok

/-- If all that is accepted is in its window, the first contributor has sent nothing before the
start. -/
theorem isOnTime_of_isInWindow {srv : Server T} (hsrv : Server.init E = .ok srv)
    (hdeadline : E.startTimeUtc < E.startTimeUtc + E.contributionInterval) {events : List (Event T)}
    (hsorted : (events.flatMap Event.times).Pairwise (· ≤ ·))
    (hwindow : ∀ a ∈ ((start srv).run E events).acceptances, a.IsInWindow E) :
    ∀ event ∈ events, event.IsOnTime E := by
  induction events with
  | nil => exact forall_mem_nil _
  | cons event events ih =>
    rw [flatMap_cons, pairwise_append] at hsorted
    obtain ⟨-, hrest, hcross⟩ := hsorted
    -- until the start a new server stays as it is, and from the start on every event is on time
    have hearly (hstep : (start srv).step E event = start srv) :
        ∀ event' ∈ events, event'.IsOnTime E := by
      rw [run, foldl_cons, hstep] at hwindow
      exact ih hrest hwindow
    have hlate (now : T) (hnow : now ∈ event.times) (hle : E.startTimeUtc ≤ now) :
        ∀ event' ∈ events, event'.IsOnTime E := fun event' hmem =>
      Event.isOnTime_of_le fun time htime =>
        hle.trans (hcross now hnow time (mem_flatMap.mpr ⟨event', hmem, htime⟩))
    cases event with
    | update now =>
      refine forall_mem_cons.mpr ⟨trivial, ?_⟩
      rcases le_or_gt E.startTimeUtc now with hle | hlt
      · exact hlate now mem_cons_self hle
      · refine hearly ?_
        rw [step, show (start srv).server = srv from rfl,
          updateState_init hsrv (hlt.trans hdeadline)]
        simp only [moved, start, if_true]
    | contribute now req verdict =>
      rcases le_or_gt E.startTimeUtc now with hle | hlt
      · exact forall_mem_cons.mpr ⟨fun _ _ _ => hle, hlate now mem_cons_self hle⟩
      · rcases step_start_contribute hsrv (hlt.trans hdeadline) req verdict with
          ⟨hstep, hontime⟩ | ⟨a, ha, hidx, rfl⟩
        · exact forall_mem_cons.mpr ⟨hontime, hearly hstep⟩
        · have hle := (hwindow a (acceptances_subset_run _ events ha)).1 hidx
          exact absurd hlt (not_lt.mpr hle)

/-- **Contributions in their windows.** In a session without overlap, with times that do not
decrease and in which the interval is not lost, all uploads that are accepted are from the
contributor at the current index and in the window of that contributor, if and only if the first
contributor sends no contribution before the configured start. -/
theorem accepted_in_window_iff (F : Floats T) (hstart : 0 < E.startTimeUtc)
    (hinterval : 0 < E.contributionInterval) {srv : Server T} (hsrv : Server.init E = .ok srv)
    (events : List (Event T)) (hsorted : (events.flatMap Event.times).Pairwise (· ≤ ·))
    (hsum : ∀ time ∈ E.startTimeUtc :: events.flatMap Event.times,
      time < time + E.contributionInterval) :
    (∀ a ∈ (run E (start srv) events).acceptances, a.IsFromContributor E ∧ a.IsInWindow E) ↔
      ∀ event ∈ events, event.IsOnTime E := by
  obtain ⟨hfair, hbefore⟩ := isFair_start F hstart hinterval hsrv
  obtain ⟨hdeadline, hsum⟩ := forall_mem_cons.mp hsum
  constructor
  · exact fun hwindow => isOnTime_of_isInWindow hsrv hdeadline hsorted
      fun a ha => (hwindow a ha).2
  · exact isInWindow_run F hstart hinterval hfair (forall_mem_nil _)
      (fun time _ => hbefore time) hsorted hsum

/-! ### Two contributors -/

/-- Two contributors with the interval `10` from time `100` on. -/
def plainEnvironment : Environment ℕ plainKeys where
  contributors := [[0], [1]]
  startTimeUtc := 100
  contributionInterval := 10
  int _ := .ok 10
  currentChallenge _ := .ok ""
  onCompleted := .ok ()

/-- The server in the first slot. -/
def plainServer : Server ℕ :=
  ⟨⟨0, 2, 110, two_ne_zero⟩, false, false, some ⟨0, 2, 110, two_ne_zero⟩, 0⟩

theorem init_plainEnvironment : Server.init plainEnvironment = .ok plainServer := rfl

/-- A contribution at time `105`, which is valid at time `107`, and one in the second slot. -/
theorem accepted_in_window_two :
    let events :=
      [.contribute 105 (plainRequest [0]) (some 107), .contribute 110 (plainRequest [1]) none]
    (run plainEnvironment (start plainServer) events).acceptances.length = 2 ∧
      ∀ a ∈ (run plainEnvironment (start plainServer) events).acceptances,
        a.IsFromContributor plainEnvironment ∧ a.IsInWindow plainEnvironment := by
  intro events
  have hfirst := step_contribute_of_judge (E := plainEnvironment) (start plainServer) 105 rfl
    (readHeaders_plainRequest rfl [0]) rfl rfl (judge_plainRequest rfl) (some 107)
  have hsecond := step_contribute_of_judge (E := plainEnvironment)
    ((start plainServer).step plainEnvironment (.contribute 105 (plainRequest [0]) (some 107))) 110
    (by rw [hfirst]; rfl) (readHeaders_plainRequest rfl [1]) (by rw [hfirst]; rfl) rfl
    (judge_plainRequest rfl) none
  have hrun : (run plainEnvironment (start plainServer) events).acceptances =
      [⟨110, plainRequest [1], 1, some 107, 117⟩, ⟨105, plainRequest [0], 0, none, 110⟩] := by
    rw [run, foldl_cons, foldl_cons, foldl_nil, hsecond, hfirst]
    rfl
  refine ⟨by rw [hrun]; rfl, ?_⟩
  refine (accepted_in_window_iff Course.natFloats (by decide : 0 < plainEnvironment.startTimeUtc)
    (by decide) init_plainEnvironment events (by decide) fun time _ =>
    Nat.lt_add_of_pos_right (by decide)).mpr ?_
  have hlate : ∀ event ∈ events, ∀ time ∈ event.times, 100 ≤ time := by decide
  exact fun event hevent => Event.isOnTime_of_le (hlate event hevent)

/-- The first contributor is served at time `5`, before the start. -/
theorem accepted_before_start :
    Server.init plainEnvironment = .ok plainServer ∧
      ∃ a ∈ (run plainEnvironment (start plainServer)
          [.contribute 5 (plainRequest [0]) none]).acceptances,
        a.contributorIdx = 0 ∧ a.time < plainEnvironment.startTimeUtc ∧
          ¬ a.IsInWindow plainEnvironment := by
  have hstep := step_contribute_of_judge (E := plainEnvironment) (start plainServer) 5 rfl
    (readHeaders_plainRequest rfl [0]) rfl rfl (judge_plainRequest rfl) none
  refine ⟨init_plainEnvironment, ⟨5, plainRequest [0], 0, none, 110⟩, ?_, rfl, by decide, ?_⟩
  · rw [run, foldl_cons, foldl_nil, hstep]
    exact mem_cons_self
  · exact fun hwindow => absurd (hwindow.1 rfl) (by decide)

end Session

end Zeth.Coordinator
