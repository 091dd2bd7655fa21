import Mathlib.Logic.Function.Basic
import Mathlib.Logic.Relation
import Zeth.Coordinator.ServerState

/-!
# Restarts of the coordinator

The coordinator of the second phase keeps its state in several files. The tool that checks a
contribution appends it to the transcript and then writes the challenge that follows from it, which
the handler renames to the next challenge (`mpc/coordinator/phase2_contribution_handler.py`). The
server moves its index, lets the handler finish when all slots are used, and only then writes its
state (`mpc/coordinator/server.py`). The process may stop between any two of these, and is started
again with the same arguments.

The files of the handler and the state file that is read are in the working directory. The state
file that is written is in the directory given by `--path`. So a restart finds the state only if
these are the same. And it finds the files in order only if the process has not stopped between the
transcript and the next challenge, or between the index and the state file.

What the tool does with a contribution is a parameter. Uploads and the log are left out, as are
ticks during the processing of a contribution.

## Main definitions

* `Tool`, `Tool.IsChain`.
* `Files`, `Launch`, `Process`, `Process.boot`, `Process.step`.
* `Process.IsSafe`: where the process may stop.
* `Process.IsConsistent`: the invariant.

## Main results

* `Process.isConsistent_step`, `Process.isConsistent_boot`.
* `Process.restart_safe`.
-/

namespace Zeth.Coordinator

open Python

/-! ### The tool -/

/-- The commands of the tool on challenges, responses and the records of a transcript. -/
structure Tool where
  Challenge : Type
  Response : Type
  Record : Type
  /-- The check in `phase2-verify-contribution`. -/
  verifyContribution : Challenge → Response → Bool
  /-- What `phase2-verify-contribution` appends to the transcript. -/
  record : Response → Record
  /-- What `phase2-verify-contribution` writes as new challenge. -/
  newChallenge : Response → Challenge
  /-- `phase2-verify-transcript` -/
  verifyTranscript : Challenge → List Record → Challenge → Bool

namespace Tool

variable (tool : Tool)

/-- The challenge after some contributions. -/
def challengeAfter (challenge0 : tool.Challenge) (rs : List tool.Response) : tool.Challenge :=
  (rs.getLast?.map tool.newChallenge).getD challenge0

/-- Contributions each of which answers the challenge after those before it. -/
inductive IsChain (challenge0 : tool.Challenge) : List tool.Response → Prop
  | nil : IsChain challenge0 []
  | concat {rs : List tool.Response} {r : tool.Response} : IsChain challenge0 rs →
      tool.verifyContribution (tool.challengeAfter challenge0 rs) r = true →
        IsChain challenge0 (rs ++ [r])

/-- The transcript of contributions that have been verified one by one, from the given challenge,
verifies. The command demands that the first challenge is one that a ceremony starts with. -/
def AcceptsChains (challenge0 : tool.Challenge) : Prop :=
  ∀ rs, rs ≠ [] → tool.IsChain challenge0 rs →
    tool.verifyTranscript challenge0 (rs.map tool.record) (tool.challengeAfter challenge0 rs) = true

end Tool

/-! ### Files -/

variable {tool : Tool} {T L : Type}

variable (tool L) in
/-- The files, those of the handler by their names and the state files by where they are. -/
structure Files where
  stateFiles : L → Option ServerStateJson
  /-- `CHALLENGE_0_FILE` -/
  challenge0 : Option tool.Challenge
  /-- `NEXT_CHALLENGE_FILE` -/
  nextChallenge : Option tool.Challenge
  /-- `NEW_CHALLENGE_FILE` -/
  newChallenge : Option tool.Challenge
  /-- `TRANSCRIPT_FILE` -/
  transcript : Option (List tool.Record)
  /-- `FINAL_OUTPUT` -/
  finalOutput : Option tool.Challenge
  /-- `FINAL_TRANSCRIPT` -/
  finalTranscript : Option (List tool.Record)

namespace Files

/-- `Phase2ContributionHandler.__init__`. -/
def checkHandler (f : Files tool L) : Except Exc Unit :=
  if f.challenge0.isNone then .error (.exception "no challenge_0.bin found in server dir")
  else if f.nextChallenge.isNone && f.transcript.isSome then
    .error (.exception "unexpected transcript in server dir")
  else .ok ()

/-- The content of `get_current_challenge_file`. -/
def currentChallenge (f : Files tool L) (contributorIdx : ℕ) :
    Except Exc (Option tool.Challenge) :=
  if f.nextChallenge.isSome then
    if contributorIdx = 0 then
      .error (.exception "unexpected next_challenge.bin for 0-th contributor")
    else .ok f.nextChallenge
  else .ok f.challenge0

end Files

variable (T L) in
/-- How the process is launched: the configuration, the argument `--path`, and which file a name
stands for in the working directory. -/
structure Launch where
  startTimeUtc : T
  contributionInterval : T
  numContributors : ℕ
  path : String
  resolve : String → L

/-- `os.path.join`, of a name that is relative. -/
def join (path name : String) : String :=
  if path = "" ∨ path.toList.getLast? = some '/' then path ++ name else path ++ "/" ++ name

/-- `STATE_FILE`. -/
def stateFile : String := "server_state.json"

namespace Launch

/-- The state file that is looked for. -/
def readPath (launch : Launch T L) : L := launch.resolve stateFile

/-- `state_file_path`. -/
def stateFilePath (launch : Launch T L) : L := launch.resolve (join launch.path stateFile)

end Launch

/-! ### The process -/

variable (tool) in
/-- What the process is about to do with files. -/
inductive Phase where
  | idle
  /-- An upload has been accepted. -/
  | processing (r : tool.Response)
  /-- The tool has appended to the transcript. -/
  | appended (r : tool.Response)
  /-- The tool has written the new challenge. -/
  | written (r : tool.Response)
  /-- The handler has replaced the next challenge. -/
  | renamed
  /-- The index has been moved, and `_on_next_contributor` is called. -/
  | advancing
  /-- `on_completed` has verified the transcript. -/
  | finalizing
  /-- `on_completed` has renamed the challenge. -/
  | outputRenamed
  /-- The state is to be written. -/
  | saving
  /-- `on_completed` has raised an exception, so that the state is not written. -/
  | failed

variable (tool T L) in
/-- The files, the part of the server that changes, and all contributions that the tool has
recorded. -/
structure Process where
  files : Files tool L
  state : ServerState T
  handlerFinalized : Bool
  phase : Phase tool
  recorded : List tool.Response

variable (tool T) in
/-- What the process does. -/
inductive Operation where
  /-- An upload is accepted. -/
  | accept (r : tool.Response)
  /-- A slot is ended by `update`. -/
  | expire (now : T)
  /-- The tool checks a contribution and appends to the transcript. -/
  | append
  /-- The tool writes the new challenge. -/
  | write
  /-- The handler renames the new challenge. -/
  | rename
  /-- The server has a valid contribution. -/
  | receive (now : T)
  /-- `_finalize_handler_once`, up to the first change of a file. -/
  | complete
  | renameOutput
  | renameTranscript
  /-- `_write_state_file` -/
  | save

namespace Process

variable [LinearOrder T] [Zero T] [Add T] [DecidableEq L] (F : Floats T) (launch : Launch T L)

/-- `_write_state_file`. -/
def writeStateFile (state : ServerState T) (f : Files tool L) : Files tool L :=
  { f with stateFiles := Function.update f.stateFiles launch.stateFilePath (some (state.toJson F)) }

/-- The launch of the handler and of the server. -/
def boot (f : Files tool L) (recorded : List tool.Response) : Except Exc (Process tool T L) := do
  f.checkHandler
  match f.stateFiles launch.readPath with
  | some json =>
    let state ← ServerState.fromJson F json
    return ⟨f, state, state.haveAllContributions, .idle, recorded⟩
  | none =>
    let state ← initialServerState launch.startTimeUtc launch.contributionInterval
      launch.numContributors
    return ⟨writeStateFile F launch state f, state, state.haveAllContributions, .idle, recorded⟩

/-- One operation, if it is the next one. -/
def step (p : Process tool T L) : Operation tool T → Option (Process tool T L)
  | .accept r =>
    match p.phase with
    | .idle => if p.state.haveAllContributions then none else some { p with phase := .processing r }
    | _ => none
  | .expire now =>
    match p.phase with
    | .idle =>
      if (p.state.update now launch.contributionInterval).1 then
        some { p with
          state := (p.state.update now launch.contributionInterval).2, phase := .advancing }
      else none
    | _ => none
  | .append =>
    match p.phase with
    | .processing r =>
      match p.files.currentChallenge p.state.nextContributorIndex with
      | .ok (some challenge) =>
        if tool.verifyContribution challenge r then
          some { p with
            files := { p.files with
              transcript := some (p.files.transcript.getD [] ++ [tool.record r]) }
            phase := .appended r
            recorded := p.recorded ++ [r] }
        else some { p with phase := .idle }
      | _ => some { p with phase := .idle }
    | _ => none
  | .write =>
    match p.phase with
    | .appended r =>
      some { p with
        files := { p.files with newChallenge := some (tool.newChallenge r) }, phase := .written r }
    | _ => none
  | .rename =>
    match p.phase with
    | .written _ =>
      some { p with
        files := { p.files with nextChallenge := p.files.newChallenge, newChallenge := none }
        phase := .renamed }
    | _ => none
  | .receive now =>
    match p.phase with
    | .renamed =>
      match p.state.receivedContribution (now + launch.contributionInterval) with
      | .ok state => some { p with state := state, phase := .advancing }
      | .error _ => some { p with phase := .idle }
    | _ => none
  | .complete =>
    match p.phase with
    | .advancing =>
      if !p.handlerFinalized && p.state.haveAllContributions then
        match p.files.challenge0, p.files.nextChallenge, p.files.transcript with
        | some challenge0, some challenge, some transcript =>
          some { p with
            handlerFinalized := true
            phase :=
              if tool.verifyTranscript challenge0 transcript challenge then .finalizing
              else .failed }
        | _, _, _ => some { p with handlerFinalized := true, phase := .failed }
      else some { p with phase := .saving }
    | _ => none
  | .renameOutput =>
    match p.phase with
    | .finalizing =>
      some { p with
        files := { p.files with finalOutput := p.files.nextChallenge, nextChallenge := none }
        phase := .outputRenamed }
    | _ => none
  | .renameTranscript =>
    match p.phase with
    | .outputRenamed =>
      some { p with
        files := { p.files with finalTranscript := p.files.transcript, transcript := none }
        phase := .saving }
    | _ => none
  | .save =>
    match p.phase with
    | .saving => some { p with files := writeStateFile F launch p.state p.files, phase := .idle }
    | _ => none

/-- Operations one after the other. -/
def run (p : Process tool T L) : List (Operation tool T) → Option (Process tool T L)
  | [] => some p
  | op :: ops => (p.step F launch op).bind fun p => p.run ops

/-- Where the process may stop: before the tool has changed the transcript, or after the next
challenge has been replaced and before the index is moved, unless it is that of the first slot. -/
def IsSafe (p : Process tool T L) : Prop :=
  match p.phase with
  | .idle => True
  | .processing _ => True
  | .renamed => 0 < p.state.nextContributorIndex
  | _ => False

/-- An operation, or a stop where the process may stop and a restart. -/
inductive Step (p : Process tool T L) : Process tool T L → Prop
  | operation {op : Operation tool T} {p' : Process tool T L} :
      p.step F launch op = some p' → Step p p'
  | restart {p' : Process tool T L} :
      p.IsSafe → boot F launch p.files p.recorded = .ok p' → Step p p'

/-- What operations and restarts lead to. -/
def Reaches : Process tool T L → Process tool T L → Prop := Relation.ReflTransGen (Step F launch)

/-! ### The invariant -/

/-- The challenge that follows from some contributions, if there are any. -/
def nextFile (rs : List tool.Response) : Option tool.Challenge := rs.getLast?.map tool.newChallenge

/-- The transcript of some contributions, if there are any. -/
def transcriptFile (rs : List tool.Response) : Option (List tool.Record) :=
  if rs = [] then none else some (rs.map tool.record)

/-- The files during the ceremony. -/
structure IsOpen (f : Files tool L) (rs : List tool.Response) : Prop where
  nextChallenge_eq : f.nextChallenge = nextFile rs
  transcript_eq : f.transcript = transcriptFile rs

/-- The files after it. -/
structure IsComplete (challenge0 : tool.Challenge) (f : Files tool L) (rs : List tool.Response) :
    Prop where
  ne_nil : rs ≠ []
  nextChallenge_eq : f.nextChallenge = none
  transcript_eq : f.transcript = none
  finalOutput_eq : f.finalOutput = some (tool.challengeAfter challenge0 rs)
  finalTranscript_eq : f.finalTranscript = some (rs.map tool.record)

/-- The state file that is read holds the state. -/
def IsSaved (p : Process tool T L) : Prop :=
  p.files.stateFiles launch.readPath = some (p.state.toJson F)

/-- The ceremony goes on, and there are contributions only after the first slot. -/
structure IsOngoing (p : Process tool T L) : Prop where
  not_all : p.state.haveAllContributions = false
  handlerFinalized_eq : p.handlerFinalized = false
  isOpen : IsOpen p.files p.recorded
  index_pos : p.recorded ≠ [] → 0 < p.state.nextContributorIndex

/-- The ceremony goes on or is finished. -/
def IsSettled (challenge0 : tool.Challenge) (p : Process tool T L) : Prop :=
  IsOngoing p ∨ p.state.haveAllContributions = true ∧ p.handlerFinalized = true ∧
    IsComplete challenge0 p.files p.recorded

/-- The transcript has a contribution from which the next challenge does not follow yet. -/
structure IsAhead (p : Process tool T L) (r : tool.Response) : Prop where
  not_all : p.state.haveAllContributions = false
  handlerFinalized_eq : p.handlerFinalized = false
  getLast?_eq : p.recorded.getLast? = some r
  transcript_eq : p.files.transcript = transcriptFile p.recorded

/-- What holds in each phase. -/
def PhaseHolds (challenge0 : tool.Challenge) (p : Process tool T L) : Prop :=
  match p.phase with
  | .idle => IsSaved F launch p ∧ IsSettled challenge0 p
  | .processing _ => IsSaved F launch p ∧ IsOngoing p
  | .appended r => IsSaved F launch p ∧ IsAhead p r
  | .written r =>
    IsSaved F launch p ∧ IsAhead p r ∧ p.files.newChallenge = some (tool.newChallenge r)
  | .renamed =>
    IsSaved F launch p ∧ p.state.haveAllContributions = false ∧ p.handlerFinalized = false ∧
      IsOpen p.files p.recorded
  | .advancing =>
    p.handlerFinalized = false ∧ IsOpen p.files p.recorded ∧ 0 < p.state.nextContributorIndex
  | .finalizing =>
    p.handlerFinalized = true ∧ p.state.haveAllContributions = true ∧ p.recorded ≠ [] ∧
      IsOpen p.files p.recorded
  | .outputRenamed =>
    p.handlerFinalized = true ∧ p.state.haveAllContributions = true ∧ p.recorded ≠ [] ∧
      p.files.nextChallenge = none ∧
      p.files.finalOutput = some (tool.challengeAfter challenge0 p.recorded) ∧
      p.files.transcript = transcriptFile p.recorded
  | .saving => IsSettled challenge0 p
  | .failed => p.recorded = []

/-- What holds along a run. -/
structure IsConsistent (challenge0 : tool.Challenge) (p : Process tool T L) : Prop where
  challenge0_eq : p.files.challenge0 = some challenge0
  isChain : tool.IsChain challenge0 p.recorded
  deadline_eq : p.state.haveAllContributions = true → p.state.nextContributorDeadline = 0
  phaseHolds : PhaseHolds F launch challenge0 p

section

variable {F launch} {challenge0 : tool.Challenge} {p p' : Process tool T L}

variable (challenge0) in
theorem nextFile_eq_some {rs : List tool.Response} (h : rs ≠ []) :
    nextFile rs = some (tool.challengeAfter challenge0 rs) := by
  rw [nextFile, Tool.challengeAfter, List.getLast?_eq_some_getLast h]
  rfl

omit [LinearOrder T] [Zero T] [Add T] [DecidableEq L] in
/-- The challenge that is served follows from the contributions. -/
theorem currentChallenge_eq (h0 : p.files.challenge0 = some challenge0)
    (hopen : IsOpen p.files p.recorded)
    (hpos : p.recorded ≠ [] → 0 < p.state.nextContributorIndex) :
    p.files.currentChallenge p.state.nextContributorIndex =
      .ok (some (tool.challengeAfter challenge0 p.recorded)) := by
  rw [Files.currentChallenge, hopen.nextChallenge_eq]
  by_cases hnil : p.recorded = []
  · rw [hnil, h0]
    rfl
  · rw [nextFile_eq_some challenge0 hnil, Option.isSome_some, if_pos rfl,
      if_neg (hpos hnil).ne']

omit [LinearOrder T] [Add T] in
theorem haveAll_nextContributor {s : ServerState T} {deadline : T}
    (h : (s.nextContributor deadline).haveAllContributions = true) :
    (s.nextContributor deadline).nextContributorDeadline = 0 := if_pos (of_decide_eq_true h)

/-! ### Operations -/

section Operations

variable (hp : IsConsistent F launch challenge0 p)

include hp

theorem isConsistent_accept {r : tool.Response} (h : p.step F launch (.accept r) = some p') :
    IsConsistent F launch challenge0 p' := by
  obtain ⟨files, state, handlerFinalized, phase, recorded⟩ := p
  cases phase with
  | idle =>
    obtain ⟨h0, hchain, hdeadline, hsaved, hsettled⟩ := hp
    simp only [step] at h
    split_ifs at h with hall
    cases h
    refine ⟨h0, hchain, hdeadline, hsaved, ?_⟩
    rcases hsettled with hongoing | ⟨hcomplete, -⟩
    · exact ⟨hongoing.not_all, hongoing.handlerFinalized_eq, hongoing.isOpen, hongoing.index_pos⟩
    · exact absurd hcomplete hall
  | _ => cases h

theorem isConsistent_expire {now : T} (h : p.step F launch (.expire now) = some p') :
    IsConsistent F launch challenge0 p' := by
  obtain ⟨files, state, handlerFinalized, phase, recorded⟩ := p
  cases phase with
  | idle =>
    obtain ⟨h0, hchain, hdeadline, -, hsettled⟩ := hp
    simp only [step] at h
    split_ifs at h with hended
    cases h
    -- the deadline has passed, so there is one
    rw [ServerState.update] at hended ⊢
    split_ifs at hended ⊢ with hif
    refine ⟨h0, hchain, haveAll_nextContributor, ?_⟩
    rcases hsettled with hongoing | ⟨hcomplete, -⟩
    · exact ⟨hongoing.handlerFinalized_eq, hongoing.isOpen, Nat.succ_pos _⟩
    · exact absurd (.inl (hdeadline hcomplete).le) hif
  | _ => cases h

/-- A contribution that the tool has verified extends the chain. -/
theorem isConsistent_append (h : p.step F launch .append = some p') :
    IsConsistent F launch challenge0 p' := by
  obtain ⟨files, state, handlerFinalized, phase, recorded⟩ := p
  cases phase with
  | processing r =>
    obtain ⟨h0, hchain, hdeadline, hsaved, hongoing⟩ := hp
    have hcurrent := currentChallenge_eq h0 hongoing.isOpen hongoing.index_pos
    simp only [step, hcurrent] at h
    split_ifs at h with hverify
    · cases h
      refine ⟨h0, .concat hchain hverify, hdeadline, hsaved, hongoing.not_all,
        hongoing.handlerFinalized_eq, List.getLast?_concat, ?_⟩
      have hrecords : files.transcript.getD [] = recorded.map tool.record := by
        rw [hongoing.isOpen.transcript_eq, transcriptFile]
        split_ifs with hnil
        · exact (congrArg (List.map tool.record) hnil).symm
        · rfl
      have hne : recorded ++ [r] ≠ [] :=
        List.append_ne_nil_of_right_ne_nil _ (List.cons_ne_nil _ _)
      rw [hrecords, transcriptFile, if_neg hne, List.map_append]
      rfl
    · cases h
      exact ⟨h0, hchain, hdeadline, hsaved, .inl ⟨hongoing.not_all,
        hongoing.handlerFinalized_eq, hongoing.isOpen, hongoing.index_pos⟩⟩
  | _ => cases h

theorem isConsistent_write (h : p.step F launch .write = some p') :
    IsConsistent F launch challenge0 p' := by
  obtain ⟨files, state, handlerFinalized, phase, recorded⟩ := p
  cases phase with
  | appended r =>
    obtain ⟨h0, hchain, hdeadline, hsaved, hahead⟩ := hp
    cases h
    exact ⟨h0, hchain, hdeadline, hsaved, ⟨hahead.not_all, hahead.handlerFinalized_eq,
      hahead.getLast?_eq, hahead.transcript_eq⟩, rfl⟩
  | _ => cases h

theorem isConsistent_rename (h : p.step F launch .rename = some p') :
    IsConsistent F launch challenge0 p' := by
  obtain ⟨files, state, handlerFinalized, phase, recorded⟩ := p
  cases phase with
  | written r =>
    obtain ⟨h0, hchain, hdeadline, hsaved, hahead, hnew⟩ := hp
    cases h
    have hnext : files.newChallenge = nextFile recorded := by
      rw [hnew, nextFile, hahead.getLast?_eq]
      rfl
    exact ⟨h0, hchain, hdeadline, hsaved, hahead.not_all, hahead.handlerFinalized_eq, hnext,
      hahead.transcript_eq⟩
  | _ => cases h

theorem isConsistent_receive {now : T} (h : p.step F launch (.receive now) = some p') :
    IsConsistent F launch challenge0 p' := by
  obtain ⟨files, state, handlerFinalized, phase, recorded⟩ := p
  cases phase with
  | renamed =>
    obtain ⟨h0, hchain, -, -, hall, hfinalized, hopen⟩ := hp
    simp only [step, ServerState.receivedContribution, hall, Bool.not_false, assert_true,
      Except.ok_bind] at h
    cases h
    exact ⟨h0, hchain, haveAll_nextContributor, hfinalized, hopen, Nat.succ_pos _⟩
  | _ => cases h

/-- The handler finishes when all slots are used, if there has been a contribution. -/
theorem isConsistent_complete (htool : tool.AcceptsChains challenge0)
    (h : p.step F launch .complete = some p') : IsConsistent F launch challenge0 p' := by
  obtain ⟨files, state, handlerFinalized, phase, recorded⟩ := p
  cases phase with
  | advancing =>
    obtain ⟨h0, hchain, hdeadline, hfinalized, hopen, hpos⟩ := hp
    dsimp only at h0 hchain hfinalized hopen
    cases hall : state.haveAllContributions with
    | false =>
      simp only [step, hall, Bool.and_false, Bool.false_eq_true, if_false] at h
      cases h
      exact ⟨h0, hchain, hdeadline, .inl ⟨hall, hfinalized, hopen, fun _ => hpos⟩⟩
    | true =>
      by_cases hnil : recorded = []
      · have hnext : files.nextChallenge = none := by
          rw [hopen.nextChallenge_eq, hnil]
          rfl
        simp only [step, hall, hfinalized, hnext, h0, Bool.not_false, Bool.and_self,
          if_true] at h
        cases h
        exact ⟨h0, hchain, hdeadline, hnil⟩
      · have hnext := hopen.nextChallenge_eq.trans (nextFile_eq_some challenge0 hnil)
        have htranscript := hopen.transcript_eq.trans (if_neg hnil)
        simp only [step, hall, hfinalized, hnext, htranscript, h0, Bool.not_false,
          Bool.and_self, if_true, htool recorded hnil hchain] at h
        cases h
        exact ⟨h0, hchain, hdeadline, rfl, hall, hnil, hopen.nextChallenge_eq,
          hopen.transcript_eq⟩
  | _ => cases h

theorem isConsistent_renameOutput (h : p.step F launch .renameOutput = some p') :
    IsConsistent F launch challenge0 p' := by
  obtain ⟨files, state, handlerFinalized, phase, recorded⟩ := p
  cases phase with
  | finalizing =>
    obtain ⟨h0, hchain, hdeadline, hfinalized, hall, hnil, hopen⟩ := hp
    cases h
    exact ⟨h0, hchain, hdeadline, hfinalized, hall, hnil, rfl,
      hopen.nextChallenge_eq.trans (nextFile_eq_some challenge0 hnil), hopen.transcript_eq⟩
  | _ => cases h

theorem isConsistent_renameTranscript (h : p.step F launch .renameTranscript = some p') :
    IsConsistent F launch challenge0 p' := by
  obtain ⟨files, state, handlerFinalized, phase, recorded⟩ := p
  cases phase with
  | outputRenamed =>
    obtain ⟨h0, hchain, hdeadline, hfinalized, hall, hnil, hnext, houtput, htranscript⟩ := hp
    cases h
    exact ⟨h0, hchain, hdeadline, .inr ⟨hall, hfinalized, hnil, hnext, rfl, houtput,
      htranscript.trans (if_neg hnil)⟩⟩
  | _ => cases h

/-- The state is written where it is read. -/
theorem isConsistent_save (hpath : launch.stateFilePath = launch.readPath)
    (h : p.step F launch .save = some p') : IsConsistent F launch challenge0 p' := by
  obtain ⟨files, state, handlerFinalized, phase, recorded⟩ := p
  cases phase with
  | saving =>
    obtain ⟨h0, hchain, hdeadline, hsettled⟩ := hp
    cases h
    refine ⟨h0, hchain, hdeadline, ?_, ?_⟩
    · rw [IsSaved, writeStateFile, hpath]
      exact Function.update_self _ _ _
    · rcases hsettled with hongoing | ⟨hall, hfinalized, hcomplete⟩
      · exact .inl ⟨hongoing.not_all, hongoing.handlerFinalized_eq,
          ⟨hongoing.isOpen.nextChallenge_eq, hongoing.isOpen.transcript_eq⟩, hongoing.index_pos⟩
      · exact .inr ⟨hall, hfinalized, hcomplete.ne_nil, hcomplete.nextChallenge_eq,
          hcomplete.transcript_eq, hcomplete.finalOutput_eq, hcomplete.finalTranscript_eq⟩
  | _ => cases h

end Operations

/-- Every operation keeps the files consistent. -/
theorem isConsistent_step (htool : tool.AcceptsChains challenge0)
    (hpath : launch.stateFilePath = launch.readPath) (hp : IsConsistent F launch challenge0 p)
    {op : Operation tool T} (h : p.step F launch op = some p') :
    IsConsistent F launch challenge0 p' := by
  cases op with
  | accept r => exact isConsistent_accept hp h
  | expire now => exact isConsistent_expire hp h
  | append => exact isConsistent_append hp h
  | write => exact isConsistent_write hp h
  | rename => exact isConsistent_rename hp h
  | receive now => exact isConsistent_receive hp h
  | complete => exact isConsistent_complete hp htool h
  | renameOutput => exact isConsistent_renameOutput hp h
  | renameTranscript => exact isConsistent_renameTranscript hp h
  | save => exact isConsistent_save hp hpath h

/-! ### Restarts -/

omit [DecidableEq L] in
theorem checkHandler_of_isOpen {f : Files tool L} {rs : List tool.Response}
    (h0 : f.challenge0 = some challenge0) (hopen : IsOpen f rs) : f.checkHandler = .ok () := by
  rw [Files.checkHandler, h0, Option.isNone_some, if_neg Bool.false_ne_true,
    hopen.nextChallenge_eq, hopen.transcript_eq]
  by_cases hnil : rs = []
  · rw [hnil]
    rfl
  · rw [nextFile_eq_some challenge0 hnil]
    rfl

omit [DecidableEq L] in
theorem checkHandler_of_isComplete {f : Files tool L} {rs : List tool.Response}
    (h0 : f.challenge0 = some challenge0) (hcomplete : IsComplete challenge0 f rs) :
    f.checkHandler = .ok () := by
  rw [Files.checkHandler, h0, hcomplete.nextChallenge_eq, hcomplete.transcript_eq]
  rfl

omit [DecidableEq L] in
/-- Where the process may stop, the state is saved and the files are settled. -/
theorem IsConsistent.of_isSafe (hp : IsConsistent F launch challenge0 p) (hsafe : p.IsSafe) :
    IsSaved F launch p ∧
      IsSettled challenge0 { p with handlerFinalized := p.state.haveAllContributions } := by
  obtain ⟨files, state, handlerFinalized, phase, recorded⟩ := p
  obtain ⟨-, -, -, hholds⟩ := hp
  cases phase with
  | idle =>
    refine ⟨hholds.1, hholds.2.imp (fun h => ?_) fun h => ⟨h.1, h.1, h.2.2⟩⟩
    exact ⟨h.not_all, h.not_all, h.isOpen, h.index_pos⟩
  | processing r =>
    obtain ⟨hsaved, h⟩ := hholds
    exact ⟨hsaved, .inl ⟨h.not_all, h.not_all, h.isOpen, h.index_pos⟩⟩
  | renamed =>
    obtain ⟨hsaved, hall, -, hopen⟩ := hholds
    exact ⟨hsaved, .inl ⟨hall, hall, hopen, fun _ => hsafe⟩⟩
  | _ => exact hsafe.elim

/-- A process that has stopped there can be started again, and goes on where it was. -/
theorem isConsistent_boot (hp : IsConsistent F launch challenge0 p) (hsafe : p.IsSafe) :
    boot F launch p.files p.recorded =
        .ok ⟨p.files, p.state, p.state.haveAllContributions, .idle, p.recorded⟩ ∧
      IsConsistent F launch challenge0
        ⟨p.files, p.state, p.state.haveAllContributions, .idle, p.recorded⟩ := by
  obtain ⟨hsaved, hsettled⟩ := hp.of_isSafe hsafe
  have hcheck : p.files.checkHandler = .ok () := by
    rcases hsettled with hongoing | ⟨-, -, hcomplete⟩
    · exact checkHandler_of_isOpen hp.challenge0_eq hongoing.isOpen
    · exact checkHandler_of_isComplete hp.challenge0_eq hcomplete
  refine ⟨?_, hp.challenge0_eq, hp.isChain, hp.deadline_eq, hsaved, ?_⟩
  · rw [IsSaved] at hsaved
    simp only [boot, hcheck, hsaved, Except.ok_bind, ServerState.fromJson_toJson]
    rfl
  · exact hsettled.imp (fun h => ⟨h.not_all, h.handlerFinalized_eq, h.isOpen, h.index_pos⟩) id

/-- Operations and restarts keep the files consistent. -/
theorem isConsistent_of_reaches (htool : tool.AcceptsChains challenge0)
    (hpath : launch.stateFilePath = launch.readPath) (hp : IsConsistent F launch challenge0 p)
    (h : Reaches F launch p p') : IsConsistent F launch challenge0 p' := by
  induction h with
  | refl => exact hp
  | tail _ hstep ih =>
    cases hstep with
    | operation hstep => exact isConsistent_step htool hpath ih hstep
    | restart hsafe hboot =>
      obtain ⟨hboot', hconsistent⟩ := isConsistent_boot ih hsafe
      rw [hboot'] at hboot
      obtain rfl := Except.ok.inj hboot
      exact hconsistent

variable (launch) in
/-- The files before the ceremony. -/
structure IsFresh (challenge0 : tool.Challenge) (f : Files tool L) : Prop where
  challenge0_eq : f.challenge0 = some challenge0
  nextChallenge_eq : f.nextChallenge = none
  transcript_eq : f.transcript = none
  stateFile_eq : f.stateFiles launch.readPath = none

/-- The first launch. -/
theorem isConsistent_of_isFresh (hpath : launch.stateFilePath = launch.readPath)
    {f : Files tool L} (hf : IsFresh launch challenge0 f) (hboot : boot F launch f [] = .ok p) :
    IsConsistent F launch challenge0 p := by
  obtain ⟨-, -, hboot⟩ := Except.bind_eq_ok.mp hboot
  simp only [hf.stateFile_eq] at hboot
  obtain ⟨state, hstate, hboot⟩ := Except.bind_eq_ok.mp hboot
  obtain rfl := Except.ok.inj hboot
  obtain ⟨hnum, rfl⟩ := initialServerState_eq_ok hstate
  have hall : (⟨0, launch.numContributors, launch.startTimeUtc + launch.contributionInterval,
      hnum⟩ : ServerState T).haveAllContributions = false :=
    decide_eq_false fun h => hnum (Nat.le_zero.mp h)
  refine ⟨hf.challenge0_eq, .nil, fun h => ?_, ?_, .inl ⟨hall, hall, ⟨?_, ?_⟩, ?_⟩⟩
  · exact absurd (h.symm.trans hall) nofun
  · rw [IsSaved, writeStateFile, hpath]
    exact Function.update_self _ _ _
  · exact hf.nextChallenge_eq
  · exact hf.transcript_eq
  · exact fun h => absurd rfl h

/-! ### The end of the ceremony -/

variable (F launch challenge0) in
/-- The operations that are left end with the final files of all contributions. -/
def Finishes (p : Process tool T L) : Prop :=
  ∃ ops p', p.run F launch ops = some p' ∧ p'.phase = .idle ∧ p'.recorded = p.recorded ∧
    IsComplete challenge0 p'.files p'.recorded

theorem Finishes.of_step (hp' : Finishes F launch challenge0 p') (op : Operation tool T)
    (h : p.step F launch op = some p') (hrecorded : p'.recorded = p.recorded) :
    Finishes F launch challenge0 p := by
  obtain ⟨ops, p'', hrun, hphase, hrecorded', hcomplete⟩ := hp'
  refine ⟨op :: ops, p'', ?_, hphase, hrecorded'.trans hrecorded, hcomplete⟩
  rw [run, h, Option.bind_some, hrun]

section Finishes

variable (hp : IsConsistent F launch challenge0 p)
  (hall : p.state.haveAllContributions = true)

include hp hall

theorem finishes_saving (hphase : p.phase = .saving) : Finishes F launch challenge0 p := by
  obtain ⟨files, state, handlerFinalized, phase, recorded⟩ := p
  cases hphase
  obtain ⟨-, -, -, hongoing | ⟨-, -, hcomplete⟩⟩ := hp
  · exact absurd (hongoing.not_all.symm.trans hall) nofun
  · exact ⟨[.save], _, rfl, rfl, rfl, hcomplete.ne_nil, hcomplete.nextChallenge_eq,
      hcomplete.transcript_eq, hcomplete.finalOutput_eq, hcomplete.finalTranscript_eq⟩

theorem finishes_outputRenamed (hphase : p.phase = .outputRenamed) :
    Finishes F launch challenge0 p := by
  obtain ⟨files, state, handlerFinalized, phase, recorded⟩ := p
  cases hphase
  have hp' := isConsistent_renameTranscript hp rfl
  exact (finishes_saving hp' hall rfl).of_step .renameTranscript rfl rfl

theorem finishes_finalizing (hphase : p.phase = .finalizing) : Finishes F launch challenge0 p := by
  obtain ⟨files, state, handlerFinalized, phase, recorded⟩ := p
  cases hphase
  have hp' := isConsistent_renameOutput hp rfl
  exact (finishes_outputRenamed hp' hall rfl).of_step .renameOutput rfl rfl

theorem finishes_advancing (htool : tool.AcceptsChains challenge0) (hphase : p.phase = .advancing)
    (hne : p.recorded ≠ []) : Finishes F launch challenge0 p := by
  have hholds := hp.phaseHolds
  simp only [PhaseHolds, hphase] at hholds
  obtain ⟨hfinalized, hopen, -⟩ := hholds
  have hnext := hopen.nextChallenge_eq.trans (nextFile_eq_some challenge0 hne)
  have htranscript := hopen.transcript_eq.trans (if_neg hne)
  have hstep : p.step F launch .complete =
      some { p with handlerFinalized := true, phase := .finalizing } := by
    simp only [step, hphase, hall, hfinalized, hnext, htranscript, hp.challenge0_eq,
      Bool.not_false, Bool.and_self, if_true, htool p.recorded hne hp.isChain]
  exact (finishes_finalizing (isConsistent_complete hp htool hstep) hall rfl).of_step _ hstep rfl

/-- When all slots are used and there has been a contribution, the ceremony finishes. -/
theorem IsConsistent.finishes (htool : tool.AcceptsChains challenge0) (hne : p.recorded ≠ []) :
    Finishes F launch challenge0 p := by
  have hnot {q : Prop} (h : p.state.haveAllContributions = false) : q :=
    absurd (h.symm.trans hall) nofun
  have hholds := hp.phaseHolds
  cases hphase : p.phase <;> simp only [PhaseHolds, hphase] at hholds
  case idle =>
    rcases hholds.2 with hongoing | ⟨-, -, hcomplete⟩
    · exact hnot hongoing.not_all
    · exact ⟨[], p, rfl, hphase, rfl, hcomplete⟩
  case processing => exact hnot hholds.2.not_all
  case appended => exact hnot hholds.2.not_all
  case written => exact hnot hholds.2.1.not_all
  case renamed => exact hnot hholds.2.1
  case advancing => exact finishes_advancing hp hall htool hphase hne
  case finalizing => exact finishes_finalizing hp hall hphase
  case outputRenamed => exact finishes_outputRenamed hp hall hphase
  case saving => exact finishes_saving hp hall hphase
  case failed => exact absurd hholds hne

end Finishes

/-- **Restarts are safe** if `--path` is the working directory and the process stops where it may.
It starts again with the same slot. While there are slots left it serves the challenge that follows
from all contributions in the transcript. And whenever all slots are used later on and there has
been a contribution, the operations that are left end with the final files of all contributions. -/
theorem restart_safe (htool : tool.AcceptsChains challenge0)
    (hpath : launch.stateFilePath = launch.readPath) {f : Files tool L}
    (hf : IsFresh launch challenge0 f) {p₀ : Process tool T L}
    (hboot : boot F launch f [] = .ok p₀) (hreaches : Reaches F launch p₀ p) (hsafe : p.IsSafe) :
    ∃ p', boot F launch p.files p.recorded = .ok p' ∧ p'.state = p.state ∧
      (p.state.haveAllContributions = false →
        p'.files.currentChallenge p'.state.nextContributorIndex =
            .ok (some (tool.challengeAfter challenge0 p.recorded)) ∧
          p'.files.transcript = transcriptFile p.recorded ∧ tool.IsChain challenge0 p.recorded) ∧
      ∀ p'', Reaches F launch p' p'' → p''.state.haveAllContributions = true →
        p''.recorded ≠ [] → Finishes F launch challenge0 p'' := by
  have hp := isConsistent_of_reaches htool hpath (isConsistent_of_isFresh hpath hf hboot) hreaches
  obtain ⟨hboot', hp'⟩ := isConsistent_boot hp hsafe
  refine ⟨_, hboot', rfl, fun hall => ?_, fun p'' hreaches' hall hne => ?_⟩
  · rcases (hp.of_isSafe hsafe).2 with hongoing | ⟨hcomplete, -⟩
    · exact ⟨currentChallenge_eq hp.challenge0_eq hongoing.isOpen hongoing.index_pos,
        hongoing.isOpen.transcript_eq, hp.isChain⟩
    · exact absurd (hall.symm.trans hcomplete) nofun
  · exact (isConsistent_of_reaches htool hpath hp' hreaches').finishes hall htool hne

end

/-! ### Two slots -/

/-- Responses are numbers and follow the challenge by one. A ceremony starts with `0`. -/
def countTool : Tool where
  Challenge := ℕ
  Response := ℕ
  Record := ℕ
  verifyContribution challenge r := r = challenge + 1
  record r := r
  newChallenge r := r
  verifyTranscript challenge0 transcript final :=
    challenge0 = 0 ∧ transcript.getLast?.getD challenge0 = final

theorem acceptsChains_countTool : countTool.AcceptsChains (0 : ℕ) := by
  intro (rs : List ℕ) _ _
  change decide ((0 : ℕ) = 0 ∧ (List.map (fun r : ℕ => r) rs).getLast?.getD 0 =
    (rs.getLast?.map fun r : ℕ => r).getD 0) = true
  rw [List.getLast?_map]
  exact decide_eq_true ⟨rfl, rfl⟩

/-- The files before a ceremony that starts with the challenge `0`. -/
def countFiles : Files countTool String :=
  ⟨fun _ => none, some (0 : ℕ), none, none, none, none, none⟩

/-- A launch with two slots. -/
def countLaunch (path : String) (resolve : String → String) : Launch ℕ String :=
  ⟨100, 10, 2, path, resolve⟩

/-- The working directory has two names. -/
def resolveDot (name : String) : String := if name = "./server_state.json" then stateFile else name

/-- A contribution in the first slot. -/
def firstContribution : List (Operation countTool ℕ) :=
  [.accept (1 : ℕ), .append, .write, .rename, .receive 105, .complete, .save]

theorem reaches_of_run {F : Floats T} {launch : Launch T L} {p p' : Process tool T L}
    {ops : List (Operation tool T)} (h : p.run F launch ops = some p') : Reaches F launch p p' := by
  induction ops generalizing p with
  | nil =>
    obtain rfl := Option.some.inj h
    exact .refl
  | cons op ops ih =>
    obtain ⟨p₁, hstep, h⟩ := Option.bind_eq_some_iff.mp h
    exact .head (.operation hstep) (ih h)

/-- After the first contribution the server starts again in the second slot, with its challenge. -/
theorem restart_safe_two :
    ∃ p₀ p p', boot Course.natFloats (countLaunch "." resolveDot) countFiles [] = .ok p₀ ∧
      p₀.run Course.natFloats (countLaunch "." resolveDot) firstContribution = some p ∧
      boot Course.natFloats (countLaunch "." resolveDot) p.files p.recorded = .ok p' ∧
      p'.state.nextContributorIndex = 1 ∧
      p'.files.currentChallenge p'.state.nextContributorIndex = .ok (some (1 : ℕ)) := by
  have hrun : ∃ p₀ p, boot Course.natFloats (countLaunch "." resolveDot) countFiles [] = .ok p₀ ∧
      p₀.run Course.natFloats (countLaunch "." resolveDot) firstContribution = some p ∧
      p.phase = .idle ∧ p.state.nextContributorIndex = 1 ∧ p.state.numContributors = 2 ∧
      p.recorded = [(1 : ℕ)] := ⟨_, _, rfl, rfl, rfl, rfl, rfl, rfl⟩
  obtain ⟨p₀, p, hboot, hrun, hphase, hindex, hnum, hrecorded⟩ := hrun
  have hsafe : p.IsSafe := by
    rw [IsSafe, hphase]
    trivial
  have hall : p.state.haveAllContributions = false := by
    rw [ServerState.haveAllContributions, hnum, hindex]
    rfl
  have hpath : (countLaunch "." resolveDot).stateFilePath =
      (countLaunch "." resolveDot).readPath := rfl
  have hfresh : IsFresh (countLaunch "." resolveDot) (0 : ℕ) countFiles := ⟨rfl, rfl, rfl, rfl⟩
  obtain ⟨p', hboot', hstate, hserves, -⟩ :=
    restart_safe acceptsChains_countTool hpath hfresh hboot (reaches_of_run hrun) hsafe
  refine ⟨p₀, p, p', hboot, hrun, hboot', hstate ▸ hindex, ?_⟩
  rw [(hserves hall).1, hrecorded]
  rfl

/-- With another directory as `--path` the state is not found again: the server starts in the first
slot, and refuses to serve the challenge. If the process stops when the tool has appended the first
contribution to the transcript, it does not start again. -/
theorem restart_not_safe :
    (∃ p₀ p p', boot Course.natFloats (countLaunch "server" id) countFiles [] = .ok p₀ ∧
      p₀.run Course.natFloats (countLaunch "server" id) firstContribution = some p ∧
      p.state.nextContributorIndex = 1 ∧
      boot Course.natFloats (countLaunch "server" id) p.files p.recorded = .ok p' ∧
      p'.state.nextContributorIndex = 0 ∧
      p'.files.currentChallenge p'.state.nextContributorIndex =
        .error (.exception "unexpected next_challenge.bin for 0-th contributor")) ∧
    ∃ p₀ p, boot Course.natFloats (countLaunch "." resolveDot) countFiles [] = .ok p₀ ∧
      p₀.run Course.natFloats (countLaunch "." resolveDot) [.accept (1 : ℕ), .append] = some p ∧
      boot Course.natFloats (countLaunch "." resolveDot) p.files p.recorded =
        .error (.exception "unexpected transcript in server dir") :=
  ⟨⟨_, _, _, rfl, rfl, rfl, rfl, rfl, rfl⟩, ⟨_, _, rfl, rfl, rfl⟩⟩

end Process

end Zeth.Coordinator
