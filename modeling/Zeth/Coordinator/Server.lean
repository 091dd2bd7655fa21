import Zeth.Coordinator.ServerState
import Zeth.Coordinator.Upload

/-!
# Requests to the coordinator

The coordinator answers requests for the current challenge and accepts contributions
(`mpc/coordinator/server.py`). A contribution is accepted if it is signed with the key of the
current contributor; the state is brought up to date before that is looked up. The body of the
request is read to a file, which a thread then passes to the handler of the ceremony.

The libraries for keys and for the hash are parameters, and so is what the handler does when all
contributions are there. What is written to the log and sent by mail is left out.

## Main definitions

* `Keys`, `Request`, `Upload`, `readHeaders`, `judge`.
* `Environment`, `Server`, `Server.updateState`, `Server.onContribution`, `Server.challenge`,
  `Server.contribute`, `Server.withStateLock`.

## Main results

* `judge_eq_accepted_iff`: which uploads are accepted.
* `Server.state_contribute`, `Server.contribute_eq_accepted`.
-/

namespace Zeth.Coordinator

open ByteString Python

/-! ### Keys and requests -/

/-- The parts of `ecdsa` and of `Crypto.Hash` that are used. -/
structure Keys where
  VerificationKey : Type
  /-- `VerifyingKey.to_der` -/
  toDer : VerificationKey → Bytes
  /-- `VerifyingKey.verify_digest`: key, signature, digest. -/
  verifyDigest : VerificationKey → Bytes → Bytes → Except Exc Bool
  sha512 : Bytes → Bytes

/-- `export_verification_key`. -/
def exportVerificationKey (K : Keys) (vk : K.VerificationKey) : String := hex (K.toDer vk)

/-- `verify`. -/
def verify (K : Keys) (sig : Bytes) (vk : K.VerificationKey) (digest : Bytes) : Bool :=
  match K.verifyDigest vk sig digest with
  | .ok valid => valid
  | .error _ => false

/-- `HASH_BYTE_LENGTH`. -/
def hashByteLength : ℕ := 64

/-- `import_digest`. -/
def importDigest (digestS : String) : Except Exc Bytes :=
  if digestS.length ≠ 2 * hashByteLength then
    .error (.exception ("unexpected digest string length: " ++ toString digestS.length))
  else fromhex digestS

/-- `import_signature`. -/
def importSignature (sigS : String) : Except Exc Bytes := fromhex sigS

/-- The headers and the body of a request, and how its stream is split. -/
structure Request where
  contentLength : Option String
  contentType : Option String
  digest : Option String
  publicKey : Option String
  signature : Option String
  body : Bytes
  split : ℕ → ℕ

/-- What the headers of a contribution say. -/
structure Upload where
  contentLength : ℤ
  digest : Bytes
  pubKeyStr : String
  sig : Bytes
  boundary : String

/-- A header that has to be there. -/
def header (value : Option String) (name : String) : Except Exc String :=
  match value with
  | some value => .ok value
  | none => .error (.exception ("no " ++ name ++ " header"))

/-- `s.split("; ")`. -/
def splitParameters : List Char → List (List Char)
  | [] => [[]]
  | ';' :: ' ' :: cs => [] :: splitParameters cs
  | c :: cs =>
    match splitParameters cs with
    | [] => [[c]]
    | part :: parts => (c :: part) :: parts

/-- The boundary in a content type, empty if there is none. -/
def boundaryOf (contentType : String) : String :=
  match (splitParameters contentType.toList).find? ("boundary=".toList.isPrefixOf ·) with
  | some val => String.ofList (val.drop "boundary=".length)
  | none => ""

/-- The part of `_contribute` that reads the headers. -/
def readHeaders (int : String → Except Exc ℤ) (req : Request) : Except Exc Upload := do
  let contentLength ← header req.contentLength "Content-Length"
  let contentType ← header req.contentType "Content-Type"
  let digest ← header req.digest "X-MPC-Digest"
  let pubKeyStr ← header req.publicKey "X-MPC-Public-Key"
  let signature ← header req.signature "X-MPC-Signature"
  let contentLength ← int contentLength
  let digest ← importDigest digest
  let sig ← importSignature signature
  if boundaryOf contentType = "" then throw (.exception "content-type contains no boundary")
  return ⟨contentLength, digest, pubKeyStr, sig, boundaryOf contentType⟩

/-! ### Answers -/

/-- The text and the status of a response. -/
structure Response where
  text : String
  status : ℕ
  deriving DecidableEq

/-- The response to an upload that is accepted. -/
def accepted : Response := ⟨"OK", 200⟩

/-- The part of `_contribute` that checks the key, the signature and the upload, for the contributor
with the given index. -/
def judge (K : Keys) (contributors : List K.VerificationKey) (contributorIdx : ℕ) (upload : Upload)
    (req : Request) : Except Exc Response := do
  let verificationKey ← index contributors contributorIdx
  let expectPubKeyStr := exportVerificationKey K verificationKey
  if expectPubKeyStr ≠ upload.pubKeyStr then
    return ⟨"Contributor key mismatch (contributor " ++ toString contributorIdx ++ ")", 403⟩
  else if !verify K upload.sig verificationKey upload.digest then
    return ⟨"Signature check failed (contributor " ++ toString contributorIdx ++ ")", 403⟩
  else
    let _ ← handleUploadRequest K.sha512 req.split upload.contentLength upload.boundary
      upload.digest ⟨req.body, 0⟩
    return accepted

/-- An upload is accepted if and only if it has the key of the contributor, the signature verifies
under it and the body is well formed. -/
theorem judge_eq_accepted_iff {K : Keys} {contributors : List K.VerificationKey}
    {contributorIdx : ℕ} {upload : Upload} {req : Request} :
    judge K contributors contributorIdx upload req = .ok accepted ↔
      ∃ vk, contributors[contributorIdx]? = some vk ∧
        exportVerificationKey K vk = upload.pubKeyStr ∧
        verify K upload.sig vk upload.digest = true ∧
        ∃ result, handleUploadRequest K.sha512 req.split upload.contentLength upload.boundary
          upload.digest ⟨req.body, 0⟩ = .ok result := by
  have hstatus (s : String) : (⟨s, 403⟩ : Response) ≠ accepted := fun h =>
    absurd (congrArg Response.status h) (by rw [accepted]; norm_num)
  rw [judge, index]
  cases contributors[contributorIdx]? with
  | none => simp
  | some vk =>
    simp only [Except.ok_bind, Option.some.injEq, exists_eq_left']
    by_cases hkey : exportVerificationKey K vk = upload.pubKeyStr
    · by_cases hsig : verify K upload.sig vk upload.digest = true
      · rw [if_neg (not_not.mpr hkey), hsig, Bool.not_true, if_neg Bool.false_ne_true]
        simp only [hkey, true_and]
        rw [Except.bind_eq_ok]
        constructor
        · rintro ⟨result, h, -⟩
          exact ⟨result, h⟩
        · rintro ⟨result, h⟩
          exact ⟨result, h, rfl⟩
      · rw [if_neg (not_not.mpr hkey), Bool.eq_false_iff.mpr hsig, Bool.not_false, if_pos rfl]
        simp only [Bool.false_eq_true, false_and, and_false, iff_false]
        exact fun h => hstatus _ (Except.ok.inj h)
    · rw [if_pos hkey]
      simp only [hkey, false_and, iff_false]
      exact fun h => hstatus _ (Except.ok.inj h)

/-! ### The server -/

variable {T : Type} [LinearOrder T] [Zero T] [Add T] {K : Keys}

variable (T K) in
/-- The configuration and the contributors, and what the server calls that is not part of it: `int`,
`handler.get_current_challenge_file`, of which the text of the file is given, and
`handler.on_completed`. -/
structure Environment where
  contributors : List K.VerificationKey
  startTimeUtc : T
  contributionInterval : T
  int : String → Except Exc ℤ
  currentChallenge : ℕ → Except Exc String
  onCompleted : Except Exc Unit

variable (T) in
/-- The part of `Server` that changes, with the state in the state file and the number of calls of
`handler.on_completed`. -/
structure Server where
  state : ServerState T
  processing : Bool
  handlerFinalized : Bool
  stateFile : Option (ServerState T)
  completions : ℕ

namespace Server

section

variable (E : Environment T K)

/-- `Server.__init__` where there is no state file. -/
def init : Except Exc (Server T) := do
  let state ← initialServerState E.startTimeUtc E.contributionInterval E.contributors.length
  return ⟨state, false, state.haveAllContributions, some state, 0⟩

/-- `_on_next_contributor`: the handler is told once when all contributions are there, and then the
state is written. -/
def onNextContributor (srv : Server T) : Server T × Except Exc Unit :=
  if !srv.handlerFinalized && srv.state.haveAllContributions then
    let srv := { srv with handlerFinalized := true, completions := srv.completions + 1 }
    match E.onCompleted with
    | .ok _ => ({ srv with stateFile := some srv.state }, .ok ())
    | .error e => (srv, .error e)
  else ({ srv with stateFile := some srv.state }, .ok ())

/-- `_update_state`. -/
def updateState (srv : Server T) (now : T) : Server T × Except Exc Unit :=
  if (srv.state.update now E.contributionInterval).1 then
    onNextContributor E { srv with state := (srv.state.update now E.contributionInterval).2 }
  else (srv, .ok ())

/-- `_on_contribution`. -/
def onContribution (srv : Server T) (now : T) : Server T × Except Exc Unit :=
  match srv.state.receivedContribution (now + E.contributionInterval) with
  | .ok state => onNextContributor E { srv with state := state }
  | .error e => (srv, .error e)

/-- `_challenge`, with the time that it reads from the clock. -/
def challenge (now : T) (srv : Server T) : Server T × Except Exc Response :=
  match srv.updateState E now with
  | (srv, .error e) => (srv, .error e)
  | (srv, .ok _) =>
    if srv.state.haveAllContributions then
      (srv, .ok ⟨"MPC is complete. No remaining challenges", 405⟩)
    else
      match E.currentChallenge srv.state.nextContributorIndex with
      | .error e => (srv, .error e)
      | .ok text => (srv, .ok ⟨text, 200⟩)

/-- `_contribute`, with the time that it reads from the clock. -/
def contribute (now : T) (req : Request) (srv : Server T) : Server T × Except Exc Response :=
  match readHeaders E.int req with
  | .error e => (srv, .error e)
  | .ok upload =>
    match srv.updateState E now with
    | (srv, .error e) => (srv, .error e)
    | (srv, .ok _) =>
      if srv.state.haveAllContributions then
        (srv, .ok ⟨"MPC complete. No contributions accepted.", 405⟩)
      else
        match judge K E.contributors srv.state.nextContributorIndex upload req with
        | .error e => (srv, .error e)
        | .ok response =>
          ({ srv with processing := srv.processing || response = accepted }, .ok response)

end

/-- `_with_state_lock`: nothing is done while a contribution is processed, and an exception is
answered with a text that does not name it. -/
def withStateLock (callback : Server T → Server T × Except Exc Response) (srv : Server T) :
    Server T × Response :=
  if srv.processing then (srv, ⟨"Processing contribution. Retry later.", 503⟩)
  else
    match callback srv with
    | (srv, .ok response) => (srv, response)
    | (srv, .error _) => (srv, ⟨"error: \x7bex\x7d", 400⟩)

section

variable {E : Environment T K} {srv : Server T} {now : T} {req : Request}

omit [LinearOrder T] [Zero T] [Add T] in
theorem state_onNextContributor (srv : Server T) :
    (srv.onNextContributor E).1.state = srv.state := by
  rw [onNextContributor]
  split_ifs
  · cases E.onCompleted with
    | ok _ => rfl
    | error e => rfl
  · rfl

omit [LinearOrder T] [Zero T] [Add T] in
theorem processing_onNextContributor (srv : Server T) :
    (srv.onNextContributor E).1.processing = srv.processing := by
  rw [onNextContributor]
  split_ifs
  · cases E.onCompleted with
    | ok _ => rfl
    | error e => rfl
  · rfl

/-- The state is updated, whatever the handler does. -/
theorem state_updateState (srv : Server T) (now : T) :
    (srv.updateState E now).1.state = (srv.state.update now E.contributionInterval).2 := by
  rw [updateState]
  split_ifs with h
  · exact state_onNextContributor _
  · rw [ServerState.update] at h ⊢
    split_ifs with hif
    · rfl
    · rw [if_neg hif] at h
      exact absurd rfl h

theorem state_challenge (srv : Server T) (now : T) :
    (srv.challenge E now).1.state = (srv.state.update now E.contributionInterval).2 := by
  rw [← state_updateState, challenge]
  rcases srv.updateState E now with ⟨srv', e | ⟨⟩⟩
  · rfl
  · dsimp only
    split_ifs
    · rfl
    · cases E.currentChallenge srv'.state.nextContributorIndex with
      | error e => rfl
      | ok text => rfl

/-- A request changes the state by an update, if it does. -/
theorem state_contribute (srv : Server T) (now : T) (req : Request) :
    (srv.contribute E now req).1.state = srv.state ∨
      (srv.contribute E now req).1.state = (srv.state.update now E.contributionInterval).2 := by
  rw [← state_updateState, contribute]
  cases readHeaders E.int req with
  | error e => exact .inl rfl
  | ok upload =>
    right
    rcases srv.updateState E now with ⟨srv', e | ⟨⟩⟩
    · rfl
    · dsimp only
      split_ifs
      · rfl
      · cases judge K E.contributors srv'.state.nextContributorIndex upload req with
        | error e => rfl
        | ok response => rfl

/-- A request that is not accepted does no more than an update. -/
theorem contribute_of_ne_accepted (h : (srv.contribute E now req).2 ≠ .ok accepted) :
    (srv.contribute E now req).1 = srv ∨
      (srv.contribute E now req).1 = (srv.updateState E now).1 := by
  rw [contribute] at h ⊢
  cases hheaders : readHeaders E.int req with
  | error e => exact .inl rfl
  | ok upload =>
    right
    rw [hheaders] at h
    dsimp only at h ⊢
    generalize srv.updateState E now = updated at h ⊢
    rcases updated with ⟨srv', e | ⟨⟩⟩
    · rfl
    · dsimp only at h ⊢
      split_ifs at h ⊢
      · rfl
      · cases hjudge : judge K E.contributors srv'.state.nextContributorIndex upload req with
        | error e => rfl
        | ok response =>
          rw [hjudge] at h
          have hne : response ≠ accepted := fun heq => h (congrArg Except.ok heq)
          simp only [decide_eq_false hne, Bool.or_false]

/-- What has been found of a request that is accepted. -/
theorem contribute_eq_accepted (h : (srv.contribute E now req).2 = .ok accepted) :
    (srv.contribute E now req).1.state = (srv.state.update now E.contributionInterval).2 ∧
      (srv.contribute E now req).1.processing = true ∧
      (srv.contribute E now req).1.state.haveAllContributions = false ∧
      ∃ upload, readHeaders E.int req = .ok upload ∧
        judge K E.contributors (srv.contribute E now req).1.state.nextContributorIndex upload req =
          .ok accepted := by
  rw [← state_updateState]
  rw [contribute] at h ⊢
  cases hheaders : readHeaders E.int req with
  | error e =>
    rw [hheaders] at h
    cases h
  | ok upload =>
    rw [hheaders] at h
    dsimp only at h ⊢
    generalize srv.updateState E now = updated at h ⊢
    rcases updated with ⟨srv', e | ⟨⟩⟩
    · cases h
    · dsimp only at h ⊢
      by_cases hall : srv'.state.haveAllContributions = true
      · rw [if_pos hall] at h
        exact absurd (congrArg Response.status (Except.ok.inj h)) (by rw [accepted]; norm_num)
      · rw [if_neg hall] at h ⊢
        cases hjudge : judge K E.contributors srv'.state.nextContributorIndex upload req with
        | error e =>
          rw [hjudge] at h
          cases h
        | ok response =>
          rw [hjudge] at h
          obtain rfl : response = accepted := Except.ok.inj h
          have hprocessing : (srv'.processing || decide (accepted = accepted)) = true := by
            rw [decide_eq_true rfl, Bool.or_true]
          exact ⟨rfl, hprocessing, Bool.eq_false_iff.mpr hall, upload, rfl, hjudge⟩

omit [LinearOrder T] [Zero T] [Add T] in
/-- A request that is accepted was not refused by the lock. -/
theorem withStateLock_eq_accepted {callback : Server T → Server T × Except Exc Response}
    (h : (srv.withStateLock callback).2 = accepted) :
    srv.withStateLock callback = ((callback srv).1, accepted) ∧
      (callback srv).2 = .ok accepted ∧ srv.processing = false := by
  rw [withStateLock] at h ⊢
  by_cases hprocessing : srv.processing = true
  · rw [if_pos hprocessing] at h
    exact absurd (congrArg Response.status h) (by rw [accepted]; norm_num)
  · rw [if_neg hprocessing] at h ⊢
    generalize callback srv = result at h ⊢
    rcases result with ⟨srv', e | response⟩
    · exact absurd (congrArg Response.status h) (by rw [accepted]; norm_num)
    · obtain rfl : response = accepted := h
      exact ⟨rfl, rfl, Bool.eq_false_iff.mpr hprocessing⟩

omit [LinearOrder T] [Zero T] [Add T] in
/-- A request leaves the server, or does what its callback does. -/
theorem withStateLock_fst (callback : Server T → Server T × Except Exc Response) (srv : Server T) :
    (srv.withStateLock callback).1 = srv ∨ (srv.withStateLock callback).1 = (callback srv).1 := by
  rw [withStateLock]
  split_ifs
  · exact .inl rfl
  · right
    rcases callback srv with ⟨srv', e | response⟩
    · rfl
    · rfl

omit [LinearOrder T] [Zero T] [Add T] in
/-- A request leaves the state if its callback does, or changes it as its callback does. -/
theorem state_withStateLock {callback : Server T → Server T × Except Exc Response} {srv : Server T}
    {state : ServerState T}
    (h : (callback srv).1.state = srv.state ∨ (callback srv).1.state = state) :
    (srv.withStateLock callback).1.state = srv.state ∨
      (srv.withStateLock callback).1.state = state := by
  rcases srv.withStateLock_fst callback with heq | heq
  · exact .inl (congrArg Server.state heq)
  · rwa [heq]

/-- A request that is accepted starts the processing. -/
theorem contribute_of_judge (srv : Server T) (now : T) {srv' : Server T} {upload : Upload}
    (hupload : readHeaders E.int req = .ok upload)
    (hupdate : srv.updateState E now = (srv', .ok ()))
    (hall : srv'.state.haveAllContributions = false)
    (hjudge : judge K E.contributors srv'.state.nextContributorIndex upload req = .ok accepted) :
    srv.contribute E now req = ({ srv' with processing := true }, .ok accepted) := by
  simp only [contribute, hupload, hupdate, hall, Bool.false_eq_true, if_false, hjudge, decide_true,
    Bool.or_true]

omit [LinearOrder T] [Zero T] [Add T] in
theorem withStateLock_of_ok {callback : Server T → Server T × Except Exc Response} {srv' : Server T}
    {response : Response} (hprocessing : srv.processing = false)
    (h : callback srv = (srv', .ok response)) : srv.withStateLock callback = (srv', response) := by
  rw [withStateLock, if_neg (Bool.eq_false_iff.mp hprocessing), h]

end

end Server

/-! ### Plain requests -/

/-- Keys that are byte strings and sign with themselves, and a hash that is constant. -/
def plainKeys : Keys where
  VerificationKey := Bytes
  toDer := id
  verifyDigest vk sig _ := .ok (sig = vk)
  sha512 _ := List.replicate 64 0

/-- A request with an empty file. -/
def plainRequest (key : Bytes) : Request where
  contentLength := some "10"
  contentType := some "multipart/form-data; boundary=b"
  digest := some (hex (List.replicate 64 0))
  publicKey := some (hex key)
  signature := some (hex key)
  body := encode "\n\r\n--b--\r\n"
  split _ := 0

/-- What the headers of such a request say. -/
def plainUpload (key : Bytes) : Upload := ⟨10, List.replicate 64 0, hex key, key, "b"⟩

theorem readHeaders_plainRequest {int : String → Except Exc ℤ} (hint : int "10" = .ok 10)
    (key : Bytes) : readHeaders int (plainRequest key) = .ok (plainUpload key) := by
  have hlength : (hex (List.replicate 64 0)).length = 2 * hashByteLength := by
    rw [length_hex, List.length_replicate, hashByteLength]
  have hdigest : importDigest (hex (List.replicate 64 0)) = .ok (List.replicate 64 0) := by
    rw [importDigest, if_neg (not_not.mpr hlength), fromhex_hex]
  have hboundary : boundaryOf "multipart/form-data; boundary=b" = "b" := by decide
  simp only [readHeaders, plainRequest, header, Except.ok_bind, hint, hdigest, importSignature,
    fromhex_hex, hboundary]
  rfl

/-- The contributor's own request is accepted. -/
theorem judge_plainRequest {contributors : List Bytes} {i : ℕ} {key : Bytes}
    (h : contributors[i]? = some key) :
    judge plainKeys contributors i (plainUpload key) (plainRequest key) = .ok accepted := by
  have hverify : verify plainKeys key key (List.replicate 64 0) = true := decide_eq_true rfl
  refine judge_eq_accepted_iff.mpr ⟨key, h, rfl, hverify, ?_⟩
  have hrun : IsShortestRun (encode "\n\r\n--b--\r\n") (encode "\n") :=
    (isShortestRun_of_isBlank (.inr rfl) (encode "\r\n--b--\r\n") _).mpr rfl
  have hdata : encode "\n\r\n--b--\r\n" =
      encode "\n" ++ [] ++ encode (finalBoundary "b") ++ [] := by
    decide
  have hread : ∃ stream', handleUploadRequest plainKeys.sha512 (fun _ => 0) 10 "b"
      (List.replicate 64 0) ⟨encode "\n\r\n--b--\r\n", 0⟩ = .ok ([], stream') :=
    exists_handleUploadRequest (ascii_of_all (by decide)) hdata hrun (by decide) rfl
  obtain ⟨stream', hstream⟩ := hread
  exact ⟨_, hstream⟩

end Zeth.Coordinator
