import Zeth.Coordinator.Window

/-!
# Contributors

A contributor hashes the response in blocks, signs the digest and posts the file, with the digest,
its key and the signature in the headers (`contribute.py`, `client.py`, `crypto.py`). In its slot
the server accepts this, whatever the file holds. `ecdsa` and the multipart body of `requests` are
parameters.

## Main results

* `Server.contribute_uploadResponse`.
-/

namespace Zeth.Coordinator

open ByteString Python List

/-- The part of `ecdsa` that signs. Signatures verify. -/
structure Signer (K : Keys) where
  SigningKey : Type
  getVerificationKey : SigningKey → K.VerificationKey
  sign : SigningKey → Bytes → Bytes
  verify_sign : ∀ sk digest, verify K (sign sk digest) (getVerificationKey sk) digest = true

/-- What `requests` writes around a file. -/
structure Multipart where
  boundary : String
  /-- The first boundary and the headers of the part, up to a blank line. -/
  headers : Bytes
  boundary_ne_empty : boundary ≠ ""
  ascii : ∀ c ∈ boundary.toList, c.toNat < 128
  boundaryOf_eq : boundaryOf ("multipart/form-data; boundary=" ++ boundary) = boundary
  isShortestRun : ∀ content, IsShortestRun (headers ++ content) headers

def Multipart.body (M : Multipart) (file : Bytes) : Bytes :=
  M.headers ++ file ++ encode (finalBoundary M.boundary)

/-- `HASH_FILE_BLOCK_SIZE`. -/
def hashFileBlockSize : ℕ := 4096

/-- The loop of `compute_file_digest`, with what has been hashed before. -/
def hashBlocks (sha512 : Bytes → Bytes) (hashed file : Bytes) : Bytes :=
  let block := file.take hashFileBlockSize
  if block = [] then sha512 hashed
  else hashBlocks sha512 (hashed ++ block) (file.drop hashFileBlockSize)
termination_by file.length
decreasing_by
  rename_i hblock
  have hpos : 0 < file.length :=
    length_pos_iff.mpr fun h => hblock (take_eq_nil_iff.mpr (.inr h))
  rw [length_drop, hashFileBlockSize]
  omega

/-- `compute_file_digest`, of the bytes of the file. -/
def computeFileDigest (sha512 : Bytes → Bytes) (file : Bytes) : Bytes := hashBlocks sha512 [] file

theorem hashBlocks_eq (sha512 : Bytes → Bytes) (hashed file : Bytes) :
    hashBlocks sha512 hashed file = sha512 (hashed ++ file) := by
  fun_induction hashBlocks sha512 hashed file with
  | case1 hashed file block hblock =>
    rcases take_eq_nil_iff.mp hblock with hsize | rfl
    · cases hsize
    · rw [append_nil]
  | case2 hashed file block hblock ih =>
    rw [ih, append_assoc, take_append_drop]

theorem computeFileDigest_eq (sha512 : Bytes → Bytes) (file : Bytes) :
    computeFileDigest sha512 file = sha512 file := hashBlocks_eq sha512 [] file

/-- `export_digest`. -/
def exportDigest (digest : Bytes) : Except Exc String := do
  assert (digest.length = hashByteLength) ""
  return hex digest

/-- The request of `Client.push_contribution`. -/
def pushContribution (K : Keys) (M : Multipart) (split : ℕ → ℕ) (response digest : Bytes)
    (verificationKey : K.VerificationKey) (signature : Bytes) : Except Exc Request := do
  let digest ← exportDigest digest
  return {
    contentLength := some (toString (M.body response).length)
    contentType := some ("multipart/form-data; boundary=" ++ M.boundary)
    digest := some digest
    publicKey := some (exportVerificationKey K verificationKey)
    signature := some (hex signature)
    body := M.body response
    split := split }

/-- `_upload_response`. -/
def uploadResponse {K : Keys} (S : Signer K) (M : Multipart) (split : ℕ → ℕ) (response : Bytes)
    (sk : S.SigningKey) : Except Exc Request :=
  let digest := computeFileDigest K.sha512 response
  let signature := S.sign sk digest
  let vk := S.getVerificationKey sk
  pushContribution K M split response digest vk signature

variable {T : Type} [LinearOrder T] [Zero T] [Add T] {K : Keys}

/-- In its slot the upload of a contributor is accepted. -/
theorem Server.contribute_uploadResponse {E : Environment T K} (S : Signer K) (M : Multipart)
    (split : ℕ → ℕ) {response : Bytes} {sk : S.SigningKey} {srv srv' : Server T} {now : T}
    (hsha : (K.sha512 response).length = hashByteLength)
    (hint : E.int (toString (M.body response).length) = .ok (M.body response).length)
    (hprocessing : srv.processing = false) (hupdate : srv.updateState E now = (srv', .ok ()))
    (hall : srv'.state.haveAllContributions = false)
    (hturn : E.contributors[srv'.state.nextContributorIndex]? = some (S.getVerificationKey sk)) :
    ∃ req, uploadResponse S M split response sk = .ok req ∧
      srv.withStateLock (contribute E now req) = ({ srv' with processing := true }, accepted) := by
  have hdigest : importDigest (hex (K.sha512 response)) = .ok (K.sha512 response) := by
    rw [importDigest, if_neg (not_not.mpr ((length_hex _).trans (congrArg _ hsha))), fromhex_hex]
  have hexport : exportDigest (K.sha512 response) = .ok (hex (K.sha512 response)) := by
    rw [exportDigest, hsha]
    rfl
  have hrun : IsShortestRun (M.body response) M.headers := by
    rw [Multipart.body, append_assoc]
    exact M.isShortestRun _
  obtain ⟨stream, hstream⟩ : ∃ stream, handleUploadRequest K.sha512 split (M.body response).length
      M.boundary (K.sha512 response) ⟨M.body response, 0⟩ = .ok (response, stream) := by
    refine exists_handleUploadRequest M.ascii (append_nil _).symm hrun ?_ rfl
    simp only [Multipart.body, length_append]
    omega
  rw [uploadResponse, computeFileDigest_eq, pushContribution, hexport]
  let upload : Upload := ⟨(M.body response).length, K.sha512 response,
    exportVerificationKey K (S.getVerificationKey sk), S.sign sk (K.sha512 response), M.boundary⟩
  refine ⟨_, rfl, withStateLock_of_ok hprocessing
    (contribute_of_judge srv now (?_ : _ = Except.ok upload) hupdate hall ?_)⟩
  · simp only [readHeaders, header, Except.ok_bind, hint, hdigest, importSignature, fromhex_hex,
      M.boundaryOf_eq, if_neg M.boundary_ne_empty]
    rfl
  · exact judge_eq_accepted_iff.mpr ⟨_, hturn, rfl, S.verify_sign sk _, _, hstream⟩

/-- The signer of `plainKeys`. -/
def plainSigner : Signer plainKeys := ⟨Bytes, id, fun sk _ => sk, fun _ _ => decide_eq_true rfl⟩

/-- The part of a file named `response`. -/
def plainMultipart : Multipart where
  boundary := "0123456789abcdef"
  headers := encode "--0123456789abcdef\r\n" ++
    (encode "Content-Disposition: form-data; name=\"response\"; filename=\"response\"\r\n" ++
      encode "\r\n")
  boundary_ne_empty := by decide
  ascii := ascii_of_all (by decide)
  boundaryOf_eq := by decide
  isShortestRun content := by
    have hblank := (isShortestRun_of_isBlank (.inl rfl) content _).mpr rfl
    have hdisposition : IsLine (encode
        "Content-Disposition: form-data; name=\"response\"; filename=\"response\"\r\n") :=
      ⟨encode "Content-Disposition: form-data; name=\"response\"; filename=\"response\"\r",
        by decide +kernel, by decide +kernel⟩
    have hboundary : IsLine (encode "--0123456789abcdef\r\n") :=
      ⟨encode "--0123456789abcdef\r", by decide +kernel, by decide +kernel⟩
    rw [append_assoc, append_assoc]
    refine (isShortestRun_of_not_isBlank hboundary ⟨_, decode_encode _⟩ ?_ _ _).mpr ⟨_, rfl,
      (isShortestRun_of_not_isBlank hdisposition ⟨_, decode_encode _⟩ ?_ _ _).mpr
        ⟨_, rfl, hblank⟩⟩
    · unfold IsBlank
      decide +kernel
    · unfold IsBlank
      decide +kernel

/-- A coordinator that reads numerals. -/
def decimalEnvironment : Environment ℕ plainKeys :=
  { Session.plainEnvironment with int := decimalInt }

/-- A response of three bytes, in the first slot. -/
theorem contribute_uploadResponse_plain :
    ∃ req, uploadResponse plainSigner plainMultipart (fun _ => 0) [1, 2, 3] [0] = .ok req ∧
      Session.plainServer.withStateLock (Server.contribute decimalEnvironment 105 req) =
        ({ Session.plainServer with processing := true }, accepted) := by
  have hint (n : ℕ) : decimalEnvironment.int (toString n) = .ok n := decimalInt_toString n
  exact Server.contribute_uploadResponse plainSigner plainMultipart _ rfl (hint _) rfl rfl rfl rfl

end Zeth.Coordinator
