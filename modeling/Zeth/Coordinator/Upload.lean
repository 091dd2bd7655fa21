import Zeth.Foundation.Python

/-!
# Uploads to the coordinator

A contribution is uploaded as the only part of a multipart body (`mpc/coordinator/upload_utils.py`).
The coordinator skips lines up to a blank one, reads as many bytes as the headers of the request
promise, less what it has skipped and what the final boundary takes, and then the boundary itself.

A stream may answer a request for bytes with fewer of them, but with some while there are any left.
How many it gives is a parameter. The hash is one as well.

## Main definitions

* `Stream`, `Stream.read`, `Stream.readline`.
* `readPartHeaders`, `readToFile`, `readToMemory`, `handleUploadRequest`.
* `IsShortestRun`: the lines up to the first blank one.

## Main results

* `readLoop_eq`: what is read does not depend on the chunks.
* `readPartHeaders_eq_ok_iff`.
* `handleUploadRequest_eq_ok_iff`.
-/

namespace Zeth.Coordinator

open ByteString Python List

/-! ### Streams -/

/-- The byte that ends a line. -/
def newline : Byte := 0x0A

/-- A stream of bytes, with the number of requests so far. -/
structure Stream where
  data : Bytes
  reads : ℕ

/-- The first line of some bytes, with its end, and the rest. -/
def splitLine : Bytes → Bytes × Bytes
  | [] => ([], [])
  | b :: bs =>
    if b = newline then ([b], bs)
    else (b :: (splitLine bs).1, (splitLine bs).2)

namespace Stream

/-- `stream.readline()`. -/
def readline (s : Stream) : Bytes × Stream := ((splitLine s.data).1, ⟨(splitLine s.data).2, s.reads⟩)

/-- `stream.read(size)`: the `i`-th request is answered with up to `split i + 1` bytes. -/
def read (split : ℕ → ℕ) (s : Stream) (size : ℕ) : Bytes × Stream :=
  let count := min size (split s.reads + 1)
  (s.data.take count, ⟨s.data.drop count, s.reads + 1⟩)

end Stream

theorem splitLine_append (bs : Bytes) : (splitLine bs).1 ++ (splitLine bs).2 = bs := by
  induction bs with
  | nil => rfl
  | cons b bs ih =>
    rw [splitLine]
    split_ifs
    · rfl
    · rw [cons_append, ih]

theorem length_splitLine_snd_lt {bs : Bytes} (h : (splitLine bs).1 ≠ []) :
    (splitLine bs).2.length < bs.length := by
  have hlen := congrArg List.length (splitLine_append bs)
  rw [length_append] at hlen
  have hpos := length_pos_of_ne_nil h
  omega

/-! ### Reading a request -/

/-- The loop of `_read_part_headers`. -/
def readPartHeadersFrom (totalBytes : ℕ) (s : Stream) : Except Exc (ℕ × Stream) :=
  let bytesRead := s.readline.1.length
  match decode s.readline.1 with
  | .error e => .error e
  | .ok lStr =>
    if bytesRead < 3 ∧ lStr ∈ ["\r\n", "\n"] then .ok (totalBytes + bytesRead, s.readline.2)
    else if bytesRead = 0 then .error (.exception "unexpected 0-length line")
    else readPartHeadersFrom (totalBytes + bytesRead) s.readline.2
termination_by s.data.length
decreasing_by
  exact length_splitLine_snd_lt (ne_nil_of_length_pos (Nat.pos_of_ne_zero (by assumption)))

/-- `_read_part_headers`. -/
def readPartHeaders (s : Stream) : Except Exc (ℕ × Stream) := readPartHeadersFrom 0 s

/-- `READ_CHUNK_SIZE`. -/
def readChunkSize : ℕ := 4096

/-- The loop of `_read_to_file` and of `_read_to_memory`, which request `size bytesToRead` bytes at a
time. The bytes that have been read are `data`. A request that gets nothing ends the loop. -/
def readLoop (split : ℕ → ℕ) (size : ℕ → ℕ) (s : Stream) (data : Bytes) (bytesToRead : ℕ) :
    Option Bytes × Stream :=
  if bytesToRead > 0 then
    let (chunk, s) := s.read split (size bytesToRead)
    if chunk.length = 0 then (none, s)
    else readLoop split size s (data ++ chunk) (bytesToRead - chunk.length)
  else (some data, s)
termination_by bytesToRead
decreasing_by omega

/-- `_read_to_file`: what has been written to the file, if all was read. -/
def readToFile (split : ℕ → ℕ) (s : Stream) (bytesToRead : ℤ) : Option Bytes × Stream :=
  readLoop split (min readChunkSize) s [] bytesToRead.toNat

/-- `_read_to_memory`. -/
def readToMemory (split : ℕ → ℕ) (s : Stream) (bytesToRead : ℤ) : Option Bytes × Stream :=
  readLoop split id s [] bytesToRead.toNat

/-- The end of a body. -/
def finalBoundary (contentBoundary : String) : String := "\r\n--" ++ contentBoundary ++ "--\r\n"

/-- The content of an upload, of which the digest is checked. -/
def readContent (sha512 : Bytes → Bytes) (split : ℕ → ℕ) (remainingBytes : ℤ) (expectDigest : Bytes)
    (stream : Stream) : Except Exc (Bytes × Stream) :=
  match readToFile split stream remainingBytes with
  | (none, _) => .error (.exception "invalid part format")
  | (some file, stream) =>
    if sha512 file ≠ expectDigest then .error (.exception "digest mismatch") else .ok (file, stream)

/-- The end of an upload. -/
def readTail (split : ℕ → ℕ) (boundary : String) (stream : Stream) : Except Exc Stream :=
  match readToMemory split stream boundary.length with
  | (none, _) => .error (.exception "invalid part tail")
  | (some tail, stream) => do
    let tail ← decode tail
    if tail ≠ boundary then .error (.exception "invalid part tail") else .ok stream

/-- `handle_upload_request`: the content of the file, and the stream after the call. -/
def handleUploadRequest (sha512 : Bytes → Bytes) (split : ℕ → ℕ) (contentLength : ℤ)
    (contentBoundary : String) (expectDigest : Bytes) (stream : Stream) :
    Except Exc (Bytes × Stream) := do
  let finalBoundarySize := (finalBoundary contentBoundary).length
  let remainingBytes := contentLength - finalBoundarySize
  let (headerBytes, stream) ← readPartHeaders stream
  let remainingBytes := remainingBytes - headerBytes
  let (file, stream) ← readContent sha512 split remainingBytes expectDigest stream
  let stream ← readTail split (finalBoundary contentBoundary) stream
  return (file, stream)

/-! ### Reading bytes -/

/-- What is read does not depend on the chunks: the bytes requested, if there are as many. -/
theorem readLoop_eq (split : ℕ → ℕ) {size : ℕ → ℕ} (hsize : ∀ n, 0 < n → 0 < size n ∧ size n ≤ n)
    (s : Stream) (data : Bytes) (bytesToRead : ℕ) :
    ∃ reads, readLoop split size s data bytesToRead =
      if bytesToRead ≤ s.data.length then
        (some (data ++ s.data.take bytesToRead), ⟨s.data.drop bytesToRead, reads⟩)
      else (none, ⟨[], reads⟩) := by
  induction bytesToRead using Nat.strong_induction_on generalizing s data with
  | _ bytesToRead ih =>
  rcases Nat.eq_zero_or_pos bytesToRead with rfl | hpos
  · refine ⟨s.reads, ?_⟩
    rw [readLoop, if_neg (lt_irrefl 0), if_pos (Nat.zero_le _), take_zero, append_nil,
      drop_zero]
  · obtain ⟨hsize₀, hsize₁⟩ := hsize bytesToRead hpos
    -- the number of bytes that this request may get
    obtain ⟨count, hcount⟩ : ∃ count, count = min (size bytesToRead) (split s.reads + 1) := ⟨_, rfl⟩
    have hcount₀ : 0 < count := hcount ▸ lt_min hsize₀ (Nat.succ_pos _)
    have hcount₁ : count ≤ bytesToRead := hcount ▸ (min_le_left _ _).trans hsize₁
    have hread : s.read split (size bytesToRead) =
        (s.data.take count, ⟨s.data.drop count, s.reads + 1⟩) := by
      rw [Stream.read, hcount]
    rw [readLoop, if_pos hpos, hread]
    have hlength : (s.data.take count).length = min count s.data.length := length_take
    by_cases hnil : s.data.length = 0
    · refine ⟨s.reads + 1, ?_⟩
      have hdata : s.data = [] := length_eq_zero_iff.mp hnil
      simp only [hdata, take_nil, length_nil, drop_nil, if_true, Nat.le_zero,
        if_neg hpos.ne']
    · have hchunk : ¬ (s.data.take count).length = 0 := by omega
      obtain ⟨reads, hrest⟩ := ih (bytesToRead - (s.data.take count).length) (by omega)
        ⟨s.data.drop count, s.reads + 1⟩ (data ++ s.data.take count)
      refine ⟨reads, ?_⟩
      simp only [if_neg hchunk]
      rw [hrest]
      by_cases hle : bytesToRead ≤ s.data.length
      · have hcount₂ : (s.data.take count).length = count := by omega
        have hsum : count + (bytesToRead - count) = bytesToRead := by omega
        have htake := take_add (l := s.data) (i := count) (j := bytesToRead - count)
        rw [hsum] at htake
        rw [if_pos (by rw [length_drop]; omega), if_pos hle, hcount₂, htake,
          append_assoc, drop_drop, hsum]
      · rw [if_neg (by rw [length_drop]; omega), if_neg hle]

/-! ### Lines -/

/-- A line, with its end. -/
def IsLine (line : Bytes) : Prop := ∃ text, newline ∉ text ∧ line = text ++ [newline]

/-- A blank line. -/
def IsBlank (line : Bytes) : Prop := line = encode "\r\n" ∨ line = encode "\n"

/-- A byte string that is UTF-8. -/
def IsUtf8 (bs : Bytes) : Prop := ∃ s, decode bs = .ok s

/-- A run of UTF-8 lines that ends with a blank one. -/
def IsRun (h : Bytes) : Prop :=
  ∃ (lines : List Bytes) (last : Bytes),
    (∀ line ∈ lines, IsLine line ∧ IsUtf8 line) ∧ IsBlank last ∧ h = lines.flatten ++ last

/-- The shortest such run with which some bytes start. -/
structure IsShortestRun (data h : Bytes) : Prop where
  starts : h <+: data
  isRun : IsRun h
  le : ∀ h', h' <+: data → IsRun h' → h.length ≤ h'.length

theorem IsBlank.isLine {line : Bytes} (h : IsBlank line) : IsLine line := by
  rcases h with rfl | rfl
  · exact ⟨[0x0D], by decide, by decide⟩
  · exact ⟨[], by decide, by decide⟩

theorem splitLine_of_isLine {line : Bytes} (h : IsLine line) (rest : Bytes) :
    splitLine (line ++ rest) = (line, rest) := by
  obtain ⟨text, htext, rfl⟩ := h
  induction text with
  | nil => exact if_pos rfl
  | cons b text ih =>
    rw [mem_cons, not_or] at htext
    rw [cons_append, cons_append, splitLine, if_neg (Ne.symm htext.1), ih htext.2]

theorem isLine_or_notMem (bs : Bytes) : IsLine (splitLine bs).1 ∨ newline ∉ bs := by
  induction bs with
  | nil => exact .inr not_mem_nil
  | cons b bs ih =>
    rw [splitLine]
    split_ifs with hb
    · exact .inl ⟨[], not_mem_nil, by rw [hb]; rfl⟩
    · rcases ih with ⟨text, htext, hline⟩ | hnot
      · refine .inl ⟨b :: text, ?_, by rw [hline]; rfl⟩
        rw [mem_cons, not_or]
        exact ⟨Ne.symm hb, htext⟩
      · right
        rw [mem_cons, not_or]
        exact ⟨Ne.symm hb, hnot⟩

/-- A run is a blank line, or a line before a run. -/
theorem isRun_iff {h : Bytes} :
    IsRun h ↔ IsBlank h ∨ ∃ line h', IsLine line ∧ IsUtf8 line ∧ IsRun h' ∧ h = line ++ h' := by
  constructor
  · rintro ⟨lines, last, hlines, hlast, rfl⟩
    cases lines with
    | nil => exact .inl hlast
    | cons line lines =>
      obtain ⟨hline, hlines⟩ := forall_mem_cons.mp hlines
      refine .inr ⟨line, lines.flatten ++ last, hline.1, hline.2, ⟨lines, last, hlines, hlast, rfl⟩, ?_⟩
      rw [flatten_cons, append_assoc]
  · rintro (hblank | ⟨line, h', hline, hutf8, ⟨lines, last, hlines, hlast, rfl⟩, rfl⟩)
    · exact ⟨[], h, forall_mem_nil _, hblank, rfl⟩
    · refine ⟨line :: lines, last, forall_mem_cons.mpr ⟨⟨hline, hutf8⟩, hlines⟩, hlast, ?_⟩
      rw [flatten_cons, append_assoc]

/-- A run with which bytes start begins with their first line. -/
theorem IsRun.cases {line rest h : Bytes} (hline : IsLine line) (hstarts : h <+: line ++ rest)
    (hrun : IsRun h) : IsBlank line ∧ h = line ∨
      IsUtf8 line ∧ ∃ h', h' <+: rest ∧ IsRun h' ∧ h = line ++ h' := by
  obtain ⟨tail, htail⟩ := hstarts
  have hsplit := splitLine_of_isLine hline rest
  rcases isRun_iff.mp hrun with hblank | ⟨line', h', hline', hutf8, hrun', rfl⟩
  · left
    rw [← htail, splitLine_of_isLine hblank.isLine] at hsplit
    obtain ⟨rfl, -⟩ := Prod.mk.inj hsplit
    exact ⟨hblank, rfl⟩
  · right
    rw [← htail, append_assoc, splitLine_of_isLine hline'] at hsplit
    obtain ⟨rfl, rfl⟩ := Prod.mk.inj hsplit
    exact ⟨hutf8, h', prefix_append _ _, hrun', rfl⟩

theorem isShortestRun_of_isBlank {line : Bytes} (hblank : IsBlank line) (rest h : Bytes) :
    IsShortestRun (line ++ rest) h ↔ h = line := by
  have hself : IsShortestRun (line ++ rest) line := by
    refine ⟨prefix_append _ _, isRun_iff.mpr (.inl hblank), fun h' hstarts hrun => ?_⟩
    rcases hrun.cases hblank.isLine hstarts with ⟨-, rfl⟩ | ⟨-, h'', -, -, rfl⟩
    · exact le_rfl
    · rw [length_append]
      exact Nat.le_add_right _ _
  constructor
  · intro hshort
    have hlength := hshort.le line hself.starts hself.isRun
    exact (prefix_of_prefix_length_le hshort.starts hself.starts hlength).eq_of_length
      (le_antisymm hlength (hself.le h hshort.starts hshort.isRun))
  · rintro rfl
    exact hself

theorem isShortestRun_of_not_isBlank {line : Bytes} (hline : IsLine line) (hutf8 : IsUtf8 line)
    (hblank : ¬ IsBlank line) (rest h : Bytes) :
    IsShortestRun (line ++ rest) h ↔ ∃ h', h = line ++ h' ∧ IsShortestRun rest h' := by
  constructor
  · intro hshort
    rcases hshort.isRun.cases hline hshort.starts with ⟨h, -⟩ | ⟨-, h', hstarts, hrun, rfl⟩
    · exact absurd h hblank
    · refine ⟨h', rfl, hstarts, hrun, fun h'' hstarts'' hrun'' => ?_⟩
      have hlength := hshort.le (line ++ h'') ((prefix_append_right_inj line).mpr hstarts'')
        (isRun_iff.mpr (.inr ⟨line, h'', hline, hutf8, hrun'', rfl⟩))
      rw [length_append, length_append] at hlength
      exact Nat.le_of_add_le_add_left hlength
  · rintro ⟨h', rfl, hshort⟩
    refine ⟨(prefix_append_right_inj line).mpr hshort.starts,
      isRun_iff.mpr (.inr ⟨line, h', hline, hutf8, hshort.isRun, rfl⟩), fun h'' hstarts hrun => ?_⟩
    rcases hrun.cases hline hstarts with ⟨h, -⟩ | ⟨-, h', hstarts', hrun', rfl⟩
    · exact absurd h hblank
    · rw [length_append, length_append]
      exact Nat.add_le_add_left (hshort.le h' hstarts' hrun') _

theorem IsBlank.isUtf8 {line : Bytes} (h : IsBlank line) : IsUtf8 line := by
  rcases h with rfl | rfl
  · exact ⟨_, decode_encode _⟩
  · exact ⟨_, decode_encode _⟩

theorem IsRun.newline_mem {h : Bytes} (hrun : IsRun h) : newline ∈ h := by
  obtain ⟨lines, last, -, hlast, rfl⟩ := hrun
  obtain ⟨text, -, rfl⟩ := hlast.isLine
  simp

/-- A short line is blank if its text is one of the two. -/
theorem isBlank_iff {line : Bytes} {lStr : String} (h : decode line = .ok lStr) :
    line.length < 3 ∧ lStr ∈ ["\r\n", "\n"] ↔ IsBlank line := by
  obtain rfl := decode_eq_ok.mp h
  have hinj (s : String) : encode lStr = encode s ↔ lStr = s := by
    rw [← decode_eq_ok, decode_encode, Except.ok.injEq, eq_comm]
  rw [IsBlank, hinj, hinj, mem_pair]
  refine and_iff_right_of_imp ?_
  rintro (rfl | rfl)
  · decide
  · decide

/-- One pass of the loop. -/
theorem readPartHeadersFrom_eq (totalBytes : ℕ) (s : Stream) :
    (IsBlank s.readline.1 ∧ readPartHeadersFrom totalBytes s =
      .ok (totalBytes + s.readline.1.length, s.readline.2)) ∨
    (IsUtf8 s.readline.1 ∧ ¬ IsBlank s.readline.1 ∧ s.readline.1 ≠ [] ∧
      readPartHeadersFrom totalBytes s =
        readPartHeadersFrom (totalBytes + s.readline.1.length) s.readline.2) ∨
    ((¬ IsUtf8 s.readline.1 ∨ s.readline.1 = []) ∧
      ∃ e, readPartHeadersFrom totalBytes s = .error e) := by
  rw [readPartHeadersFrom]
  cases hdecode : decode s.readline.1 with
  | error e =>
    refine .inr (.inr ⟨.inl ?_, e, rfl⟩)
    rintro ⟨lStr, h⟩
    rw [hdecode] at h
    cases h
  | ok lStr =>
    have hblank := isBlank_iff hdecode
    simp only
    by_cases hif : s.readline.1.length < 3 ∧ lStr ∈ ["\r\n", "\n"]
    · exact .inl ⟨hblank.mp hif, if_pos hif⟩
    · rw [if_neg hif]
      by_cases hzero : s.readline.1.length = 0
      · exact .inr (.inr ⟨.inr (length_eq_zero_iff.mp hzero), _, if_pos hzero⟩)
      · exact .inr (.inl ⟨⟨lStr, hdecode⟩, mt hblank.mpr hif, mt length_eq_zero_iff.mpr hzero,
          if_neg hzero⟩)

/-- The lines that are skipped are the shortest run. -/
theorem readPartHeadersFrom_eq_ok_iff (totalBytes : ℕ) (s : Stream) (n : ℕ) (s' : Stream) :
    readPartHeadersFrom totalBytes s = .ok (n, s') ↔
      ∃ h, IsShortestRun s.data h ∧ n = totalBytes + h.length ∧ s.data = h ++ s'.data ∧
        s'.reads = s.reads := by
  induction hlength : s.data.length using Nat.strong_induction_on generalizing totalBytes s with
  | _ length ih =>
  have happend : s.data = s.readline.1 ++ s.readline.2.data := (splitLine_append s.data).symm
  rcases readPartHeadersFrom_eq totalBytes s with
    ⟨hblank, heq⟩ | ⟨hutf8, hblank, hne, heq⟩ | ⟨hline, e, heq⟩
  · -- a blank line ends the loop
    have hshort (h : Bytes) : IsShortestRun s.data h ↔ h = s.readline.1 := by
      rw [happend]
      exact isShortestRun_of_isBlank hblank _ h
    rw [heq, Except.ok.injEq, Prod.mk.injEq]
    constructor
    · rintro ⟨rfl, rfl⟩
      exact ⟨_, (hshort _).mpr rfl, rfl, happend, rfl⟩
    · rintro ⟨h, hrun, rfl, hdata, hreads⟩
      obtain rfl := (hshort h).mp hrun
      refine ⟨rfl, ?_⟩
      obtain ⟨data, reads⟩ := s'
      rw [happend, append_cancel_left_eq] at hdata
      cases hdata
      cases hreads
      rfl
  · -- another line: the rest of the run is in what follows
    have hlt : s.readline.2.data.length < length := hlength ▸ length_splitLine_snd_lt hne
    rw [heq, ih _ hlt _ _ rfl]
    rcases isLine_or_notMem s.data with hline | hnot
    · have hshort (h : Bytes) : IsShortestRun s.data h ↔
          ∃ h', h = s.readline.1 ++ h' ∧ IsShortestRun s.readline.2.data h' := by
        rw [happend]
        exact isShortestRun_of_not_isBlank hline hutf8 hblank _ h
      constructor
      · rintro ⟨h', hrun, rfl, hdata, hreads⟩
        refine ⟨_, (hshort _).mpr ⟨h', rfl, hrun⟩, ?_, ?_, hreads⟩
        · rw [length_append, Nat.add_assoc]
        · rw [happend, hdata, append_assoc]
      · rintro ⟨h, hrun, rfl, hdata, hreads⟩
        obtain ⟨h', rfl, hrun'⟩ := (hshort h).mp hrun
        refine ⟨h', hrun', ?_, ?_, hreads⟩
        · rw [length_append, Nat.add_assoc]
        · rw [happend, append_assoc, append_cancel_left_eq] at hdata
          exact hdata
    · -- without the end of a line there is no run
      have hnone {data h : Bytes} (hdata : newline ∉ data) : ¬ IsShortestRun data h := fun hrun =>
        hdata (hrun.starts.subset hrun.isRun.newline_mem)
      have hrest : newline ∉ s.readline.2.data := fun hmem => hnot <| by
        rw [happend]
        exact mem_append_right _ hmem
      exact iff_of_false (fun ⟨_, h, _⟩ => hnone hrest h) (fun ⟨_, h, _⟩ => hnone hnot h)
  · -- a line that does not decode, or the end of the stream
    rw [heq]
    refine iff_of_false (fun h => by cases h) ?_
    rintro ⟨h, hrun, -⟩
    rcases isLine_or_notMem s.data with hisLine | hnot
    · have hstarts := hrun.starts
      rw [happend] at hstarts
      rcases hline with hutf8 | hnil
      · rcases hrun.isRun.cases hisLine hstarts with ⟨hblank, -⟩ | ⟨h, -⟩
        · exact hutf8 hblank.isUtf8
        · exact hutf8 h
      · obtain ⟨text, -, htext⟩ := hisLine
        have hlen := congrArg List.length (htext.symm.trans hnil)
        simp at hlen
    · exact hnot (hrun.starts.subset hrun.isRun.newline_mem)

/-! ### Requests -/

theorem length_encode_finalBoundary {contentBoundary : String}
    (hascii : ∀ c ∈ contentBoundary.toList, c.toNat < 128) :
    (encode (finalBoundary contentBoundary)).length = (finalBoundary contentBoundary).length := by
  refine length_encode_of_ascii fun c hc => ?_
  rw [finalBoundary, String.toList_append, String.toList_append, mem_append,
    mem_append] at hc
  rcases hc with (hc | hc) | hc
  · exact ascii_of_all (by decide) c hc
  · exact hascii c hc
  · exact ascii_of_all (by decide) c hc

/-- Reading returns some bytes exactly if the stream starts with them and as many are requested. -/
theorem exists_readLoop_eq_some (split : ℕ → ℕ) {size : ℕ → ℕ}
    (hsize : ∀ n, 0 < n → 0 < size n ∧ size n ≤ n) (s : Stream) (bytesToRead : ℕ)
    (content rest : Bytes) :
    (∃ reads, readLoop split size s [] bytesToRead = (some content, ⟨rest, reads⟩)) ↔
      s.data = content ++ rest ∧ content.length = bytesToRead := by
  obtain ⟨reads, heq⟩ := readLoop_eq split hsize s [] bytesToRead
  rw [heq]
  constructor
  · rintro ⟨reads', h⟩
    split_ifs at h with hle
    · cases h
      exact ⟨(take_append_drop _ _).symm, length_take_of_le hle⟩
    · cases h
  · rintro ⟨hdata, rfl⟩
    have hle : content.length ≤ s.data.length := by
      rw [hdata, length_append]
      exact Nat.le_add_right _ _
    refine ⟨reads, ?_⟩
    rw [if_pos hle, hdata, take_left, drop_left, nil_append]

theorem min_readChunkSize (n : ℕ) (hn : 0 < n) : 0 < min readChunkSize n ∧ min readChunkSize n ≤ n :=
  ⟨lt_min (by decide) hn, min_le_right _ _⟩

theorem exists_readContent_eq_ok (sha512 : Bytes → Bytes) (split : ℕ → ℕ) {remainingBytes : ℤ}
    {expectDigest : Bytes} (s : Stream) (file rest : Bytes) :
    (∃ reads, readContent sha512 split remainingBytes expectDigest s = .ok (file, ⟨rest, reads⟩)) ↔
      s.data = file ++ rest ∧ file.length = remainingBytes.toNat ∧ sha512 file = expectDigest := by
  rw [← and_assoc, ← exists_readLoop_eq_some split min_readChunkSize]
  constructor
  · rintro ⟨reads, h⟩
    rw [readContent] at h
    cases hread : readToFile split s remainingBytes with
    | mk content s' =>
    rw [hread] at h
    cases content with
    | none => cases h
    | some content =>
      simp only at h
      split_ifs at h with hdigest
      cases h
      exact ⟨⟨reads, hread⟩, not_not.mp hdigest⟩
  · rintro ⟨⟨reads, hread⟩, hdigest⟩
    refine ⟨reads, ?_⟩
    have hfile : readToFile split s remainingBytes = (some file, ⟨rest, reads⟩) := hread
    rw [readContent, hfile]
    exact if_neg (not_not.mpr hdigest)

theorem exists_readTail_eq_ok (split : ℕ → ℕ) {boundary : String}
    (hboundary : (encode boundary).length = boundary.length) (s : Stream) (rest : Bytes) :
    (∃ reads, readTail split boundary s = .ok ⟨rest, reads⟩) ↔
      s.data = encode boundary ++ rest := by
  have hid (n : ℕ) (hn : 0 < n) : 0 < id n ∧ id n ≤ n := ⟨hn, le_rfl⟩
  have hread := exists_readLoop_eq_some split hid s boundary.length (encode boundary) rest
  rw [hboundary, eq_self_iff_true, and_true] at hread
  rw [← hread]
  constructor
  · rintro ⟨reads, h⟩
    rw [readTail] at h
    cases hmem : readToMemory split s boundary.length with
    | mk tail s' =>
    rw [hmem] at h
    cases tail with
    | none => cases h
    | some tail =>
      obtain ⟨text, htext, h⟩ := Except.bind_eq_ok.mp h
      split_ifs at h with hne
      cases h
      obtain rfl := not_not.mp hne
      rw [decode_eq_ok.mp htext]
      exact ⟨reads, hmem⟩
  · rintro ⟨reads, hmem⟩
    refine ⟨reads, ?_⟩
    have htail : readToMemory split s boundary.length = (some (encode boundary), ⟨rest, reads⟩) :=
      hmem
    rw [readTail, htail]
    simp only [decode_encode, Except.ok_bind]
    exact if_neg (not_not.mpr rfl)

theorem length_content_iff {contentLength : ℤ} {contentBoundary : String}
    (hascii : ∀ c ∈ contentBoundary.toList, c.toNat < 128) (file : Bytes) (n : ℕ) :
    file.length =
        (contentLength - (finalBoundary contentBoundary).length - ((0 + n : ℕ) : ℤ)).toNat ↔
      (file.length : ℤ) =
        max 0 (contentLength - n - (encode (finalBoundary contentBoundary)).length) := by
  rw [length_encode_finalBoundary hascii]
  omega

/-- A request that is well formed is read. -/
theorem exists_handleUploadRequest {sha512 : Bytes → Bytes} {split : ℕ → ℕ} {contentLength : ℤ}
    {contentBoundary : String} (hascii : ∀ c ∈ contentBoundary.toList, c.toNat < 128)
    {expectDigest : Bytes} {stream : Stream} {file h rest : Bytes}
    (hdata : stream.data = h ++ file ++ encode (finalBoundary contentBoundary) ++ rest)
    (hrun : IsShortestRun stream.data h)
    (hfile : (file.length : ℤ) =
      max 0 (contentLength - h.length - (encode (finalBoundary contentBoundary)).length))
    (hdigest : sha512 file = expectDigest) :
    ∃ stream', handleUploadRequest sha512 split contentLength contentBoundary expectDigest stream =
      .ok (file, stream') := by
  rw [append_assoc, append_assoc] at hdata
  have hheaders := (readPartHeadersFrom_eq_ok_iff 0 stream (0 + h.length)
    ⟨file ++ (encode (finalBoundary contentBoundary) ++ rest), stream.reads⟩).mpr
      ⟨h, hrun, rfl, hdata, rfl⟩
  obtain ⟨reads₁, hcontent⟩ := (exists_readContent_eq_ok sha512 split
    ⟨file ++ (encode (finalBoundary contentBoundary) ++ rest), stream.reads⟩ file _).mpr
      ⟨rfl, (length_content_iff hascii file _).mpr hfile, hdigest⟩
  obtain ⟨reads₂, htail⟩ := (exists_readTail_eq_ok split (length_encode_finalBoundary hascii)
    ⟨encode (finalBoundary contentBoundary) ++ rest, reads₁⟩ rest).mpr rfl
  refine ⟨⟨rest, reads₂⟩, ?_⟩
  simp only [handleUploadRequest, readPartHeaders, hheaders, hcontent, htail, Except.ok_bind]
  rfl

/-- **Uploads are parsed exactly.** A request returns with the given content in the file if and only
if its stream starts with the shortest run of lines up to a blank one, the content and the final
boundary, the content has as many bytes as are left for it and its hash is the expected one. -/
theorem handleUploadRequest_eq_ok_iff (sha512 : Bytes → Bytes) (split : ℕ → ℕ)
    (contentLength : ℤ) {contentBoundary : String}
    (hascii : ∀ c ∈ contentBoundary.toList, c.toNat < 128) (expectDigest : Bytes) (stream : Stream)
    (file : Bytes) :
    (∃ stream', handleUploadRequest sha512 split contentLength contentBoundary expectDigest stream =
      .ok (file, stream')) ↔
    ∃ h rest, stream.data = h ++ file ++ encode (finalBoundary contentBoundary) ++ rest ∧
      IsShortestRun stream.data h ∧
      (file.length : ℤ) =
        max 0 (contentLength - h.length - (encode (finalBoundary contentBoundary)).length) ∧
      sha512 file = expectDigest := by
  constructor
  · rintro ⟨stream', hok⟩
    obtain ⟨⟨headerBytes, stream₁⟩, hheaders, hok⟩ := Except.bind_eq_ok.mp hok
    obtain ⟨⟨file', stream₂⟩, hcontent, hok⟩ := Except.bind_eq_ok.mp hok
    obtain ⟨stream₃, htail, hok⟩ := Except.bind_eq_ok.mp hok
    cases hok
    obtain ⟨h, hrun, rfl, hdata, -⟩ := (readPartHeadersFrom_eq_ok_iff 0 stream _ _).mp hheaders
    obtain ⟨hdata₁, hfile, hdigest⟩ :=
      (exists_readContent_eq_ok sha512 split stream₁ _ _).mp ⟨_, hcontent⟩
    have hdata₂ := (exists_readTail_eq_ok split (length_encode_finalBoundary hascii) stream₂ _).mp
      ⟨_, htail⟩
    refine ⟨h, stream'.data, ?_, hrun, (length_content_iff hascii file _).mp hfile, hdigest⟩
    rw [hdata, hdata₁, hdata₂, append_assoc, append_assoc]
  · rintro ⟨h, rest, hdata, hrun, hfile, hdigest⟩
    exact exists_handleUploadRequest hascii hdata hrun hfile hdigest

/-- A content that contains a blank line and the final boundary, after a blank line, read one byte at
a time. -/
theorem handleUploadRequest_boundary_in_content :
    ∃ stream', handleUploadRequest id (fun _ => 0) 20 "b" (encode "\n\r\n--b--\r\n")
      ⟨encode "\n\n\r\n--b--\r\n\r\n--b--\r\n", 0⟩ = .ok (encode "\n\r\n--b--\r\n", stream') := by
  refine (handleUploadRequest_eq_ok_iff id (fun _ => 0) 20 (ascii_of_all (by decide)) _ _ _).mpr
    ⟨encode "\n", [], by decide, ?_, by decide, rfl⟩
  exact (isShortestRun_of_isBlank (.inr rfl) (encode "\n\r\n--b--\r\n\r\n--b--\r\n") _).mpr rfl

end Zeth.Coordinator
