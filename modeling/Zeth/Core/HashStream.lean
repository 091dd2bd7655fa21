import Zeth.Foundation.Bytes
import Zeth.Foundation.Iostream

/-!
# Streams that hash

`hash_istream_wrapper` and `hash_ostream_wrapper` pass data on to an inner stream and hash it on the
way (`libzeth/core/hash_stream.tcc`). Their buffer reports every call as served in full, and hashes
as much as was asked for, whatever the inner stream has done. So what is reported and hashed is what
passed through if and only if the inner stream has served every call in full: after a short read the
hash covers bytes that the caller's buffer held before, and after a failed write bytes that were
written nowhere.

## Main definitions

* `Core.HashStreambufWrapper` with `xsgetn` and `xsputn`, `Core.HashStreamWrapper`.
* `Core.HashStreamWrapper.reads`, `Core.HashStreamWrapper.writes`: calls one after the other.
* `Core.IsFaithfulRead`, `Core.IsFaithfulWrite`: what is reported and hashed is what passed through.

## Main results

* `Core.hashStream_isFaithful_iff`.
-/

namespace Zeth.Core

open ByteString Iostream List

variable {δ σ : Type} {H : StreamingHash Byte δ}

/-- `hash_streambuf_wrapper`, with an inner stream over a buffer of type `σ`. -/
structure HashStreambufWrapper (H : StreamingHash Byte δ) (σ : Type) where
  hashState : H.State
  inner : Ios σ

/-- `xsgetn`, with the bytes at `s` before and after. -/
def HashStreambufWrapper.xsgetn (w : HashStreambufWrapper H Bytes) (s : Bytes) :
    HashStreambufWrapper H Bytes × Bytes × ℕ :=
  let (inner, filled, _) := w.inner.read getContent s
  (⟨H.update w.hashState filled, inner⟩, filled, s.length)

/-- `xsputn`. -/
def HashStreambufWrapper.xsputn (K : Sink Byte σ) (w : HashStreambufWrapper H σ) (s : Bytes) :
    HashStreambufWrapper H σ × ℕ :=
  let (inner, _) := w.inner.write K.sputn s
  (⟨H.update w.hashState s, inner⟩, s.length)

/-- `hash_istream_wrapper` and `hash_ostream_wrapper`. -/
abbrev HashStreamWrapper (H : StreamingHash Byte δ) (σ : Type) := Ios (HashStreambufWrapper H σ)

/-- What a call has reported, and the bytes that have passed between the inner stream and the
caller. -/
structure Call where
  reported : ℕ
  passed : Bytes

/-- The calls have reported what has passed. -/
def AreReported (calls : List Call) : Prop := ∀ call ∈ calls, call.reported = call.passed.length

/-- All bytes that have passed. -/
def passed (calls : List Call) : Bytes := calls.flatMap Call.passed

theorem passed_cons (call : Call) (calls : List Call) :
    passed (call :: calls) = call.passed ++ passed calls := flatMap_cons

theorem sum_reported {calls : List Call} (h : AreReported calls) :
    (calls.map Call.reported).sum = (passed calls).length := by
  rw [passed, length_flatMap]
  exact congrArg List.sum (map_congr_left h)

namespace HashStreamWrapper

/-- The constructors. -/
def new (H : StreamingHash Byte δ) (inner : Ios σ) : HashStreamWrapper H σ :=
  ⟨⟨H.init, inner⟩, true⟩

/-- `get_hash`. -/
def getHash (w : HashStreamWrapper H σ) : δ := H.final w.buffer.hashState

/-! ### Reads -/

/-- `read` on buffers one after the other, each given by what it holds before the call. The bytes
delivered are those that the inner stream has put into the buffer. -/
def reads (w : HashStreamWrapper H Bytes) : List Bytes → HashStreamWrapper H Bytes × List Call
  | [] => (w, [])
  | target :: targets =>
    let (next, _, gcount) := w.read HashStreambufWrapper.xsgetn target
    let (_, filled, count) := w.buffer.inner.read getContent target
    let (last, calls) := reads next targets
    (last, ⟨gcount, filled.take count⟩ :: calls)

/-- A call as the wrapper makes it. -/
theorem read_eq (hashState : H.State) (inner : Ios Bytes) (target : Bytes) :
    (Ios.mk (HashStreambufWrapper.mk hashState inner) true).read HashStreambufWrapper.xsgetn
        target =
      (⟨⟨H.update hashState (inner.read getContent target).2.1,
        (inner.read getContent target).1⟩, true⟩, (inner.read getContent target).2.1,
        target.length) := by
  simp only [Ios.read, if_true, HashStreambufWrapper.xsgetn, beq_self_eq_true]

theorem reads_cons (hashState : H.State) (inner : Ios Bytes) (target : Bytes)
    (targets : List Bytes) :
    reads ⟨⟨hashState, inner⟩, true⟩ (target :: targets) =
      let read := inner.read getContent target
      let rest := reads ⟨⟨H.update hashState read.2.1, read.1⟩, true⟩ targets
      (rest.1, ⟨target.length, read.2.1.take read.2.2⟩ :: rest.2) := by
  simp only [reads, read_eq]

/-- Every call reports what was asked for. -/
theorem reported_reads (hashState : H.State) (inner : Ios Bytes) (targets : List Bytes) :
    (reads ⟨⟨hashState, inner⟩, true⟩ targets).2.map Call.reported = targets.map List.length := by
  induction targets generalizing hashState inner with
  | nil => rfl
  | cons target targets ih =>
    rw [reads_cons, map_cons, map_cons]
    exact congrArg (target.length :: ·) (ih _ _)

/-- No more is delivered than there is. -/
theorem length_passed_reads_le (hashState : H.State) (inner : Ios Bytes)
    (targets : List Bytes) :
    (passed (reads ⟨⟨hashState, inner⟩, true⟩ targets).2).length ≤ inner.buffer.length := by
  induction targets generalizing hashState inner with
  | nil => exact Nat.zero_le _
  | cons target targets ih =>
    have hcount := length_read_getContent inner target
    rw [reads_cons, passed_cons, length_append, length_take]
    have hrest := ih (H.update hashState (inner.read getContent target).2.1)
      (inner.read getContent target).1
    omega

/-- While the content lasts, what is asked for is delivered and hashed. -/
theorem reads_of_sum_le (hashState : H.State) (content : Bytes) (targets : List Bytes)
    (h : (targets.map List.length).sum ≤ content.length) :
    let run := reads ⟨⟨hashState, ⟨content, true⟩⟩, true⟩ targets
    AreReported run.2 ∧ run.1.buffer.hashState = H.update hashState (passed run.2) := by
  induction targets generalizing hashState content with
  | nil => exact ⟨fun call hcall => absurd hcall not_mem_nil, (H.update_nil hashState).symm⟩
  | cons target targets ih =>
    rw [map_cons, sum_cons] at h
    have hread := @read_getContent_of_le _ content target (by omega)
    have hlen : (content.take target.length).length = target.length := by
      rw [length_take]
      omega
    have htake : (content.take target.length).take target.length = content.take target.length := by
      rw [take_take, Nat.min_self]
    obtain ⟨hreported, hhash⟩ := ih (H.update hashState (content.take target.length))
      (content.drop target.length) (by rw [length_drop]; omega)
    simp only [reads_cons, hread, htake, passed_cons, H.update_append]
    exact ⟨forall_mem_cons.mpr ⟨hlen.symm, hreported⟩, hhash⟩

/-! ### Writes -/

/-- `write` on byte strings one after the other. The bytes accepted are the first ones, as many as
the inner stream has accepted. -/
def writes (K : Sink Byte σ) (w : HashStreamWrapper H σ) :
    List Bytes → HashStreamWrapper H σ × List Call
  | [] => (w, [])
  | data :: datas =>
    let (next, count) := w.write (HashStreambufWrapper.xsputn K) data
    let (_, accepted) := w.buffer.inner.write K.sputn data
    let (last, calls) := writes K next datas
    (last, ⟨count, data.take accepted⟩ :: calls)

variable (K : Sink Byte σ)

theorem writes_cons (hashState : H.State) (inner : Ios σ) (data : Bytes) (datas : List Bytes) :
    writes K ⟨⟨hashState, inner⟩, true⟩ (data :: datas) =
      let write := inner.write K.sputn data
      let rest := writes K ⟨⟨H.update hashState data, write.1⟩, true⟩ datas
      (rest.1, ⟨data.length, data.take write.2⟩ :: rest.2) := by
  simp only [writes, Ios.write, if_true, HashStreambufWrapper.xsputn, beq_self_eq_true]

/-- The calls report what was accepted if and only if everything was. -/
theorem areReported_writes_iff (hashState : H.State) (inner : Ios σ) (datas : List Bytes) :
    AreReported (writes K ⟨⟨hashState, inner⟩, true⟩ datas).2 ↔
      K.counts inner datas = datas.map List.length := by
  induction datas generalizing hashState inner with
  | nil => exact iff_of_true (fun call hcall => absurd hcall not_mem_nil) rfl
  | cons data datas ih =>
    have hle := K.count_write_le inner data
    rw [writes_cons, AreReported, forall_mem_cons, Sink.counts, map_cons,
      cons_eq_cons]
    refine and_congr ?_ (ih _ _)
    rw [length_take, Nat.min_eq_left hle, eq_comm]

/-- What is accepted in full is hashed. -/
theorem hashState_writes (hashState : H.State) (inner : Ios σ) (datas : List Bytes)
    (h : K.counts inner datas = datas.map List.length) :
    (writes K ⟨⟨hashState, inner⟩, true⟩ datas).1.buffer.hashState =
      H.update hashState (passed (writes K ⟨⟨hashState, inner⟩, true⟩ datas).2) := by
  induction datas generalizing hashState inner with
  | nil => exact (H.update_nil hashState).symm
  | cons data datas ih =>
    rw [Sink.counts, map_cons, cons_eq_cons] at h
    simp only [writes_cons, passed_cons, h.1, take_length, H.update_append]
    exact ih _ _ h.2

end HashStreamWrapper

/-! ### What is reported and hashed -/

open HashStreamWrapper

/-- Reads from an inner stream of the given content report the bytes delivered, and their hash is
that of these bytes. -/
def IsFaithfulRead (H : StreamingHash Byte δ) (content : Bytes) (targets : List Bytes) : Prop :=
  let run := (new H ⟨content, true⟩).reads targets
  AreReported run.2 ∧ run.1.getHash = H.hash (passed run.2)

/-- Writes to an inner stream report the bytes accepted, and their hash is that of these bytes. -/
def IsFaithfulWrite (H : StreamingHash Byte δ) (K : Sink Byte σ) (inner : Ios σ)
    (datas : List Bytes) : Prop :=
  let run := (new H inner).writes K datas
  AreReported run.2 ∧ run.1.getHash = H.hash (passed run.2)

/-- What is reported and hashed is what passes through if and only if the inner stream serves every
call in full. -/
theorem hashStream_isFaithful_iff (H : StreamingHash Byte δ) (content : Bytes)
    (targets : List Bytes) (K : Sink Byte σ) (inner : Ios σ) (datas : List Bytes) :
    (IsFaithfulRead H content targets ↔ (targets.map List.length).sum ≤ content.length) ∧
    (IsFaithfulWrite H K inner datas ↔ K.counts inner datas = datas.map List.length) := by
  constructor
  · constructor
    · rintro ⟨hreported, -⟩
      calc (targets.map List.length).sum
        _ = (((new H ⟨content, true⟩).reads targets).2.map Call.reported).sum :=
          congrArg List.sum (reported_reads H.init ⟨content, true⟩ targets).symm
        _ = (passed ((new H ⟨content, true⟩).reads targets).2).length := sum_reported hreported
        _ ≤ content.length := length_passed_reads_le H.init ⟨content, true⟩ targets
    · intro h
      obtain ⟨hreported, hhash⟩ := reads_of_sum_le H.init content targets h
      exact ⟨hreported, congrArg H.final hhash⟩
  · have hcalls := areReported_writes_iff (H := H) K H.init inner datas
    constructor
    · exact fun h => hcalls.mp h.1
    · intro h
      exact ⟨hcalls.mpr h, congrArg H.final (hashState_writes K H.init inner datas h)⟩

/-- A sink that is full. -/
def fullSink : Sink Byte Unit where
  sputn s _ := (s, 0)
  sputn_le _ _ := Nat.zero_le _

/-- One byte asked for at the end of the inner stream is reported as delivered, and one byte is
hashed that the full inner stream does not accept. -/
theorem hashStream_not_isFaithful :
    ¬ IsFaithfulRead (StreamingHash.identity Byte) [] [[7]] ∧
      ((new (StreamingHash.identity Byte) ⟨[], true⟩).reads [[7]]).1.getHash = [7] ∧
      ¬ IsFaithfulWrite (StreamingHash.identity Byte) fullSink ⟨(), true⟩ [[7]] := by
  refine ⟨fun h => ?_, rfl, fun h => ?_⟩
  · have hcall := h.1 ⟨1, []⟩ (mem_singleton_self _)
    exact absurd hcall (by decide)
  · have hcall := h.1 ⟨1, []⟩ (mem_singleton_self _)
    exact absurd hcall (by decide)

end Zeth.Core
