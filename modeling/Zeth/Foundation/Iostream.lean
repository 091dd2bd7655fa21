import Mathlib.Algebra.BigOperators.Group.List.Basic
import Mathlib.Data.List.Basic
import Zeth.Foundation.Numerals

/-!
# Streams of C++

Unformatted input and output of `std::istream` and `std::ostream` over a stream buffer. A buffer
moves what it can and returns how much that was; the stream is no longer good once a call was not
served in full, and from then on moves nothing.

## Main definitions

* `Iostream.Ios`, `Iostream.Ios.read`, `Iostream.Ios.write`.
* `Iostream.getContent`: a buffer with a fixed content.
* `Iostream.Sink`: a buffer that accepts what it may, `Iostream.Sink.counts`: what it accepts of
  some writes one after the other.
* `Iostream.StreamingHash`: a hash that takes its input in pieces.

## Main results

* `Iostream.read_getContent_of_le`, `Iostream.length_read_getContent`: a read from a fixed content.
* `Iostream.Sink.count_write_le`.
-/

namespace Iostream

variable {α σ : Type*}

/-- A stream over a buffer of type `σ`. -/
structure Ios (σ : Type*) where
  buffer : σ
  /-- `good()`. -/
  good : Bool

/-- `read(s, n)` of an input stream, over `sgetn` of its buffer. The argument `target` holds the `n`
elements at `s` before the call; the result has those after it, and `gcount()`. -/
def Ios.read (sgetn : σ → List α → σ × List α × ℕ) (s : Ios σ) (target : List α) :
    Ios σ × List α × ℕ :=
  if s.good then
    let (buffer, filled, count) := sgetn s.buffer target
    (⟨buffer, count == target.length⟩, filled, count)
  else (s, target, 0)

/-- `write(s, n)` of an output stream, over `sputn` of its buffer, and how many elements were
accepted. -/
def Ios.write (sputn : σ → List α → σ × ℕ) (s : Ios σ) (data : List α) : Ios σ × ℕ :=
  if s.good then
    let (buffer, count) := sputn s.buffer data
    (⟨buffer, count == data.length⟩, count)
  else (s, 0)

/-! ### A fixed content -/

/-- `sgetn` of a buffer with a content: as much of `target` is overwritten as there is. -/
def getContent (content target : List α) : List α × List α × ℕ :=
  (content.drop target.length, content.take target.length ++ target.drop content.length,
    min target.length content.length)

theorem read_getContent_of_le {content target : List α} (h : target.length ≤ content.length) :
    (Ios.mk content true).read getContent target =
      (⟨content.drop target.length, true⟩, content.take target.length, target.length) := by
  simp only [Ios.read, if_true, getContent, List.drop_of_length_le h, List.append_nil,
    Nat.min_eq_left h, beq_self_eq_true]

/-- What is read is taken from the content. -/
theorem length_read_getContent (s : Ios (List α)) (target : List α) :
    (s.read getContent target).2.2 + (s.read getContent target).1.buffer.length =
      s.buffer.length := by
  rw [Ios.read]
  split_ifs with hgood
  · simp only [getContent, List.length_drop]
    omega
  · exact Nat.zero_add _

/-! ### Sinks -/

/-- A buffer that accepts at most what it is given. -/
structure Sink (α σ : Type*) where
  sputn : σ → List α → σ × ℕ
  sputn_le : ∀ s data, (sputn s data).2 ≤ data.length

namespace Sink

variable (K : Sink α σ)

theorem count_write_le (s : Ios σ) (data : List α) :
    (s.write K.sputn data).2 ≤ data.length := by
  rw [Ios.write]
  split_ifs with hgood
  · exact K.sputn_le s.buffer data
  · exact Nat.zero_le _

/-- How much is accepted of each of some writes. -/
def counts (s : Ios σ) : List (List α) → List ℕ
  | [] => []
  | data :: datas => (s.write K.sputn data).2 :: counts (s.write K.sputn data).1 datas

end Sink

/-! ### Hashes -/

/-- A hash that takes its input in pieces. -/
structure StreamingHash (α δ : Type*) where
  State : Type
  init : State
  update : State → List α → State
  final : State → δ
  update_nil : ∀ s, update s [] = s
  update_append : ∀ s data data', update s (data ++ data') = update (update s data) data'

/-- The hash of the whole input. -/
def StreamingHash.hash {δ : Type*} (H : StreamingHash α δ) (data : List α) : δ :=
  H.final (H.update H.init data)

/-- The input itself, the hash without collisions. -/
def StreamingHash.identity (α : Type) : StreamingHash α (List α) where
  State := List α
  init := []
  update := (· ++ ·)
  final := id
  update_nil := List.append_nil
  update_append s data data' := (List.append_assoc s data data').symm

end Iostream
