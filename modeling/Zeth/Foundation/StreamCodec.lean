import Mathlib.Data.List.Basic
import Zeth.Foundation.Bytes

/-!
# Values on a stream of bytes

A value is written to a stream as a string of bytes and read back from the front of a stream, which
leaves the rest. Values are put together by writing one after the other.

## Main definitions

* `StreamCodec`, `StreamCodec.fixed`, `StreamCodec.pair`, `StreamCodec.map`.
* `StreamCodec.readAll`: the values on a stream, up to its end.

## Main results

* `StreamCodec.readAll_flatMap`: values written one after the other are read back.
-/

open ByteString

/-- A way to write the values of a type to a stream and to read them from one. -/
structure StreamCodec (α : Type*) where
  write : α → Bytes
  /-- The value at the front and the rest of the stream; nothing when there is no value. -/
  read : Bytes → Option (α × Bytes)
  read_write : ∀ a rest, read (write a ++ rest) = some (a, rest)
  length_read_le : ∀ {bs a rest}, read bs = some (a, rest) → rest.length ≤ bs.length

namespace StreamCodec

variable {α β : Type*}

/-! ### Codecs -/

/-- Strings of `n` bytes. -/
def fixed (n : ℕ) : StreamCodec {bs : Bytes // bs.length = n} where
  write bs := bs
  read bs := if h : n ≤ bs.length then
    some (⟨bs.take n, List.length_take_of_le h⟩, bs.drop n) else none
  read_write := by
    rintro ⟨bs, rfl⟩ rest
    simp
  length_read_le := by
    intro bs a rest h
    split_ifs at h
    cases h
    rw [List.length_drop]
    exact Nat.sub_le _ _

/-- One value after another. -/
def pair (c : StreamCodec α) (d : StreamCodec β) : StreamCodec (α × β) where
  write p := c.write p.1 ++ d.write p.2
  read bs := (c.read bs).bind fun p => (d.read p.2).map fun q => ((p.1, q.1), q.2)
  read_write := by
    rintro ⟨a, b⟩ rest
    rw [List.append_assoc, c.read_write, Option.bind_some, d.read_write, Option.map_some]
  length_read_le := by
    intro bs p rest h
    obtain ⟨⟨a, rest₁⟩, ha, hrest⟩ := Option.bind_eq_some_iff.mp h
    obtain ⟨⟨b, rest₂⟩, hb, heq⟩ := Option.map_eq_some_iff.mp hrest
    cases heq
    exact (d.length_read_le hb).trans (c.length_read_le ha)

/-- Values that stand for values of another type. -/
def map (c : StreamCodec α) (e : α ≃ β) : StreamCodec β where
  write b := c.write (e.symm b)
  read bs := (c.read bs).map fun p => (e p.1, p.2)
  read_write := by
    intro b rest
    rw [c.read_write, Option.map_some, e.apply_symm_apply]
  length_read_le := by
    intro bs b rest h
    obtain ⟨⟨a, rest'⟩, ha, heq⟩ := Option.map_eq_some_iff.mp h
    cases heq
    exact c.length_read_le ha

/-! ### Whole streams -/

/-- Reading takes at least one byte. -/
class Consuming (c : StreamCodec α) : Prop where
  length_read_lt : ∀ {bs a rest}, c.read bs = some (a, rest) → rest.length < bs.length

theorem length_read_lt {c : StreamCodec α} [c.Consuming] {bs : Bytes} {a : α} {rest : Bytes}
    (h : c.read bs = some (a, rest)) : rest.length < bs.length :=
  Consuming.length_read_lt h

instance consuming_fixed (n : ℕ) [NeZero n] : (fixed n).Consuming where
  length_read_lt := by
    intro bs a rest h
    have hpos := NeZero.pos n
    simp only [fixed] at h
    split_ifs at h
    cases h
    rw [List.length_drop]
    omega

instance consuming_pair (c : StreamCodec α) (d : StreamCodec β) [c.Consuming] :
    (c.pair d).Consuming where
  length_read_lt := by
    intro bs p rest h
    obtain ⟨⟨a, rest₁⟩, ha, hrest⟩ := Option.bind_eq_some_iff.mp h
    obtain ⟨⟨b, rest₂⟩, hb, heq⟩ := Option.map_eq_some_iff.mp hrest
    cases heq
    exact (d.length_read_le hb).trans_lt (length_read_lt ha)

instance consuming_map (c : StreamCodec α) (e : α ≃ β) [c.Consuming] : (c.map e).Consuming where
  length_read_lt := by
    intro bs b rest h
    obtain ⟨⟨a, rest'⟩, ha, heq⟩ := Option.map_eq_some_iff.mp h
    cases heq
    exact length_read_lt ha

/-- The values on a stream up to its end; nothing when something else comes before the end. -/
def readAll (c : StreamCodec α) [c.Consuming] (stream : Bytes) : Option (List α) :=
  if stream = [] then some []
  else
    match _h : c.read stream with
    | none => none
    | some (a, rest) => (c.readAll rest).map (a :: ·)
termination_by stream.length
decreasing_by exact length_read_lt ‹_›

@[simp] theorem readAll_nil (c : StreamCodec α) [c.Consuming] : c.readAll [] = some [] := by
  rw [readAll, if_pos rfl]

theorem readAll_of_read {c : StreamCodec α} [c.Consuming] {stream rest : Bytes} {a : α}
    (h : c.read stream = some (a, rest)) : c.readAll stream = (c.readAll rest).map (a :: ·) := by
  have hne : stream ≠ [] := by
    rintro rfl
    exact Nat.not_lt_zero _ (length_read_lt h)
  rw [readAll, if_neg hne]
  split
  · next h' => rw [h] at h'; cases h'
  · next h' => rw [h] at h'; cases h'; rfl

/-- Values written one after the other are read back. -/
theorem readAll_flatMap (c : StreamCodec α) [c.Consuming] (values : List α) :
    c.readAll (values.flatMap c.write) = some values := by
  induction values with
  | nil => exact c.readAll_nil
  | cons a values ih =>
    rw [List.flatMap_cons, readAll_of_read (c.read_write a _), ih, Option.map_some]

theorem readAll_write (c : StreamCodec α) [c.Consuming] (a : α) :
    c.readAll (c.write a) = some [a] := by
  have h := c.readAll_flatMap [a]
  rwa [List.flatMap_singleton] at h

end StreamCodec
