import Zeth.Foundation.Bytes
import Zeth.Foundation.Except

/-!
# Readers of streams

A reader takes tokens from the front of a stream and returns a value, or fails. That it reads a
value from some tokens means that it takes just these, whatever comes after them. So values that are
written one after the other are read one after the other.

## Main definitions

* `Reader`, `Reader.takeN`, `Reader.repeatN`, `Reader.nat`.
* `Reads`: a reader returns a value and takes given tokens.

## Main results

* `Reads.bind`, `Reads.repeatN`, `Reads.nat`, `Reads.injective`.
-/

open ByteString

/-- Readers of tokens of type `σ`. -/
abbrev Reader (ε σ : Type) := StateT (List σ) (Except ε)

variable {ε σ α β : Type}

namespace Reader

/-- The next `n` tokens. -/
def takeN (e : ε) (n : ℕ) : Reader ε σ (List σ) := fun ts =>
  if n ≤ ts.length then .ok (ts.take n, ts.drop n) else .error e

/-- One reader `n` times. -/
def repeatN (r : Reader ε σ α) : ℕ → Reader ε σ (List α)
  | 0 => pure []
  | n + 1 => do
    let a ← r
    let as ← repeatN r n
    return a :: as

/-- A number of `n` bytes, the least significant one first. -/
def nat (e : ε) (n : ℕ) : Reader ε Byte ℕ := do
  let bs ← takeN e n
  return fromBig bs.reverse

end Reader

/-- A number as `n` bytes, the least significant one first. -/
def writeNat (n x : ℕ) : Bytes := (toBig n x).reverse

/-- A reader returns a value and takes just the given tokens. -/
def Reads (r : Reader ε σ α) (ts : List σ) (a : α) : Prop :=
  ∀ rest, r (ts ++ rest) = .ok (a, rest)

namespace Reads

variable {r : Reader ε σ α} {f : α → Reader ε σ β} {ts us : List σ} {a a' : α} {b : β}

theorem pure (a : α) : Reads (pure a : Reader ε σ α) [] a := fun _ => rfl

/-- One value after another. -/
theorem bind (hr : Reads r ts a) (hf : Reads (f a) us b) : Reads (r >>= f) (ts ++ us) b := by
  intro rest
  change (r (ts ++ us ++ rest) >>= fun p => f p.1 p.2) = .ok (b, rest)
  rw [List.append_assoc, hr, Except.ok_bind, hf]

/-- A step that takes nothing, before a value. -/
theorem nil_bind (hr : Reads r [] a) (hf : Reads (f a) us b) : Reads (r >>= f) us b := hr.bind hf

/-- A step that takes nothing, after a value. -/
theorem bind_nil (hr : Reads r ts a) (hf : Reads (f a) [] b) : Reads (r >>= f) ts b := by
  have h := hr.bind hf
  rwa [List.append_nil] at h

/-- A value from which another is computed. -/
theorem map (hr : Reads r ts a) {g : α → β} (hg : g a = b) :
    Reads (r >>= fun a => Pure.pure (g a)) ts b := by
  subst hg
  exact hr.bind_nil (Reads.pure (g a))

/-- The tokens determine the value. -/
theorem injective (ha : Reads r ts a) (ha' : Reads r ts a') : a = a' :=
  (Prod.mk.inj (Except.ok.inj ((ha []).symm.trans (ha' [])))).1

theorem takeN (e : ε) (ts : List σ) : Reads (Reader.takeN e ts.length) ts ts := by
  intro rest
  have hle : ts.length ≤ (ts ++ rest).length := by
    rw [List.length_append]
    exact Nat.le_add_right _ _
  rw [Reader.takeN, if_pos hle, List.take_left, List.drop_left]

/-- Values of a list one after the other. -/
theorem repeatN {write : α → List σ} {as : List α} (h : ∀ a ∈ as, Reads r (write a) a) :
    Reads (Reader.repeatN r as.length) (as.flatMap write) as := by
  induction as with
  | nil => exact Reads.pure []
  | cons a as ih =>
    obtain ⟨ha, has⟩ := List.forall_mem_cons.mp h
    rw [List.flatMap_cons]
    exact ha.bind ((ih has).map rfl)

/-- A number that fits is read back. -/
theorem nat (e : ε) {n x : ℕ} (hx : x < 256 ^ n) : Reads (Reader.nat e n) (writeNat n x) x := by
  have htake := takeN e (writeNat n x)
  rw [writeNat, List.length_reverse, length_toBig] at htake
  refine htake.map ?_
  rw [List.reverse_reverse, fromBig_toBig, Nat.mod_eq_of_lt hx]

end Reads
