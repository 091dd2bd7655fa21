import Mathlib.Data.List.Induction
import Mathlib.Tactic.Ring
import Zeth.Foundation.Numerals

/-!
# Byte strings

Byte strings and the numbers they denote, the most significant byte first.

## Main definitions

* `ByteString.Byte`, `ByteString.Bytes`, `ByteString.fromBig`, `ByteString.toBig`,
  `ByteString.toBits`.

## Main results

* `List.getElem?_flatten_of_length`, `List.take_drop_flatMap_of_length`.
* `ByteString.fromBig_toBig`, `ByteString.toBig_inj`, `ByteString.flatMap_injective`.
-/

/-- An entry of lists of one length, one after the other. -/
theorem List.getElem?_flatten_of_length {α : Type*} {L : List (List α)} {n t : ℕ}
    (hL : ∀ l ∈ L, l.length = n) (ht : t < n) (i : ℕ) :
    L.flatten[n * i + t]? = L[i]?.bind (·[t]?) := by
  induction L generalizing i with
  | nil => simp
  | cons l L ih =>
    rw [List.forall_mem_cons] at hL
    rw [List.flatten_cons]
    rcases i with _ | i
    · rw [mul_zero, zero_add, List.getElem?_append_left (by omega), List.getElem?_cons_zero,
        Option.bind_some]
    · have hidx : n * (i + 1) + t - l.length = n * i + t := by
        rw [hL.1, mul_add, mul_one]
        omega
      rw [List.getElem?_append_right (by rw [hL.1, mul_add]; omega), hidx, ih hL.2,
        List.getElem?_cons_succ]

section Parts

variable {α β : Type*} {f : α → List β} {c : ℕ}

/-- The parts after the first `k`, all of one length. -/
theorem List.drop_flatMap_of_length (hf : ∀ a, (f a).length = c) (l : List α) (k : ℕ) :
    (l.flatMap f).drop (c * k) = (l.drop k).flatMap f := by
  induction l generalizing k with
  | nil => rw [List.drop_nil, List.flatMap_nil, List.drop_nil]
  | cons a l ih =>
    obtain _ | k := k
    · rfl
    · rw [List.flatMap_cons, Nat.mul_succ, Nat.add_comm, ← hf a, List.drop_length_add_append, hf a,
        ih, List.drop_succ_cons]

/-- The first `k` parts, all of one length. -/
theorem List.take_flatMap_of_length (hf : ∀ a, (f a).length = c) (l : List α) (k : ℕ) :
    (l.flatMap f).take (c * k) = (l.take k).flatMap f := by
  induction l generalizing k with
  | nil => rw [List.take_nil, List.flatMap_nil, List.take_nil]
  | cons a l ih =>
    obtain _ | k := k
    · rfl
    · rw [List.flatMap_cons, Nat.mul_succ, Nat.add_comm, ← hf a, List.take_length_add_append, hf a,
        ih, List.take_succ_cons, List.flatMap_cons]

/-- Part `i` of parts of one length. -/
theorem List.take_drop_flatMap_of_length (hf : ∀ a, (f a).length = c) (l : List α) {i : ℕ}
    (hi : i < l.length) : ((l.flatMap f).drop (c * i)).take c = f l[i] := by
  have htake := List.take_flatMap_of_length hf (l.drop i) 1
  rw [Nat.mul_one] at htake
  rw [List.drop_flatMap_of_length hf, htake, List.drop_eq_getElem_cons hi, List.take_succ_cons,
    List.take_zero, List.flatMap_singleton]

end Parts

namespace ByteString

open List

/-- A byte. -/
abbrev Byte := BitVec 8

/-- A byte string. -/
abbrev Bytes := List Byte

/-- The number that a byte string denotes, the most significant byte first. -/
def fromBig (bs : Bytes) : ℕ := bs.foldl (fun acc b => 256 * acc + b.toNat) 0

/-- The `n` low bytes of a number, the most significant first. -/
def toBig : ℕ → ℕ → Bytes
  | 0, _ => []
  | n + 1, x => toBig n (x / 256) ++ [BitVec.ofNat 8 x]

@[simp] theorem length_toBig (n x : ℕ) : (toBig n x).length = n := by
  induction n generalizing x with
  | zero => rfl
  | succ n ih => rw [toBig, length_append, ih, length_singleton]

theorem fromBig_append_singleton (bs : Bytes) (b : Byte) :
    fromBig (bs ++ [b]) = 256 * fromBig bs + b.toNat := by
  rw [fromBig, foldl_append]
  rfl

theorem fromBig_lt (bs : Bytes) : fromBig bs < 256 ^ bs.length := by
  induction bs using List.reverseRecOn with
  | nil => simp [fromBig]
  | append_singleton bs b ih =>
    have hb : b.toNat < 256 := b.isLt
    rw [fromBig_append_singleton, length_append, length_singleton, pow_succ]
    omega

/-- Reading back the low bytes of a number. -/
theorem fromBig_toBig (n x : ℕ) : fromBig (toBig n x) = x % 256 ^ n := by
  induction n generalizing x with
  | zero => rw [pow_zero, Nat.mod_one, toBig, fromBig, foldl_nil]
  | succ n ih =>
    have hpow : x % 256 ^ (n + 1) = x % 256 + 256 * (x / 256 % 256 ^ n) := by
      rw [pow_succ', Nat.mod_mul]
    rw [toBig, fromBig_append_singleton, ih, BitVec.toNat_ofNat, hpow, add_comm]

/-- Numbers that fit are told apart by their bytes. -/
theorem toBig_fromBig (bs : Bytes) : toBig bs.length (fromBig bs) = bs := by
  induction bs using List.reverseRecOn with
  | nil => rfl
  | append_singleton bs b ih =>
    have hb : b.toNat < 256 := b.isLt
    have hdiv : (256 * fromBig bs + b.toNat) / 256 = fromBig bs := by omega
    have hlow : BitVec.ofNat 8 (256 * fromBig bs + b.toNat) = b := by
      refine BitVec.eq_of_toNat_eq ?_
      rw [BitVec.toNat_ofNat]
      omega
    rw [length_append, length_singleton, toBig, fromBig_append_singleton, hdiv, ih, hlow]

theorem toBig_inj {n x y : ℕ} (hx : x < 256 ^ n) (hy : y < 256 ^ n) (h : toBig n x = toBig n y) :
    x = y := by
  rw [← Nat.mod_eq_of_lt hx, ← fromBig_toBig, h, fromBig_toBig, Nat.mod_eq_of_lt hy]

/-- The high and the low bytes of a number. -/
theorem toBig_add (n k x : ℕ) : toBig (n + k) x = toBig n (x / 256 ^ k) ++ toBig k x := by
  induction k generalizing x with
  | zero => rw [pow_zero, Nat.div_one, toBig, append_nil, Nat.add_zero]
  | succ k ih =>
    rw [← Nat.add_assoc, toBig, ih, toBig, Nat.div_div_eq_div_mul, ← pow_succ', append_assoc]

theorem toBig_mod (k x : ℕ) : toBig k (x % 256 ^ k) = toBig k x := by
  have h := toBig_fromBig (toBig k x)
  rwa [length_toBig, fromBig_toBig] at h

theorem toBig_zero (n : ℕ) : toBig n 0 = List.replicate n 0 := by
  induction n with
  | zero => rfl
  | succ n ih => rw [toBig, Nat.zero_div, ih, replicate_succ']; rfl

/-- A number that fits into fewer bytes is padded by zeros. -/
theorem toBig_eq_replicate_append {n k x : ℕ} (hk : k ≤ n) (hx : x < 256 ^ k) :
    toBig n x = List.replicate (n - k) 0 ++ toBig k x := by
  rw [← toBig_zero, ← Nat.div_eq_of_lt hx, ← toBig_add, Nat.sub_add_cancel hk]

/-- Strings of one positive length that tell values apart do so for lists when they are
concatenated. -/
theorem flatMap_injective {α : Type*} {f : α → Bytes} {n : ℕ} (hn : 0 < n)
    (hlen : ∀ a, (f a).length = n) (hf : Function.Injective f) :
    Function.Injective (List.flatMap f) := by
  have hpos (a : α) (l : List α) : (List.flatMap f (a :: l)).length ≠ 0 := by
    rw [flatMap_cons, length_append, hlen]
    omega
  intro l
  induction l with
  | nil =>
    rintro (_ | ⟨b, l'⟩) h
    · rfl
    · exact absurd (congrArg List.length h).symm (hpos b l')
  | cons a l ih =>
    rintro (_ | ⟨b, l'⟩) h
    · exact absurd (congrArg List.length h) (hpos a l)
    · rw [flatMap_cons, flatMap_cons] at h
      obtain ⟨hab, hll⟩ := append_inj h ((hlen a).trans (hlen b).symm)
      rw [hf hab, ih hll]

/-- The bits of a byte string, the most significant bit of each byte first. -/
def toBits (bs : Bytes) : List Bool := bs.flatMap fun b => List.ofFn fun i : Fin 8 => b.getMsbD i

@[simp] theorem length_toBits (bs : Bytes) : (toBits bs).length = 8 * bs.length := by
  induction bs with
  | nil => rfl
  | cons b bs ih =>
    rw [toBits, flatMap_cons, length_append, length_ofFn, ← toBits, ih,
      length_cons]
    ring

theorem toBits_append (bs cs : Bytes) : toBits (bs ++ cs) = toBits bs ++ toBits cs :=
  flatMap_append

theorem toBits_replicate_zero (k : ℕ) :
    toBits (List.replicate k 0) = List.replicate (8 * k) false := by
  induction k with
  | zero => rfl
  | succ k ih =>
    have hbyte : toBits [0] = List.replicate 8 false := by decide
    rw [replicate_succ, ← singleton_append, toBits_append, ih, hbyte,
      replicate_append_replicate, Nat.mul_succ, Nat.add_comm]

end ByteString
