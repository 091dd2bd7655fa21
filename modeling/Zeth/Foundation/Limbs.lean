import Zeth.Foundation.Bytes

/-!
# Numbers of several limbs

Numbers as vectors of limbs of 64 bits, the least significant one first, with the functions of GMP
on them: they are exact, in that the result and the limb that is carried out have the value of the
exact result. On a machine that stores the least significant byte first, the bytes of a vector of
limbs in the reverse order are the number with the most significant byte first.

## Main definitions

* `Limbs.value`, `Limbs.ofNat`: the number of limbs, the limbs of a number.
* `Limbs.mpnAddmul1`, `Limbs.mpnAdd1`, `Limbs.mpnTdivQr`.
* `Limbs.toBytes`, `Limbs.ofBytes`: limbs in memory.

## Main results

* `Limbs.value_mpnAddmul1`, `Limbs.mpnAdd1_replicate_zero`: what is carried out.
* `Limbs.reverse_toBytes`, `Limbs.ofBytes_toBytes`.
-/

namespace Limbs

open ByteString List

/-- `mp_limb_t`. -/
abbrev Limb := BitVec 64

/-! ### Values -/

/-- The number of a vector of limbs. -/
def value : List Limb → ℕ
  | [] => 0
  | limb :: limbs => limb.toNat + 2 ^ 64 * value limbs

/-- The `n` low limbs of a number. -/
def ofNat : ℕ → ℕ → List Limb
  | 0, _ => []
  | n + 1, x => BitVec.ofNat 64 x :: ofNat n (x / 2 ^ 64)

@[simp] theorem length_ofNat (n x : ℕ) : (ofNat n x).length = n := by
  induction n generalizing x with
  | zero => rfl
  | succ n ih => rw [ofNat, length_cons, ih]

theorem value_append (l l' : List Limb) :
    value (l ++ l') = value l + (2 ^ 64) ^ l.length * value l' := by
  induction l with
  | nil => rw [nil_append, value, length_nil, pow_zero, one_mul, zero_add]
  | cons limb l ih =>
    rw [cons_append, value, ih, value, length_cons, pow_succ (2 ^ 64) l.length]
    ring

theorem value_singleton (limb : Limb) : value [limb] = limb.toNat := by
  rw [value, value, mul_zero, add_zero]

theorem value_lt (l : List Limb) : value l < (2 ^ 64) ^ l.length := by
  induction l with
  | nil => exact Nat.one_pos
  | cons limb l ih =>
    have hlimb := limb.isLt
    rw [value, length_cons, pow_succ (2 ^ 64) l.length]
    omega

theorem value_ofNat (n x : ℕ) : value (ofNat n x) = x % (2 ^ 64) ^ n := by
  induction n generalizing x with
  | zero => rw [ofNat, value, pow_zero, Nat.mod_one]
  | succ n ih => rw [ofNat, value, ih, BitVec.toNat_ofNat, pow_succ' (2 ^ 64) n, Nat.mod_mul]

theorem value_ofNat_of_lt {n x : ℕ} (h : x < (2 ^ 64) ^ n) : value (ofNat n x) = x := by
  rw [value_ofNat, Nat.mod_eq_of_lt h]

theorem ofNat_zero (n : ℕ) : ofNat n 0 = List.replicate n 0 := by
  induction n with
  | zero => rfl
  | succ n ih => rw [ofNat, Nat.zero_div, ih, replicate_succ]; rfl

/-- Vectors of limbs are the limbs of their numbers. -/
theorem ofNat_value (l : List Limb) : ofNat l.length (value l) = l := by
  induction l with
  | nil => rfl
  | cons limb l ih =>
    have hlimb := limb.isLt
    have hdiv : (limb.toNat + 2 ^ 64 * value l) / 2 ^ 64 = value l := by omega
    have hlow : BitVec.ofNat 64 (limb.toNat + 2 ^ 64 * value l) = limb := by
      refine BitVec.eq_of_toNat_eq ?_
      rw [BitVec.toNat_ofNat]
      omega
    rw [length_cons, ofNat, value, hdiv, ih, hlow]

theorem value_replicate_zero (n : ℕ) : value (List.replicate n 0) = 0 := by
  rw [← ofNat_zero, value_ofNat, Nat.zero_mod]

/-- The `n` low limbs of the value of more limbs are the first `n`. -/
theorem take_ofNat {n m : ℕ} (h : n ≤ m) (x : ℕ) : (ofNat m x).take n = ofNat n x := by
  induction n generalizing m x with
  | zero => rfl
  | succ n ih =>
    obtain ⟨m, rfl⟩ := Nat.exists_eq_add_one_of_ne_zero (Nat.ne_zero_of_lt h)
    rw [ofNat, take_succ_cons, ih (Nat.le_of_succ_le_succ h), ofNat]

/-! ### Arithmetic -/

/-- `mpn_addmul_1`: the product of `s` with a limb is added to `r`, and a limb is carried out. -/
def mpnAddmul1 (r s : List Limb) (limb : Limb) : List Limb × Limb :=
  let sum := value r + value s * limb.toNat
  (ofNat r.length sum, BitVec.ofNat 64 (sum / (2 ^ 64) ^ r.length))

/-- `mpn_add_1`: a limb is added to `s`, and a limb is carried out. -/
def mpnAdd1 (s : List Limb) (limb : Limb) : List Limb × Limb :=
  let sum := value s + limb.toNat
  (ofNat s.length sum, BitVec.ofNat 64 (sum / (2 ^ 64) ^ s.length))

/-- `mpn_tdiv_qr`: the quotient and the remainder. Nothing is said of a divisor whose most
significant limb is zero. -/
def mpnTdivQr (np dp : List Limb) : Option (List Limb × List Limb) :=
  if dp.getLast?.getD 0 = 0 then none
  else some (ofNat (np.length - dp.length + 1) (value np / value dp),
    ofNat dp.length (value np % value dp))

theorem length_mpnAddmul1 (r s : List Limb) (limb : Limb) :
    (mpnAddmul1 r s limb).1.length = r.length := length_ofNat _ _

/-- No more than a limb is carried out. -/
theorem value_mpnAddmul1 {r s : List Limb} (h : r.length = s.length) (limb : Limb) :
    value (mpnAddmul1 r s limb).1 + (2 ^ 64) ^ r.length * (mpnAddmul1 r s limb).2.toNat =
      value r + value s * limb.toNat := by
  have hr := value_lt r
  have hs := value_lt s
  rw [← h] at hs
  have hlimb : limb.toNat ≤ 2 ^ 64 - 1 := Nat.le_sub_one_of_lt limb.isLt
  have hsum : value r + value s * limb.toNat < 2 ^ 64 * (2 ^ 64) ^ r.length :=
    calc value r + value s * limb.toNat
      _ < (2 ^ 64) ^ r.length + (2 ^ 64) ^ r.length * (2 ^ 64 - 1) :=
        Nat.add_lt_add_of_lt_of_le hr (Nat.mul_le_mul hs.le hlimb)
      _ = 2 ^ 64 * (2 ^ 64) ^ r.length := by ring
  have hcarry := Nat.div_lt_of_lt_mul (hsum.trans_eq (mul_comm _ _))
  rw [mpnAddmul1, value_ofNat, BitVec.toNat_ofNat, Nat.mod_eq_of_lt hcarry, Nat.mod_add_div]

/-- A limb that is added to zero becomes the first limb. -/
theorem mpnAdd1_replicate_zero (n : ℕ) (limb : Limb) :
    mpnAdd1 (List.replicate (n + 1) 0) limb = (limb :: List.replicate n 0, 0) := by
  have hlimb := limb.isLt
  have hcarry : limb.toNat / (2 ^ 64) ^ (n + 1) = 0 := by
    refine Nat.div_eq_of_lt (hlimb.trans_le ?_)
    rw [pow_succ (2 ^ 64) n]
    exact Nat.le_mul_of_pos_left _ (Nat.pow_pos (Nat.two_pow_pos 64))
  rw [mpnAdd1, value_replicate_zero, zero_add, length_replicate, hcarry, ofNat,
    BitVec.ofNat_toNat, BitVec.setWidth_eq, Nat.div_eq_of_lt hlimb, ofNat_zero]
  rfl

/-! ### Memory -/

/-- The bytes of limbs in memory. -/
def toBytes (limbs : List Limb) : Bytes := limbs.flatMap fun limb => (toBig 8 limb.toNat).reverse

/-- The `n` limbs with the given bytes. -/
def ofBytes : ℕ → Bytes → List Limb
  | 0, _ => []
  | n + 1, bs => BitVec.ofNat 64 (fromBig (bs.take 8).reverse) :: ofBytes n (bs.drop 8)

theorem length_toBytes (limbs : List Limb) : (toBytes limbs).length = 8 * limbs.length := by
  induction limbs with
  | nil => rfl
  | cons limb limbs ih =>
    rw [toBytes, flatMap_cons, length_append, ← toBytes, ih, length_reverse,
      length_toBig, length_cons]
    ring

theorem ofBytes_toBytes (limbs : List Limb) : ofBytes limbs.length (toBytes limbs) = limbs := by
  induction limbs with
  | nil => rfl
  | cons limb limbs ih =>
    have hlen : (toBig 8 limb.toNat).reverse.length = 8 := by
      rw [length_reverse, length_toBig]
    have hlimb : limb.toNat < 256 ^ 8 := limb.isLt.trans_eq (by norm_num)
    rw [toBytes, flatMap_cons, ← toBytes, length_cons, ofBytes, take_left' hlen,
      drop_left' hlen, ih, reverse_reverse, fromBig_toBig, Nat.mod_eq_of_lt hlimb,
      BitVec.ofNat_toNat, BitVec.setWidth_eq]

/-- In the reverse order, the bytes of limbs are those of their number with the most significant one
first. -/
theorem reverse_toBytes (limbs : List Limb) :
    (toBytes limbs).reverse = toBig (8 * limbs.length) (value limbs) := by
  induction limbs with
  | nil => rfl
  | cons limb limbs ih =>
    have hlimb := limb.isLt
    have hdiv : (limb.toNat + 2 ^ 64 * value limbs) / 256 ^ 8 = value limbs := by omega
    have hmod : (limb.toNat + 2 ^ 64 * value limbs) % 256 ^ 8 = limb.toNat := by omega
    have hlow : toBig 8 (limb.toNat + 2 ^ 64 * value limbs) = toBig 8 limb.toNat := by
      rw [← toBig_mod, hmod]
    rw [toBytes, flatMap_cons, ← toBytes, reverse_append, ih, reverse_reverse,
      length_cons, Nat.mul_succ, toBig_add, value, hdiv, hlow]

end Limbs
