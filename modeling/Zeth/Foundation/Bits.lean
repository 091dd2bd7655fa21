import Mathlib.Algebra.CharP.Basic
import Mathlib.Algebra.Field.Basic
import Mathlib.Data.List.GetD
import Mathlib.Data.Nat.Digits.Lemmas
import Zeth.Foundation.Bytes
import Zeth.Foundation.R1CS

/-!
# Bit strings on wires

Bits are carried on wires as the field elements zero and one. A bit string is read with its
most significant bit first, so its number is the base-two number of the reversed list.

## Main definitions

* `R1CS.IsBool`: a field element is a bit.
* `R1CS.natOfBits`: the number of a bit string.
* `R1CS.wordBits`: the bits of a word.
* `R1CS.littleEndian`: the weighted sum of a list of field elements, least significant first.
* `R1CS.Carries`: an array of wires carries a bit string.
* `R1CS.numberOf`: the number read off an array of wires.

## Main results

* `R1CS.littleEndian_reverse_ofBool`: the weighted sum of carried bits is their number.
* `R1CS.natOfBits_injective`: strings of one length with one number are equal.
* `R1CS.natCast_inj_of_lt`: numbers below the characteristic are told apart by the field.
-/

namespace R1CS

open List

variable {F : Type*}

/-- A bit as a field element. -/
def ofBool [Zero F] [One F] (b : Bool) : F := if b then 1 else 0

/-- The field element is a bit. -/
def IsBool [Zero F] [One F] (x : F) : Prop := x = 0 ∨ x = 1

theorem isBool_ofBool [Zero F] [One F] (b : Bool) : IsBool (ofBool b : F) := by
  cases b
  · exact Or.inl rfl
  · exact Or.inr rfl

theorem isBool_iff [Zero F] [One F] {x : F} : IsBool x ↔ ∃ b, x = ofBool b := by
  constructor
  · rintro (rfl | rfl)
    · exact ⟨false, rfl⟩
    · exact ⟨true, rfl⟩
  · rintro ⟨b, rfl⟩
    exact isBool_ofBool b

theorem ofBool_injective [Zero F] [One F] [NeZero (1 : F)] :
    Function.Injective (ofBool : Bool → F) := by
  intro a b h
  cases a <;> cases b
  · rfl
  · exact absurd h.symm one_ne_zero
  · exact absurd h one_ne_zero
  · rfl

/-- `x · (1 − x)` vanishes on bits only. -/
theorem mul_one_sub_eq_zero_iff [Ring F] [NoZeroDivisors F] {x : F} :
    x * (1 - x) = 0 ↔ IsBool x := by
  rw [mul_eq_zero, sub_eq_zero, eq_comm (a := (1 : F))]
  rfl

/-! ### Numbers of bit strings -/

/-- The number of a bit string, most significant bit first. -/
def natOfBits (bs : List Bool) : ℕ := Nat.ofDigits 2 (bs.reverse.map Bool.toNat)

theorem natOfBits_lt (bs : List Bool) : natOfBits bs < 2 ^ bs.length := by
  have h := Nat.ofDigits_lt_base_pow_length (b := 2) (l := bs.reverse.map Bool.toNat)
    Nat.one_lt_two (by
      intro x hx
      obtain ⟨b, -, rfl⟩ := mem_map.mp hx
      exact b.toNat_lt)
  rwa [length_map, length_reverse] at h

/-- Strings of one length with one number are equal. -/
theorem natOfBits_injective {as bs : List Bool} (hlen : as.length = bs.length)
    (h : natOfBits as = natOfBits bs) : as = bs := by
  have hdigit : ∀ cs : List Bool, ∀ x ∈ cs.reverse.map Bool.toNat, x < 2 := by
    intro cs x hx
    obtain ⟨b, -, rfl⟩ := mem_map.mp hx
    exact b.toNat_lt
  have hmap := Nat.ofDigits_inj_of_len_eq Nat.one_lt_two (by simp [hlen]) (hdigit as) (hdigit bs) h
  have htoNat : Function.Injective Bool.toNat := by
    intro a b hab
    cases a <;> cases b <;> first | rfl | cases hab
  exact reverse_injective (htoNat.list_map hmap)

theorem natOfBits_eq_zero_iff {bs : List Bool} : natOfBits bs = 0 ↔ ∀ b ∈ bs, b = false := by
  have hzero : natOfBits (List.replicate bs.length false) = 0 := by
    have h : ∀ n, Nat.ofDigits 2 (List.replicate n 0) = 0 := by
      intro n
      induction n with
      | zero => rfl
      | succ n ih => rw [replicate_succ, Nat.ofDigits_cons, ih]
    rw [natOfBits, reverse_replicate, map_replicate]
    exact h _
  rw [← eq_replicate_length]
  constructor
  · intro h
    exact natOfBits_injective (by simp) (h.trans hzero.symm)
  · intro h
    rw [h, hzero]

/-- The bits of the number of a bit string. -/
theorem testBit_natOfBits (bs : List Bool) (i : ℕ) :
    (natOfBits bs).testBit i = bs.reverse.getD i false := by
  rw [natOfBits]
  induction bs.reverse generalizing i with
  | nil => simp
  | cons b cs ih =>
    rw [map_cons, Nat.ofDigits_cons]
    rcases i with _ | i
    · cases b <;> simp [Nat.testBit_zero]
    · have hdiv : (b.toNat + 2 * Nat.ofDigits 2 (cs.map Bool.toNat)) / 2 =
          Nat.ofDigits 2 (cs.map Bool.toNat) := by
        have := b.toNat_lt
        omega
      rw [Nat.testBit_succ, hdiv, ih, getD_cons_succ]

theorem natOfBits_cons (b : Bool) (bs : List Bool) :
    natOfBits (b :: bs) = b.toNat * 2 ^ bs.length + natOfBits bs := by
  rw [natOfBits, natOfBits, reverse_cons, map_append, Nat.ofDigits_append,
    length_map, length_reverse, map_singleton, Nat.ofDigits_singleton]
  ring

theorem natOfBits_append (as bs : List Bool) :
    natOfBits (as ++ bs) = natOfBits as * 2 ^ bs.length + natOfBits bs := by
  rw [natOfBits, natOfBits, natOfBits, reverse_append, map_append, Nat.ofDigits_append,
    length_map, length_reverse]
  ring

/-! ### Words -/

section Words

variable {n : ℕ}

/-- The bits of a word, most significant first. -/
def wordBits (x : BitVec n) : List Bool := List.ofFn fun i : Fin n => x.getMsbD i

@[simp] theorem length_wordBits (x : BitVec n) : (wordBits x).length = n := length_ofFn

theorem getElem_wordBits (x : BitVec n) {i : ℕ} (hi : i < (wordBits x).length) :
    (wordBits x)[i] = x.getMsbD i :=
  List.getElem_ofFn hi

@[simp] theorem natOfBits_wordBits (x : BitVec n) : natOfBits (wordBits x) = x.toNat := by
  refine Nat.eq_of_testBit_eq fun i => ?_
  rw [testBit_natOfBits, BitVec.testBit_toNat]
  by_cases hi : i < n
  · have hlen : i < (wordBits x).reverse.length := by rwa [length_reverse, length_wordBits]
    rw [getD_eq_getElem _ _ hlen, getElem_reverse, getElem_wordBits, length_wordBits,
      BitVec.getMsbD_eq_getLsbD]
    have hlt : n - 1 - i < n := by omega
    have hsub : n - 1 - (n - 1 - i) = i := by omega
    rw [decide_eq_true hlt, Bool.true_and, hsub]
  · rw [getD_eq_default _ _ (by rw [length_reverse, length_wordBits]; omega),
      BitVec.getLsbD_of_ge _ _ (by omega)]

/-- A string of the right length is that of its number. -/
theorem wordBits_ofNat {bs : List Bool} (h : bs.length = n) :
    wordBits (BitVec.ofNat n (natOfBits bs)) = bs := by
  refine natOfBits_injective (by rw [length_wordBits, h]) ?_
  rw [natOfBits_wordBits, BitVec.toNat_ofNat, Nat.mod_eq_of_lt (h ▸ natOfBits_lt bs)]

theorem wordBits_append {m : ℕ} (x : BitVec n) (y : BitVec m) :
    wordBits (x ++ y) = wordBits x ++ wordBits y := by
  refine ext_getElem (by simp) fun i hi hi' => ?_
  rw [getElem_wordBits, BitVec.getMsbD_append]
  split_ifs with h
  · rw [getElem_append_right (by rwa [length_wordBits]), getElem_wordBits, length_wordBits]
  · rw [getElem_append_left (by rw [length_wordBits]; omega), getElem_wordBits]

/-- The bits of a byte string, as a number. -/
theorem natOfBits_toBits (bs : ByteString.Bytes) :
    natOfBits (ByteString.toBits bs) = ByteString.fromBig bs := by
  induction bs using List.reverseRecOn with
  | nil => rfl
  | append_singleton bs b ih =>
    have hbyte : ByteString.toBits [b] = wordBits b := append_nil _
    rw [ByteString.toBits_append, natOfBits_append, ih, hbyte, natOfBits_wordBits, length_wordBits,
      ByteString.fromBig_append_singleton]
    ring

/-- The bytes of the number of a bit string have its bits. -/
theorem toBits_toBig_natOfBits {bs : List Bool} {k : ℕ} (hbs : bs.length = 8 * k) :
    ByteString.toBits (ByteString.toBig k (natOfBits bs)) = bs := by
  have hlt : natOfBits bs < 256 ^ k := by
    have h := natOfBits_lt bs
    rwa [hbs, pow_mul] at h
  refine natOfBits_injective (by simp [hbs]) ?_
  rw [natOfBits_toBits, ByteString.fromBig_toBig, Nat.mod_eq_of_lt hlt]

end Words

/-! ### Weighted sums -/

/-- The weighted sum of a list of field elements, least significant first. -/
def littleEndian [Semiring F] : List F → F
  | [] => 0
  | x :: xs => x + 2 * littleEndian xs

theorem littleEndian_eq_zero [Semiring F] {xs : List F} (h : ∀ x ∈ xs, x = 0) :
    littleEndian xs = 0 := by
  induction xs with
  | nil => rfl
  | cons x xs ih =>
    rw [littleEndian, h x mem_cons_self, ih fun y hy => h y (mem_cons_of_mem x hy),
      mul_zero, add_zero]

theorem littleEndian_map_ofBool [Semiring F] (bs : List Bool) :
    littleEndian (bs.map ofBool) = ((Nat.ofDigits 2 (bs.map Bool.toNat) : ℕ) : F) := by
  induction bs with
  | nil => simp [littleEndian]
  | cons b bs ih =>
    have hb : (ofBool b : F) = (b.toNat : F) := by cases b <;> simp [ofBool]
    rw [map_cons, map_cons, littleEndian, Nat.ofDigits_cons, ih, hb]
    push_cast
    rfl

theorem littleEndian_reverse_ofBool [Semiring F] (bs : List Bool) :
    littleEndian (bs.map ofBool).reverse = (natOfBits bs : F) := by
  rw [← map_reverse, littleEndian_map_ofBool]
  rfl

/-- Numbers below the characteristic are told apart by the field. -/
theorem natCast_inj_of_lt [Ring F] (p : ℕ) [CharP F p] {m n : ℕ} (hm : m < p) (hn : n < p)
    (h : (m : F) = (n : F)) : m = n :=
  CharP.natCast_injOn_Iio F p hm hn h

/-! ### Bits on wires -/

section Carries

variable [Zero F] [One F] {σ τ : Assignment F}

/-- The wires carry the bit string. -/
def Carries (σ : Assignment F) (vs : List Var) (bs : List Bool) : Prop :=
  vs.map σ = bs.map ofBool

variable {vs ws : List Var} {as bs : List Bool}

theorem Carries.length_eq (h : Carries σ vs bs) : vs.length = bs.length := by
  have hlen := congrArg List.length h
  rwa [length_map, length_map] at hlen

theorem Carries.append (hv : Carries σ vs as) (hw : Carries σ ws bs) :
    Carries σ (vs ++ ws) (as ++ bs) := by
  rw [Carries, map_append, map_append, hv, hw]

theorem carries_append_iff (hlen : vs.length = as.length) :
    Carries σ (vs ++ ws) (as ++ bs) ↔ Carries σ vs as ∧ Carries σ ws bs := by
  rw [Carries, map_append, map_append]
  exact append_eq_append_iff_of_size_eq_left (by rw [length_map, length_map, hlen])

theorem Carries.reverse (h : Carries σ vs bs) : Carries σ vs.reverse bs.reverse := by
  rw [Carries, map_reverse, map_reverse, h]

theorem Carries.take (h : Carries σ vs bs) (n : ℕ) : Carries σ (vs.take n) (bs.take n) := by
  rw [Carries, map_take, map_take, h]

theorem Carries.drop (h : Carries σ vs bs) (n : ℕ) : Carries σ (vs.drop n) (bs.drop n) := by
  rw [Carries, map_drop, map_drop, h]

/-- An array of consecutive wires, wire by wire. -/
theorem carries_range'_iff {start : ℕ} :
    Carries σ (List.range' start bs.length) bs ↔
      ∀ k (hk : k < bs.length), σ (start + k) = ofBool bs[k] := by
  rw [Carries, ext_getElem_iff]
  simp

theorem Carries.congr (h : Carries σ vs bs) (hστ : ∀ v ∈ vs, τ v = σ v) : Carries τ vs bs := by
  rw [Carries, map_congr_left hστ, h]

theorem Carries.injective [NeZero (1 : F)] (ha : Carries σ vs as) (hb : Carries σ vs bs) :
    as = bs :=
  ofBool_injective.list_map (ha.symm.trans hb)

/-- Distinct wires can be made to carry any string of their length, without changing others. -/
theorem Allocated.exists_carries {start : ℕ} (h : Allocated start vs)
    (hlen : vs.length = bs.length) (σ : Assignment F) :
    ∃ τ : Assignment F, Carries τ vs bs ∧ ∀ v, v ∉ vs → τ v = σ v :=
  ⟨σ.fill vs (bs.map ofBool), σ.map_fill vs _ h.nodup h.one_notMem (by rw [length_map, hlen]),
    fun _ hv => σ.fill_of_notMem vs _ hv⟩

/-- Wires of bits carry a string. -/
theorem exists_carries_iff : (∃ bs, Carries σ vs bs) ↔ ∀ v ∈ vs, IsBool (σ v) := by
  constructor
  · rintro ⟨bs, h⟩ v hv
    have hmem : σ v ∈ bs.map ofBool := by
      rw [← h]
      exact mem_map_of_mem hv
    obtain ⟨b, -, hb⟩ := mem_map.mp hmem
    rw [← hb]
    exact isBool_ofBool b
  · intro h
    induction vs with
    | nil => exact ⟨[], rfl⟩
    | cons v vs ih =>
      obtain ⟨b, hb⟩ := isBool_iff.mp (h v mem_cons_self)
      obtain ⟨bs, hbs⟩ := ih fun w hw => h w (mem_cons_of_mem v hw)
      exact ⟨b :: bs, by rw [Carries, map_cons, map_cons, hb, hbs]⟩

theorem Carries.isBool (h : Carries σ vs bs) : ∀ v ∈ vs, IsBool (σ v) :=
  exists_carries_iff.mp ⟨bs, h⟩

variable [DecidableEq F]

/-- The bits read off an array of wires. -/
def bitsOf (σ : Assignment F) (vs : List Var) : List Bool := vs.map fun v => decide (σ v = 1)

omit [Zero F] in
@[simp] theorem length_bitsOf (vs : List Var) : (bitsOf σ vs).length = vs.length :=
  length_map _

theorem carries_bitsOf [NeZero (1 : F)] (h : ∀ v ∈ vs, IsBool (σ v)) :
    Carries σ vs (bitsOf σ vs) := by
  rw [Carries, bitsOf, map_map]
  refine map_congr_left fun v hv => ?_
  rcases h v hv with h0 | h1
  · simp [ofBool, h0]
  · simp [ofBool, h1]

/-- The number read off an array of wires, most significant bit first. -/
def numberOf (σ : Assignment F) (vs : List Var) : ℕ := natOfBits (bitsOf σ vs)

omit [Zero F] in
theorem numberOf_lt (vs : List Var) : numberOf σ vs < 2 ^ vs.length := by
  have h := natOfBits_lt (bitsOf σ vs)
  rwa [length_bitsOf] at h

end Carries

/-- Arrays of bits weigh as much as their number. -/
theorem Carries.littleEndian_reverse [Semiring F] {σ : Assignment F} {vs : List Var}
    {bs : List Bool} (h : Carries σ vs bs) :
    littleEndian (vs.reverse.map σ) = (natOfBits bs : F) := by
  rw [map_reverse, h, littleEndian_reverse_ofBool]

end R1CS
