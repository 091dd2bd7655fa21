import Zeth.Foundation.Bits
import Zeth.Foundation.Except

/-!
# Arrays of bits

The functions on arrays of bits that the witness generators use: the sum and the exclusive or of two
arrays (`libzeth/core/bits.tcc`), the bits of a number (`libzeth/core/bits.cpp`) and the reversal of
the bytes of an array (`libzeth/core/utils.tcc`). The most significant bit is first.

## Main definitions

* `Zeth.Circuit.bitsXor`, `Zeth.Circuit.bitsAdd`, `Zeth.Circuit.bitsSum`,
  `Zeth.Circuit.bitVectorFromSizeTBe`, `Zeth.Circuit.swapByteEndianness`.

## Main results

* `Zeth.Circuit.bitsAdd_eq_ok_iff`, `Zeth.Circuit.bitsSum_eq_ok_iff`: sums that fit, or wrap when
  the carry is ignored.
* `Zeth.Circuit.bitsAdd_isAddition`.
* `Zeth.Circuit.wordBits_eq_bitVectorFromSizeTBe`: the bits of a number without leading zeroes.
-/

namespace Zeth.Circuit

open R1CS List

/-- `bits_xor` -/
def bitsXor (as bs : List Bool) : List Bool := List.zipWith xor as bs

theorem bitsXor_wordBits {n : ℕ} (x y : BitVec n) :
    bitsXor (wordBits x) (wordBits y) = wordBits (x ^^^ y) := by
  refine ext_getElem (by rw [bitsXor, length_zipWith]; simp) fun i hi hi' => ?_
  simp only [bitsXor, getElem_zipWith, getElem_wordBits, BitVec.getMsbD_xor]

/-- One pass of the loop of `bits_add`: the bits of the sum so far and the carry. -/
def addStep (ab : Bool × Bool) (acc : List Bool × Bool) : List Bool × Bool :=
  let r := ab.1 ^^ acc.2
  let carry := acc.2 && ab.1
  ((r ^^ ab.2) :: acc.1, carry || (r && ab.2))

/-- The loop of `bits_add`, from the last bits to the first. -/
def addLoop (as bs : List Bool) : List Bool × Bool := (as.zip bs).foldr addStep ([], false)

/-- `bits_add` -/
def bitsAdd (as bs : List Bool) (withCarry : Bool) : Except String (List Bool) :=
  let (result, carry) := addLoop as bs
  if withCarry && carry then
    .error "Overflow: The sum of the binary addition cannot be encoded on <BitLen> bits"
  else .ok result

theorem length_addLoop {as bs : List Bool} (hlen : as.length = bs.length) :
    (addLoop as bs).1.length = as.length := by
  induction as generalizing bs with
  | nil => cases bs <;> rfl
  | cons a as ih =>
    obtain _ | ⟨b, bs⟩ := bs
    · cases hlen
    · exact congrArg (· + 1) (ih (Nat.succ.inj hlen))

/-- The sum of the numbers is that of the bits and the carry. -/
theorem natOfBits_addLoop {as bs : List Bool} (hlen : as.length = bs.length) :
    natOfBits (addLoop as bs).1 + (addLoop as bs).2.toNat * 2 ^ as.length =
      natOfBits as + natOfBits bs := by
  induction as generalizing bs with
  | nil => cases bs <;> first | rfl | cases hlen
  | cons a as ih =>
    obtain _ | ⟨b, bs⟩ := bs
    · cases hlen
    have hlen := Nat.succ.inj hlen
    have hrest := ih hlen
    have hlength := length_addLoop hlen
    have hstep : addLoop (a :: as) (b :: bs) = addStep (a, b) (addLoop as bs) := rfl
    rw [hstep]
    generalize addLoop as bs = acc at hrest hlength
    obtain ⟨sum, carry⟩ := acc
    simp only at hrest hlength
    simp only [addStep, natOfBits_cons, hlength, ← hlen, length_cons, pow_succ]
    cases a <;> cases b <;> cases carry <;> simp at hrest ⊢ <;> omega

/-- A carry is left when the sum does not fit. -/
theorem carry_addLoop_iff {as bs : List Bool} (hlen : as.length = bs.length) :
    (addLoop as bs).2 = true ↔ 2 ^ as.length ≤ natOfBits as + natOfBits bs := by
  have hsum := natOfBits_addLoop hlen
  have hlt := natOfBits_lt (addLoop as bs).1
  rw [length_addLoop hlen] at hlt
  cases hc : (addLoop as bs).2 with
  | false =>
    rw [hc, Bool.toNat_false, Nat.zero_mul] at hsum
    exact iff_of_false Bool.false_ne_true (by omega)
  | true =>
    rw [hc, Bool.toNat_true, Nat.one_mul] at hsum
    exact iff_of_true rfl (by omega)

/-- The sum fits, or wraps when the carry is ignored. -/
theorem bitsAdd_eq_ok_iff {as bs cs : List Bool} {withCarry : Bool}
    (hlen : as.length = bs.length) :
    bitsAdd as bs withCarry = .ok cs ↔ cs.length = as.length ∧
      natOfBits cs = (natOfBits as + natOfBits bs) % 2 ^ as.length ∧
      (withCarry = true → natOfBits as + natOfBits bs < 2 ^ as.length) := by
  have hsum := natOfBits_addLoop hlen
  have hlength := length_addLoop hlen
  have hlt := natOfBits_lt (addLoop as bs).1
  rw [hlength] at hlt
  have hmod : natOfBits (addLoop as bs).1 = (natOfBits as + natOfBits bs) % 2 ^ as.length := by
    rw [← hsum, Nat.add_mul_mod_self_right, Nat.mod_eq_of_lt hlt]
  have heq : cs = (addLoop as bs).1 ↔ cs.length = as.length ∧
      natOfBits cs = (natOfBits as + natOfBits bs) % 2 ^ as.length := by
    constructor
    · rintro rfl
      exact ⟨hlength, hmod⟩
    · rintro ⟨hcs, hnat⟩
      exact natOfBits_injective (hcs.trans hlength.symm) (hnat.trans hmod.symm)
  rw [← and_assoc, ← heq]
  by_cases hover : (withCarry && (addLoop as bs).2) = true
  · obtain ⟨hwith, hc⟩ := (Bool.and_eq_true _ _).mp hover
    have herror : bitsAdd as bs withCarry = .error
        "Overflow: The sum of the binary addition cannot be encoded on <BitLen> bits" :=
      if_pos hover
    have hge := (carry_addLoop_iff hlen).mp hc
    rw [herror]
    exact iff_of_false nofun fun h => absurd hge (not_le.mpr (h.2 hwith))
  · have hok : bitsAdd as bs withCarry = .ok (addLoop as bs).1 := if_neg hover
    rw [hok, Except.ok.injEq, eq_comm]
    refine (and_iff_left fun hwith => ?_).symm
    by_contra hge
    have hcarry := (carry_addLoop_iff hlen).mpr (not_lt.mp hge)
    exact hover ((Bool.and_eq_true _ _).mpr ⟨hwith, hcarry⟩)

theorem exists_bits {n m : ℕ} (h : m < 2 ^ n) :
    ∃ cs : List Bool, cs.length = n ∧ natOfBits cs = m :=
  ⟨wordBits (BitVec.ofNat n m), length_wordBits _, by
    rw [natOfBits_wordBits, BitVec.toNat_ofNat, Nat.mod_eq_of_lt h]⟩

/-- The loops that add the values of notes to a public value. -/
def bitsSum (acc : List Bool) (values : List (List Bool)) (withCarry : Bool) :
    Except String (List Bool) :=
  values.foldlM (fun acc value => bitsAdd acc value withCarry) acc

/-- A sum of values fits, or wraps when carries are ignored. -/
theorem bitsSum_eq_ok_iff {n : ℕ} {acc cs : List Bool} {values : List (List Bool)}
    {withCarry : Bool} (hacc : acc.length = n) (hvalues : ∀ value ∈ values, value.length = n) :
    bitsSum acc values withCarry = .ok cs ↔ cs.length = n ∧
      natOfBits cs = (natOfBits acc + (values.map natOfBits).sum) % 2 ^ n ∧
      (withCarry = true → natOfBits acc + (values.map natOfBits).sum < 2 ^ n) := by
  induction values generalizing acc with
  | nil =>
    have hlt : natOfBits acc < 2 ^ n := hacc ▸ natOfBits_lt acc
    rw [bitsSum, foldlM_nil, map_nil, sum_nil, Nat.add_zero,
      and_iff_left fun _ => hlt, Nat.mod_eq_of_lt hlt]
    constructor
    · intro h
      cases h
      exact ⟨hacc, rfl⟩
    · rintro ⟨hlen, hnat⟩
      exact congrArg Except.ok (natOfBits_injective (hacc.trans hlen.symm) hnat.symm)
  | cons value values ih =>
    obtain ⟨hvalue, hvalues⟩ := forall_mem_cons.mp hvalues
    have hlen : acc.length = value.length := hacc.trans hvalue.symm
    have hnext {next : List Bool} : bitsAdd acc value withCarry = .ok next ↔ next.length = n ∧
        natOfBits next = (natOfBits acc + natOfBits value) % 2 ^ n ∧
        (withCarry = true → natOfBits acc + natOfBits value < 2 ^ n) :=
      hacc ▸ bitsAdd_eq_ok_iff hlen
    rw [bitsSum, foldlM_cons, Except.bind_eq_ok, map_cons, sum_cons, ← Nat.add_assoc]
    constructor
    · rintro ⟨next, hadd, hrest⟩
      obtain ⟨hnextLen, hnat, hfits⟩ := hnext.mp hadd
      obtain ⟨hcs, hsum, hlt⟩ := (ih hnextLen hvalues).mp hrest
      rw [hnat, Nat.mod_add_mod] at hsum
      refine ⟨hcs, hsum, fun hwith => ?_⟩
      have hlt := hlt hwith
      rwa [hnat, Nat.mod_eq_of_lt (hfits hwith)] at hlt
    · rintro ⟨hcs, hsum, hlt⟩
      -- a partial sum is at most the whole
      have hfits (hwith : withCarry = true) : natOfBits acc + natOfBits value < 2 ^ n :=
        (Nat.le_add_right _ _).trans_lt (hlt hwith)
      obtain ⟨next, hnextLen, hnat⟩ :=
        exists_bits (Nat.mod_lt (natOfBits acc + natOfBits value) (Nat.two_pow_pos n))
      refine ⟨next, hnext.mpr ⟨hnextLen, hnat, hfits⟩, (ih hnextLen hvalues).mpr ⟨hcs, ?_, ?_⟩⟩
      · rw [hnat, Nat.mod_add_mod, hsum]
      · intro hwith
        rw [hnat, Nat.mod_eq_of_lt (hfits hwith)]
        exact hlt hwith

theorem bitsSum_isError_iff {n : ℕ} {acc : List Bool} {values : List (List Bool)}
    (hacc : acc.length = n) (hvalues : ∀ value ∈ values, value.length = n) :
    (∃ message, bitsSum acc values true = .error message) ↔
      2 ^ n ≤ natOfBits acc + (values.map natOfBits).sum := by
  rw [Except.exists_eq_error_iff]
  constructor
  · intro h
    by_contra hlt
    obtain ⟨cs, hcs, hnat⟩ := exists_bits (not_le.mp hlt)
    refine h cs ((bitsSum_eq_ok_iff hacc hvalues).mpr ⟨hcs, ?_, fun _ => not_le.mp hlt⟩)
    rw [hnat, Nat.mod_eq_of_lt (not_le.mp hlt)]
  · intro hge cs hok
    exact absurd hge (not_le.mpr (((bitsSum_eq_ok_iff hacc hvalues).mp hok).2.2 rfl))

/-- Addition of arrays of bits is addition of their numbers, modulo a power of two or checked, and
checked addition of a list of values is refused when their sum does not fit. -/
theorem bitsAdd_isAddition {n : ℕ} (as bs acc : List.Vector Bool n)
    (values : List (List.Vector Bool n)) :
    (∃ cs : List.Vector Bool n, bitsAdd as.toList bs.toList false = .ok cs.toList ∧
      natOfBits cs.toList = (natOfBits as.toList + natOfBits bs.toList) % 2 ^ n) ∧
    ((∃ message, bitsAdd as.toList bs.toList true = .error message) ↔
      2 ^ n ≤ natOfBits as.toList + natOfBits bs.toList) ∧
    (natOfBits as.toList + natOfBits bs.toList < 2 ^ n →
      ∃ cs : List.Vector Bool n, bitsAdd as.toList bs.toList true = .ok cs.toList ∧
        natOfBits cs.toList = natOfBits as.toList + natOfBits bs.toList) ∧
    ((∃ message, bitsSum acc.toList (values.map List.Vector.toList) true = .error message) ↔
      2 ^ n ≤ natOfBits acc.toList + (values.map fun value => natOfBits value.toList).sum) := by
  have hone (withCarry : Bool) : bitsAdd as.toList bs.toList withCarry =
      bitsSum as.toList [bs.toList] withCarry := (bind_pure _).symm
  have hbs : ∀ value ∈ [bs.toList], value.length = n := by
    intro value hvalue
    rw [mem_singleton.mp hvalue, bs.toList_length]
  have hvalues : ∀ value ∈ values.map List.Vector.toList, value.length = n := by
    intro value hvalue
    obtain ⟨v, -, rfl⟩ := mem_map.mp hvalue
    exact v.toList_length
  have hsum {cs : List Bool} {withCarry : Bool} :=
    @bitsSum_eq_ok_iff n as.toList cs [bs.toList] withCarry as.toList_length hbs
  have hmany := bitsSum_isError_iff acc.toList_length hvalues
  have herror := bitsSum_isError_iff as.toList_length hbs
  rw [map_map] at hmany
  rw [map_singleton, sum_singleton] at hsum herror
  refine ⟨?_, ?_, ?_, hmany⟩
  · obtain ⟨cs, hcs, hnat⟩ :=
      exists_bits (Nat.mod_lt (natOfBits as.toList + natOfBits bs.toList) (Nat.two_pow_pos n))
    exact ⟨⟨cs, hcs⟩, (hone false).trans (hsum.mpr ⟨hcs, hnat, nofun⟩), hnat⟩
  · rw [hone]
    exact herror
  · intro hlt
    obtain ⟨cs, hcs, hnat⟩ := exists_bits hlt
    have hmod := hnat.trans (Nat.mod_eq_of_lt hlt).symm
    exact ⟨⟨cs, hcs⟩, (hone true).trans (hsum.mpr ⟨hcs, hmod, fun _ => hlt⟩), hnat⟩

/-- One and two in two bits. -/
theorem bitsAdd_isAddition_two_bits :
    natOfBits [false, true] + natOfBits [true, false] < 2 ^ 2 ∧
      ∃ cs : List.Vector Bool 2, bitsAdd [false, true] [true, false] true = .ok cs.toList ∧
        natOfBits cs.toList = natOfBits [false, true] + natOfBits [true, false] :=
  ⟨by decide, (bitsAdd_isAddition ⟨[false, true], rfl⟩ ⟨[true, false], rfl⟩ ⟨[true, true], rfl⟩
    []).2.2.1 (by decide)⟩

/-! ### Bits of a number -/

/-- The first loop of `bit_vector_from_size_t_be`, which removes zeroes at the front: the number of
bits that are left, and `x`. -/
def skipZeroes : ℕ → BitVec 64 → ℕ × BitVec 64
  | 0, x => (0, x)
  | numBits + 1, x => if x.msb then (numBits + 1, x) else skipZeroes numBits (x <<< 1)

/-- The second loop of `bit_vector_from_size_t_be`. -/
def pushBits : ℕ → BitVec 64 → List Bool
  | 0, _ => []
  | numBits + 1, x => x.msb :: pushBits numBits (x <<< 1)

/-- `bit_vector_from_size_t_be` -/
def bitVectorFromSizeTBe (x : BitVec 64) : List Bool :=
  let (numBits, x) := skipZeroes 64 x
  pushBits numBits x

theorem wordBits_shiftLeft_one (x : BitVec 64) :
    wordBits x ++ [false] = x.msb :: wordBits (x <<< 1) := by
  refine ext_getElem (by simp) fun i hi hi' => ?_
  rw [length_append, length_wordBits, length_singleton] at hi
  obtain _ | i := i
  · rw [getElem_append_left (by rw [length_wordBits]; omega), getElem_wordBits]
    rfl
  · rw [getElem_cons_succ, getElem_wordBits, BitVec.getMsbD_shiftLeft]
    by_cases hlt : i + 1 < 64
    · rw [getElem_append_left (by rwa [length_wordBits]), getElem_wordBits]
    · rw [getElem_append_right (by rw [length_wordBits]; omega), getElem_singleton,
        BitVec.getMsbD_of_ge _ _ (by omega)]

theorem length_pushBits (numBits : ℕ) (x : BitVec 64) : (pushBits numBits x).length = numBits := by
  induction numBits generalizing x with
  | zero => rfl
  | succ numBits ih => rw [pushBits, length_cons, ih]

theorem take_succ_wordBits {numBits : ℕ} (hle : numBits + 1 ≤ 64) (x : BitVec 64) :
    (wordBits x).take (numBits + 1) = x.msb :: (wordBits (x <<< 1)).take numBits := by
  rw [← take_succ_cons, ← wordBits_shiftLeft_one, take_append_of_le_length]
  rwa [length_wordBits]

theorem pushBits_eq_take {numBits : ℕ} (hle : numBits ≤ 64) (x : BitVec 64) :
    pushBits numBits x = (wordBits x).take numBits := by
  induction numBits generalizing x with
  | zero => rfl
  | succ numBits ih => rw [pushBits, ih (by omega), take_succ_wordBits hle]

theorem skipZeroes_spec {numBits : ℕ} (hle : numBits ≤ 64) (x : BitVec 64) :
    (skipZeroes numBits x).1 ≤ numBits ∧
      (wordBits x).take numBits = List.replicate (numBits - (skipZeroes numBits x).1) false ++
        pushBits (skipZeroes numBits x).1 (skipZeroes numBits x).2 := by
  induction numBits generalizing x with
  | zero => exact ⟨le_rfl, rfl⟩
  | succ numBits ih =>
    rw [skipZeroes]
    split_ifs with hmsb
    · refine ⟨le_rfl, ?_⟩
      rw [pushBits_eq_take hle, Nat.sub_self]
      rfl
    · obtain ⟨hlast, hbits⟩ := ih (by omega) (x <<< 1)
      refine ⟨by omega, ?_⟩
      rw [take_succ_wordBits hle, hbits, Nat.succ_sub hlast, replicate_succ,
        Bool.eq_false_of_not_eq_true hmsb]
      rfl

/-- The bits of a number, after the zeroes that were removed. -/
theorem wordBits_eq_bitVectorFromSizeTBe (x : BitVec 64) :
    (bitVectorFromSizeTBe x).length ≤ 64 ∧ wordBits x =
      List.replicate (64 - (bitVectorFromSizeTBe x).length) false ++ bitVectorFromSizeTBe x := by
  obtain ⟨hle, hbits⟩ := skipZeroes_spec le_rfl x
  have hlength : (bitVectorFromSizeTBe x).length = (skipZeroes 64 x).1 := length_pushBits _ _
  rw [take_of_length_le (by rw [length_wordBits])] at hbits
  rw [hlength]
  exact ⟨hle, hbits⟩

/-! ### Bytes -/

section Swap

variable {α : Type}

/-- `std::swap` of two entries. -/
def swapEntries (v : List α) (i j : ℕ) : List α :=
  match v[i]?, v[j]? with
  | some x, some y => (v.set i y).set j x
  | _, _ => v

/-- The loops of `swap_byte_endianness`. -/
def swapBytes (v : List α) : List α :=
  (List.range (v.length / 8 / 2)).foldl (fun v i =>
    (List.range 8).foldl (fun v j => swapEntries v (8 * i + j) (v.length - 8 * (i + 1) + j)) v) v

/-- `swap_byte_endianness` -/
def swapByteEndianness (v : List α) : Except String (List α) :=
  if v.length = 0 then
    .error "Invalid bit length for the given boolean vector (should be > 0)"
  else if v.length % 8 ≠ 0 then
    .error "Invalid bit length for the given boolean vector (should be multiple of 8)"
  else .ok (swapBytes v)

theorem length_swapEntries (v : List α) (i j : ℕ) : (swapEntries v i j).length = v.length := by
  rw [swapEntries]
  split
  · rw [length_set, length_set]
  · rfl

theorem length_swapBytes (v : List α) : (swapBytes v).length = v.length := by
  have hinner (i : ℕ) (js : List ℕ) (w : List α) :
      (js.foldl (fun v j => swapEntries v (8 * i + j) (v.length - 8 * (i + 1) + j)) w).length =
        w.length := by
    induction js generalizing w with
    | nil => rfl
    | cons j js ih => rw [foldl_cons, ih, length_swapEntries]
  rw [swapBytes]
  generalize List.range (v.length / 8 / 2) = is
  induction is generalizing v with
  | nil => rfl
  | cons i is ih => rw [foldl_cons, ih, hinner]

theorem swapByteEndianness_eq_ok {v : List α} (h : v.length = 32) :
    swapByteEndianness v = .ok (swapBytes v) := by
  rw [swapByteEndianness, if_neg (by omega), if_neg (by omega)]

theorem swapEntries_map {β : Type} (f : α → β) (v : List α) (i j : ℕ) :
    swapEntries (v.map f) i j = (swapEntries v i j).map f := by
  rw [swapEntries, swapEntries, List.getElem?_map, List.getElem?_map]
  cases v[i]? with
  | none => rfl
  | some x =>
    cases v[j]? with
    | none => rfl
    | some y => exact (map_set.trans (congrArg (List.set · j (f x)) map_set)).symm

/-- Entries are moved, whatever they are. -/
theorem swapBytes_map {β : Type} (f : α → β) (v : List α) :
    swapBytes (v.map f) = (swapBytes v).map f := by
  have hinner (i : ℕ) (js : List ℕ) (w : List α) :
      js.foldl (fun v j => swapEntries v (8 * i + j) (v.length - 8 * (i + 1) + j)) (w.map f) =
        (js.foldl (fun v j => swapEntries v (8 * i + j) (v.length - 8 * (i + 1) + j)) w).map f := by
    induction js generalizing w with
    | nil => rfl
    | cons j js ih => rw [foldl_cons, foldl_cons, length_map, swapEntries_map, ih]
  rw [swapBytes, swapBytes, length_map]
  generalize List.range (v.length / 8 / 2) = is
  induction is generalizing v with
  | nil => rfl
  | cons i is ih => rw [foldl_cons, foldl_cons, hinner, ih]

/-- The bytes of four are reversed. -/
theorem swapBytes_four {v : List α} (h : v.length = 32) :
    swapBytes v =
      (v.drop 24).take 8 ++ (v.drop 16).take 8 ++ (v.drop 8).take 8 ++ v.take 8 := by
  obtain ⟨d, -⟩ := exists_mem_of_length_pos (h ▸ by decide : 0 < v.length)
  have hpart (s n : ℕ) (hsn : s + n ≤ 32) :
      (List.range' s n).map (v.getD · d) = (v.drop s).take n := by
    refine ext_getElem (by simp [h]; omega) fun i hi hi' => ?_
    rw [length_map, length_range'] at hi
    rw [getElem_map, getElem_range', Nat.one_mul, getElem_take, getElem_drop,
      getD_eq_getElem _ _ (by omega)]
  have hall : v = (List.range' 0 32).map (v.getD · d) := by
    rw [hpart 0 32 le_rfl, drop_zero, take_of_length_le h.le]
  have hpositions : swapBytes (List.range' 0 32) =
      List.range' 24 8 ++ List.range' 16 8 ++ List.range' 8 8 ++ List.range' 0 8 := by decide
  calc swapBytes v
    _ = (swapBytes (List.range' 0 32)).map (v.getD · d) := by rw [← swapBytes_map, ← hall]
    _ = _ := by
      rw [hpositions, map_append, map_append, map_append, hpart 24 8 (by omega),
        hpart 16 8 (by omega), hpart 8 8 (by omega), hpart 0 8 (by omega), drop_zero]

end Swap

end Zeth.Circuit
