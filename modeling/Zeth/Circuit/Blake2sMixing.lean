import Zeth.Circuit.Blake2s

/-!
# The mixing gadget of BLAKE2s

The rows of the mixing gadget (`libzeth/circuits/blake2s/g_primitive.tcc`) on words of bits. A sum of
three words goes through an intermediate word that need not consist of bits; its packed value takes
part in two rows only and is eliminated from them. The packed values are below the characteristic, so
what holds in the field holds of numbers.

## Main definitions

* `Zeth.Circuit.CarriesWord`: wires carry a word. `Zeth.Circuit.wordOf`: the word read off wires.
* `Zeth.Circuit.HalfMixing`: one of the two halves of a mixing gadget, which differ in the rotations.

## Main results

* `Zeth.Circuit.GPrimitive.mix_of_satisfies`: the rows of the mixing gadget force the mixing function.
* `Zeth.Circuit.HalfMixing.satisfies_of_carriesFour`: the words of half the mixing function satisfy
  the rows.
-/

namespace Zeth.Circuit

open R1CS List

variable {F : Type} [Field F] {σ : Assignment F}

/-! ### Words on wires -/

/-- The wires carry the word, most significant bit first. -/
def CarriesWord (σ : Assignment F) (w : WordVar) (x : Blake2s.Word) : Prop :=
  Carries σ w.toList (wordBits x)

theorem carriesWord_iff {w : WordVar} {x : Blake2s.Word} :
    CarriesWord σ w x ↔ ∀ i : Fin 32, σ (w.get i) = ofBool (x.getMsbD i) := by
  rw [CarriesWord, Carries, wordBits, map_ofFn]
  constructor
  · intro h i
    have hlen : i.val < (w.toList.map σ).length := by
      rw [length_map, w.toList_length]
      exact i.isLt
    have hget := getElem_of_eq h hlen
    rw [getElem_map, List.getElem_ofFn] at hget
    rw [List.Vector.get_eq_get_toList]
    exact hget
  · intro h
    refine ext_getElem (by simp) fun i hi hi' => ?_
    rw [length_map, w.toList_length] at hi
    rw [getElem_map, List.getElem_ofFn]
    have hget := h ⟨i, hi⟩
    rw [List.Vector.get_eq_get_toList] at hget
    exact hget

theorem exists_carriesWord {w : WordVar} (h : ∀ v ∈ w.toList, IsBool (σ v)) :
    ∃ x, CarriesWord σ w x := by
  obtain ⟨bs, hbs⟩ := exists_carries_iff.mpr h
  refine ⟨BitVec.ofNat 32 (natOfBits bs), ?_⟩
  rwa [CarriesWord, wordBits_ofNat (hbs.length_eq.symm.trans w.toList_length)]

/-- The word read off wires. -/
def wordOf [DecidableEq F] (σ : Assignment F) (w : WordVar) : Blake2s.Word :=
  BitVec.ofNat 32 (numberOf σ w.toList)

theorem CarriesWord.wordOf_eq [DecidableEq F] {w : WordVar} {x : Blake2s.Word}
    (h : CarriesWord σ w x) : wordOf σ w = x := by
  have hbits : bitsOf σ w.toList = wordBits x := (carries_bitsOf h.isBool).injective h
  rw [wordOf, numberOf, hbits, natOfBits_wordBits, BitVec.ofNat_toNat, BitVec.setWidth_eq]

theorem CarriesWord.eval_packedAddition (L : Gadgetlib F) {w : WordVar} {x : Blake2s.Word}
    (h : CarriesWord σ w x) : (L.packedAddition w.toList).eval σ = (x.toNat : F) := by
  rw [L.eval_packedAddition h, natOfBits_wordBits]

/-! ### Exclusive or -/

theorem ofBool_xor (a b : Bool) :
    (ofBool (a ^^ b) : F) = ofBool a + ofBool b - 2 * ofBool a * ofBool b := by
  cases a <;> cases b <;> simp [ofBool]
  norm_num

/-- The row of an exclusive or, on bits. -/
theorem xorRow_iff {x y z : F} {a b : Bool} (hx : x = ofBool a) (hy : y = ofBool b) :
    2 * x * y = x + y - z ↔ z = ofBool (a ^^ b) := by
  rw [ofBool_xor, ← hx, ← hy]
  constructor
  · intro h
    rw [h]
    ring
  · rintro rfl
    ring

theorem XorGadget.satisfies_iff_carriesWord {a b res : WordVar} {x y : Blake2s.Word}
    (ha : CarriesWord σ a x) (hb : CarriesWord σ b y) :
    Satisfies σ (XorGadget.constraints F ⟨a, b, res⟩) ↔ CarriesWord σ res (x ^^^ y) := by
  rw [XorGadget.satisfies_iff, carriesWord_iff]
  refine forall_congr' fun i => ?_
  rw [xorRow_iff (carriesWord_iff.mp ha i) (carriesWord_iff.mp hb i), BitVec.getMsbD_xor]

/-- A bit of a word, rotated. -/
theorem getMsbD_rotateRight_target (x : Blake2s.Word) {shift : ℕ} (hshift : shift < 32) (i : Fin 32) :
    (x.rotateRight shift).getMsbD (XorRotGadget.target shift i) = x.getMsbD i := by
  have hi := i.isLt
  have htarget : (XorRotGadget.target shift i).val = (i + shift) % 32 := rfl
  rw [BitVec.getMsbD_rotateRight, Nat.mod_eq_of_lt hshift, decide_eq_true (Fin.isLt _),
    Bool.true_and, htarget]
  split_ifs with hwrap
  · congr 1
    omega
  · congr 1
    omega

theorem target_surjective {shift : ℕ} (hshift : shift < 32) :
    Function.Surjective (XorRotGadget.target (n := 32) shift) := by
  intro i
  refine ⟨⟨(i + (32 - shift)) % 32, Nat.mod_lt _ (by decide)⟩, Fin.ext ?_⟩
  have hi := i.isLt
  change ((i + (32 - shift)) % 32 + shift) % 32 = i
  omega

theorem XorRotGadget.satisfies_iff_carriesWord {a b res : WordVar} {x y : Blake2s.Word} {shift : ℕ}
    (hshift : shift < 32) (ha : CarriesWord σ a x) (hb : CarriesWord σ b y) :
    Satisfies σ (XorRotGadget.constraints F ⟨a, b, shift, res⟩) ↔
      CarriesWord σ res ((x ^^^ y).rotateRight shift) := by
  rw [XorRotGadget.satisfies_iff, carriesWord_iff]
  refine Iff.trans (forall_congr' fun i => ?_) (target_surjective hshift).forall.symm
  rw [xorRow_iff (carriesWord_iff.mp ha i) (carriesWord_iff.mp hb i),
    getMsbD_rotateRight_target _ hshift, BitVec.getMsbD_xor]

/-! ### Sums -/

/-- A word with the number of a sum, or of the sum but for multiples of `2 ^ 32`. -/
theorem eq_of_toNat_add {z w : Blake2s.Word} {n k : ℕ} (hw : w.toNat = n % 2 ^ 32)
    (h : n = z.toNat + k * 2 ^ 32) : z = w := by
  refine BitVec.eq_of_toNat_eq ?_
  rw [hw, h, Nat.add_mul_mod_self_right, Nat.mod_eq_of_lt z.isLt]

namespace DoubleBit32SumEqGadget

variable (L : Gadgetlib F)

theorem eval_carry (σ : Assignment F) (a b res : WordVar) :
    (carry L ⟨a, b, res⟩).eval σ = (L.packedAddition a.toList).eval σ +
      (L.packedAddition b.toList).eval σ - (L.packedAddition res.toList).eval σ := by
  rw [carry, LinearCombination.eval_sub, LinearCombination.eval_add]

/-- The rows say that the packed result is the sum but for a carry. -/
theorem satisfies_iff_exists_carry {a b res : WordVar} {enforceBoolean : Bool} :
    Satisfies σ (constraints L ⟨a, b, res⟩ enforceBoolean) ↔
      (enforceBoolean = true → ∀ v ∈ res.toList, IsBool (σ v)) ∧ ∃ c : Bool,
        (L.packedAddition a.toList).eval σ + (L.packedAddition b.toList).eval σ =
          (L.packedAddition res.toList).eval σ + c.toNat * 2 ^ 32 := by
  rw [satisfies_iff, eval_carry]
  refine and_congr_right fun _ => ?_
  simp only [Bool.exists_bool, Bool.toNat_false, Bool.toNat_true, Nat.cast_zero, Nat.cast_one,
    zero_mul, one_mul, add_zero, sub_eq_iff_eq_add']

/-- Words that are sums satisfy the rows. -/
theorem satisfies_of_carries {a b res : WordVar} {x y : Blake2s.Word} (ha : CarriesWord σ a x)
    (hb : CarriesWord σ b y) (hres : CarriesWord σ res (x + y)) (enforceBoolean : Bool) :
    Satisfies σ (constraints L ⟨a, b, res⟩ enforceBoolean) := by
  refine (satisfies_iff_exists_carry L).mpr ⟨fun _ => hres.isBool, ?_⟩
  rw [ha.eval_packedAddition, hb.eval_packedAddition, hres.eval_packedAddition, BitVec.toNat_add]
  have hx := x.isLt
  have hy := y.isLt
  by_cases hfit : x.toNat + y.toNat < 2 ^ 32
  · refine ⟨false, ?_⟩
    rw [Nat.mod_eq_of_lt hfit, Bool.toNat_false, Nat.cast_zero, zero_mul, add_zero, Nat.cast_add]
  · refine ⟨true, ?_⟩
    have hmod : x.toNat + y.toNat = (x.toNat + y.toNat) % 2 ^ 32 + 2 ^ 32 := by omega
    rw [Bool.toNat_true, Nat.cast_one, one_mul]
    exact_mod_cast congrArg (Nat.cast : ℕ → F) hmod

variable (p : ℕ) [CharP F p] (hp : 2 ^ 35 < p)

include hp

/-- The sum of two words. -/
theorem carriesWord_of_satisfies {a b res : WordVar} {x y : Blake2s.Word} (ha : CarriesWord σ a x)
    (hb : CarriesWord σ b y) (h : Satisfies σ (constraints L ⟨a, b, res⟩ true)) :
    CarriesWord σ res (x + y) := by
  obtain ⟨hbool, c, hsum⟩ := (satisfies_iff_exists_carry L).mp h
  obtain ⟨z, hz⟩ := exists_carriesWord (hbool rfl)
  rw [ha.eval_packedAddition, hb.eval_packedAddition, hz.eval_packedAddition] at hsum
  have hx := x.isLt
  have hy := y.isLt
  have hlt := z.isLt
  have hc := c.toNat_lt
  have hnat : x.toNat + y.toNat = z.toNat + c.toNat * 2 ^ 32 :=
    natCast_inj_of_lt (F := F) p (by omega) (by omega) (by exact_mod_cast hsum)
  rwa [← eq_of_toNat_add (BitVec.toNat_add x y) hnat]

/-- The sum of three words, through an intermediate word that need not consist of bits. -/
theorem carriesWord_of_satisfies_temp {a b temp m res : WordVar} {x y z : Blake2s.Word}
    (ha : CarriesWord σ a x) (hb : CarriesWord σ b y) (hm : CarriesWord σ m z)
    (htemp : Satisfies σ (constraints L ⟨a, b, temp⟩ false))
    (h : Satisfies σ (constraints L ⟨temp, m, res⟩ true)) : CarriesWord σ res (x + y + z) := by
  obtain ⟨-, c, hfirst⟩ := (satisfies_iff_exists_carry L).mp htemp
  obtain ⟨hbool, d, hsecond⟩ := (satisfies_iff_exists_carry L).mp h
  obtain ⟨w, hw⟩ := exists_carriesWord (hbool rfl)
  rw [ha.eval_packedAddition, hb.eval_packedAddition] at hfirst
  rw [hm.eval_packedAddition, hw.eval_packedAddition] at hsecond
  have hx := x.isLt
  have hy := y.isLt
  have hz := z.isLt
  have hlt := w.isLt
  have hc := c.toNat_lt
  have hd := d.toNat_lt
  have hnat : x.toNat + y.toNat + z.toNat = w.toNat + (c.toNat + d.toNat) * 2 ^ 32 := by
    refine natCast_inj_of_lt (F := F) p (by omega) (by omega) ?_
    push_cast
    linear_combination hfirst + hsecond
  have htotal : (x + y + z).toNat = (x.toNat + y.toNat + z.toNat) % 2 ^ 32 := by
    rw [BitVec.toNat_add, BitVec.toNat_add, Nat.mod_add_mod]
  rwa [← eq_of_toNat_add htotal hnat]

end DoubleBit32SumEqGadget

/-! ### Half of the mixing function -/

/-- Half of the mixing function, with its two rotations. -/
def halfMix (r s : ℕ) (a b c d x : Blake2s.Word) :
    Blake2s.Word × Blake2s.Word × Blake2s.Word × Blake2s.Word :=
  let a1 := a + b + x
  let d1 := (d ^^^ a1).rotateRight r
  let c1 := c + d1
  let b1 := (b ^^^ c1).rotateRight s
  (a1, b1, c1, d1)

/-- The wires carry four words. -/
def CarriesFour (σ : Assignment F) (a b c d : WordVar)
    (xs : Blake2s.Word × Blake2s.Word × Blake2s.Word × Blake2s.Word) : Prop :=
  CarriesWord σ a xs.1 ∧ CarriesWord σ b xs.2.1 ∧ CarriesWord σ c xs.2.2.1 ∧
    CarriesWord σ d xs.2.2.2

/-- One half of a mixing gadget: the words it reads, the intermediate sum, the words it writes and
the two rotations. -/
structure HalfMixing where
  a : WordVar
  b : WordVar
  c : WordVar
  d : WordVar
  x : WordVar
  temp : WordVar
  a1 : WordVar
  b1 : WordVar
  c1 : WordVar
  d1 : WordVar
  r : ℕ
  s : ℕ

namespace HalfMixing

variable (L : Gadgetlib F) {h : HalfMixing}

def constraints (h : HalfMixing) : List (Constraint F) :=
  DoubleBit32SumEqGadget.constraints L ⟨h.a, h.b, h.temp⟩ false ++
  (DoubleBit32SumEqGadget.constraints L ⟨h.temp, h.x, h.a1⟩ true ++
  (XorRotGadget.constraints F ⟨h.d, h.a1, h.r, h.d1⟩ ++
  (DoubleBit32SumEqGadget.constraints L ⟨h.c, h.d1, h.c1⟩ true ++
  XorRotGadget.constraints F ⟨h.b, h.c1, h.s, h.b1⟩)))

/-- On words, the rows force the results. -/
theorem carriesFour_of_satisfies (p : ℕ) [CharP F p] (hp : 2 ^ 35 < p) (hr : h.r < 32)
    (hs : h.s < 32) (hrows : Satisfies σ (h.constraints L)) {a b c d x : Blake2s.Word}
    (hreads : CarriesFour σ h.a h.b h.c h.d (a, b, c, d)) (hx : CarriesWord σ h.x x) :
    CarriesFour σ h.a1 h.b1 h.c1 h.d1 (halfMix h.r h.s a b c d x) := by
  obtain ⟨ha, hb, hc, hd⟩ := hreads
  simp only [constraints, satisfies_append] at hrows
  obtain ⟨htemp, ha1, hd1, hc1, hb1⟩ := hrows
  have ha1 := DoubleBit32SumEqGadget.carriesWord_of_satisfies_temp L p hp ha hb hx htemp ha1
  have hd1 := (XorRotGadget.satisfies_iff_carriesWord hr hd ha1).mp hd1
  have hc1 := DoubleBit32SumEqGadget.carriesWord_of_satisfies L p hp hc hd1 hc1
  have hb1 := (XorRotGadget.satisfies_iff_carriesWord hs hb hc1).mp hb1
  exact ⟨ha1, hb1, hc1, hd1⟩

/-- The words of half the mixing function satisfy the rows. -/
theorem satisfies_of_carriesFour (hr : h.r < 32) (hs : h.s < 32) {a b c d x : Blake2s.Word}
    (hreads : CarriesFour σ h.a h.b h.c h.d (a, b, c, d)) (hx : CarriesWord σ h.x x)
    (htemp : CarriesWord σ h.temp (a + b))
    (hwrites : CarriesFour σ h.a1 h.b1 h.c1 h.d1 (halfMix h.r h.s a b c d x)) :
    Satisfies σ (h.constraints L) := by
  obtain ⟨ha, hb, hc, hd⟩ := hreads
  obtain ⟨ha1, hb1, hc1, hd1⟩ := hwrites
  simp only [constraints, satisfies_append]
  refine ⟨?_, ?_, ?_, ?_, ?_⟩
  · exact DoubleBit32SumEqGadget.satisfies_of_carries L ha hb htemp false
  · exact DoubleBit32SumEqGadget.satisfies_of_carries L htemp hx ha1 true
  · exact (XorRotGadget.satisfies_iff_carriesWord hr hd ha1).mpr hd1
  · exact DoubleBit32SumEqGadget.satisfies_of_carries L hc hd1 hc1 true
  · exact (XorRotGadget.satisfies_iff_carriesWord hs hb hc1).mpr hb1

end HalfMixing

/-! ### The mixing function -/

namespace GPrimitive

variable (L : Gadgetlib F) {g : GPrimitive}

def firstHalf (g : GPrimitive) : HalfMixing :=
  ⟨g.a, g.b, g.c, g.d, g.x, g.a1Temp, g.a1, g.b1, g.c1, g.d1, rotationConstantR1,
    rotationConstantR2⟩

def secondHalf (g : GPrimitive) : HalfMixing :=
  ⟨g.a1, g.b1, g.c1, g.d1, g.y, g.a2Temp, g.a2, g.b2, g.c2, g.d2, rotationConstantR3,
    rotationConstantR4⟩

theorem satisfies_iff_halves : Satisfies σ (g.constraints L) ↔
    Satisfies σ (g.firstHalf.constraints L) ∧ Satisfies σ (g.secondHalf.constraints L) := by
  simp only [constraints, firstHalf, secondHalf, HalfMixing.constraints, satisfies_append, and_assoc]

/-- **Soundness of the mixing gadget.** Over a field of characteristic above `2 ^ 35`, the rows on
inputs of bits force the four results to be words of bits, and the words of the mixing function. -/
theorem mix_of_satisfies [DecidableEq F] (p : ℕ) [CharP F p] (hp : 2 ^ 35 < p)
    (h : Satisfies σ (g.constraints L))
    (hinputs : ∀ w ∈ [g.a, g.b, g.c, g.d, g.x, g.y], ∀ v ∈ w.toList, IsBool (σ v)) :
    (∀ w ∈ [g.a2, g.b2, g.c2, g.d2], ∀ v ∈ w.toList, IsBool (σ v)) ∧
      (wordOf σ g.a2, wordOf σ g.b2, wordOf σ g.c2, wordOf σ g.d2) =
        Blake2s.mix (wordOf σ g.a) (wordOf σ g.b) (wordOf σ g.c) (wordOf σ g.d) (wordOf σ g.x)
          (wordOf σ g.y) := by
  simp only [forall_mem_cons] at hinputs
  obtain ⟨ha, hb, hc, hd, hx, hy, -⟩ := hinputs
  obtain ⟨a, ha⟩ := exists_carriesWord ha
  obtain ⟨b, hb⟩ := exists_carriesWord hb
  obtain ⟨c, hc⟩ := exists_carriesWord hc
  obtain ⟨d, hd⟩ := exists_carriesWord hd
  obtain ⟨x, hx⟩ := exists_carriesWord hx
  obtain ⟨y, hy⟩ := exists_carriesWord hy
  obtain ⟨hfirst, hsecond⟩ := (satisfies_iff_halves L).mp h
  have hmiddle : CarriesFour σ g.a1 g.b1 g.c1 g.d1 (halfMix 16 12 a b c d x) :=
    HalfMixing.carriesFour_of_satisfies L p hp (show 16 < 32 by decide) (show 12 < 32 by decide)
      hfirst ⟨ha, hb, hc, hd⟩ hx
  have hresult : CarriesFour σ g.a2 g.b2 g.c2 g.d2 (Blake2s.mix a b c d x y) :=
    HalfMixing.carriesFour_of_satisfies L p hp (show 8 < 32 by decide) (show 7 < 32 by decide)
      hsecond hmiddle hy
  obtain ⟨ha2, hb2, hc2, hd2⟩ := hresult
  constructor
  · simp only [forall_mem_cons]
    exact ⟨ha2.isBool, hb2.isBool, hc2.isBool, hd2.isBool, forall_mem_nil _⟩
  · rw [ha.wordOf_eq, hb.wordOf_eq, hc.wordOf_eq, hd.wordOf_eq, hx.wordOf_eq, hy.wordOf_eq,
      ha2.wordOf_eq, hb2.wordOf_eq, hc2.wordOf_eq, hd2.wordOf_eq]

section Literal

/-- A word on the constant wire and a wire of zero. -/
def literalWord (x : Blake2s.Word) : WordVar := .ofFn fun i => if x.getMsbD i then ONE else 1

theorem carriesWord_literalWord (x : Blake2s.Word) :
    CarriesWord (Assignment.blank : Assignment SampleField) (literalWord x) x := by
  refine carriesWord_iff.mpr fun i => ?_
  rw [literalWord, List.Vector.get_ofFn]
  cases x.getMsbD i <;> rfl

/-- The mixing gadget whose words carry the mixing function of the numbers from one to six. -/
def literalGadget : GPrimitive where
  a := literalWord 1
  b := literalWord 2
  c := literalWord 3
  d := literalWord 4
  x := literalWord 5
  y := literalWord 6
  a1 := literalWord (halfMix 16 12 1 2 3 4 5).1
  b1 := literalWord (halfMix 16 12 1 2 3 4 5).2.1
  c1 := literalWord (halfMix 16 12 1 2 3 4 5).2.2.1
  d1 := literalWord (halfMix 16 12 1 2 3 4 5).2.2.2
  a1Temp := literalWord (1 + 2)
  a2Temp := literalWord ((halfMix 16 12 1 2 3 4 5).1 + (halfMix 16 12 1 2 3 4 5).2.1)
  a2 := literalWord (Blake2s.mix 1 2 3 4 5 6).1
  b2 := literalWord (Blake2s.mix 1 2 3 4 5 6).2.1
  c2 := literalWord (Blake2s.mix 1 2 3 4 5 6).2.2.1
  d2 := literalWord (Blake2s.mix 1 2 3 4 5 6).2.2.2

theorem mix_of_satisfies_literalGadget :
    2 ^ 35 < mersenne 89 ∧
      (wordOf (Assignment.blank : Assignment SampleField) literalGadget.a2,
        wordOf (Assignment.blank : Assignment SampleField) literalGadget.b2,
        wordOf (Assignment.blank : Assignment SampleField) literalGadget.c2,
        wordOf (Assignment.blank : Assignment SampleField) literalGadget.d2) =
      Blake2s.mix 1 2 3 4 5 6 := by
  have hp : 2 ^ 35 < mersenne 89 := by norm_num [mersenne]
  have hword := carriesWord_literalWord
  have hrows : Satisfies (Assignment.blank : Assignment SampleField)
      (literalGadget.constraints Gadgetlib.standard) := by
    refine (satisfies_iff_halves _).mpr ⟨?_, ?_⟩
    · exact HalfMixing.satisfies_of_carriesFour _ (by decide) (by decide)
        ⟨hword 1, hword 2, hword 3, hword 4⟩ (hword 5) (hword _)
        ⟨hword _, hword _, hword _, hword _⟩
    · exact HalfMixing.satisfies_of_carriesFour _ (by decide) (by decide)
        ⟨hword _, hword _, hword _, hword _⟩ (hword 6) (hword _)
        ⟨hword _, hword _, hword _, hword _⟩
  obtain ⟨-, hmix⟩ := mix_of_satisfies Gadgetlib.standard (mersenne 89) hp hrows (by
    simp only [forall_mem_cons]
    exact ⟨(hword 1).isBool, (hword 2).isBool, (hword 3).isBool, (hword 4).isBool,
      (hword 5).isBool, (hword 6).isBool, forall_mem_nil _⟩)
  refine ⟨hp, hmix.trans ?_⟩
  simp only [literalGadget, (hword _).wordOf_eq]

end Literal

end GPrimitive

end Zeth.Circuit
